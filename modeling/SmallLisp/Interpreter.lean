import SmallLisp.Directory
import SmallLisp.Eval
import SmallLisp.Expr.Tree
import SmallLisp.Reporter
import SmallLisp.Text.Utf8

/-!
# Interpreters

An interpreter runs texts one after another against one environment, so that what one text defines
is known to the next.
-/
namespace SmallLisp

structure Interpreter (η : Type) where
  /-- The path that texts are registered under. -/
  path : String
  /-- Whether the tree of a text is written before it is evaluated. -/
  showTree : Bool
  env : Env η
  /-- The programs that were run to their end, in order. -/
  programs : List Program
  reporter : Reporter

namespace Interpreter

variable {η : Type}

def typedPath : String := "<in>"

/-- An interpreter that has run nothing. Reports on typed lines never end the program. -/
def create (reporter : Reporter) (path : String) (typed showTree : Bool) : Interpreter η :=
  let reporter := reporter.register path none
  ⟨path, showTree, .initial, [], if typed then { reporter with fatal := false } else reporter⟩

/-- Opens an interpreter of typed lines or of the file `path`. No file may have the path of typed
lines; the interpreter refused for it is given with the fault. -/
def start (reporter : Reporter) (path : String) (typed showTree : Bool) :
    Except (Fault × Interpreter η) (Interpreter η) :=
  let i := create reporter path typed showTree
  if typed = false ∧ path = typedPath then
    .error (.general ("'" ++ typedPath ++ "' is a reserved filename"), i)
  else .ok i

def note (i : Interpreter η) (remark : String) : Interpreter η :=
  { i with env := i.env.record (.noted remark) }

/-- Why a file cannot be loaded. -/
def loadFault (path : String) : OpenError → Fault
  | .nullInPath => .internal "ValueError" OpenError.nullInPath.reason
  | e => .general ("'" ++ path ++ "' could not be opened (" ++ e.reason ++ ")")

/-- The text of bytes, with its line ends unified. -/
def textOf (path : String) (bytes : ByteArray) : Except Fault String :=
  match Utf8.decode bytes with
  | .error n => .error (.general ("'" ++ path ++ "' is not valid UTF-8 (byte " ++ toString n ++ ")"))
  | .ok cs => .ok (String.ofList (Lines.unify cs))

def load (i : Interpreter η) (files : Files) : Except Fault String × Interpreter η :=
  match files i.path with
  | .error e => (.error (loadFault i.path e), i)
  | .ok bytes =>
    match textOf i.path bytes with
    | .error e => (.error e, i)
    | .ok text =>
      (.ok text, i.note ("loaded '" ++ i.path ++ "' (" ++ toString text.length ++ " characters)"))

/-- Evaluates a program that was parsed from the text of the interpreter's path. -/
def evaluate [Host η] (i : Interpreter η) (p : Program) : Except Fault Program × Interpreter η :=
  let i := if i.showTree then { i with env := i.env.write (p.tree.outline 0) } else i
  let i := i.note ("evaluating " ++ toString p.exprs.length ++ " top-level form(s) from '"
    ++ i.path ++ "'")
  match p.eval.run.run i.env with
  | (.error e, env) => (.error e.fault, { i with env })
  | (.ok _, env) => (.ok p, { i with env, programs := i.programs ++ [p] })

/-- Runs a text: parses all of it, then evaluates it. -/
def runText [Host η] (i : Interpreter η) (text : String) : Except Fault Program × Interpreter η :=
  let i := { i with reporter := i.reporter.register i.path (some text) }
  match parse text with
  | .error e => (.error e.fault, i)
  | .ok p => i.evaluate p

def runFile [Host η] (i : Interpreter η) (files : Files) : Except Fault Program × Interpreter η :=
  match i.load files with
  | (.error e, i) => (.error e, i)
  | (.ok text, i) => i.runText text

/-- The result of a run whose fault, if any, has been reported: nothing, if that settled it. -/
structure Settled (η : Type) where
  result : Except Fault (Option Program)
  interpreter : Interpreter η
  printed : String

def settle (run : Except Fault Program × Interpreter η) : Settled η :=
  match run with
  | (.ok p, i) => ⟨.ok (some p), i, ""⟩
  | (.error fault, i) =>
    let report := i.reporter.handle fault
    match report.left with
    | none => ⟨.ok none, i, report.printed⟩
    | some fault => ⟨.error fault, i, report.printed⟩

end Interpreter

def Event.log? {η : Type} : Event η → Option String
  | .bound name value depth =>
    some ("rlisp.isolate: bound '" ++ name ++ "' to " ++ value.render ++ " (depth "
      ++ toString depth ++ ")")
  | .noted remark => some ("rlisp.session: " ++ remark)
  | _ => none

end SmallLisp

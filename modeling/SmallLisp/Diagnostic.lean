import SmallLisp.Env
import SmallLisp.Parser

/-!
# Diagnostics

What can be reported about a text, and all that can end a computation early.
-/
namespace SmallLisp

inductive Problem where
  | general (text : String)
  | lexical (text : String)
  | parsing (text : String)
  | syntactic (text : String)
  /-- A lexical error that was met while parsing. -/
  | malformed (text : String)
  | evaluation (name : String)
  | eval (cause : EvalError.Cause)
deriving DecidableEq

namespace Problem

def kind : Problem → String
  | general _ | eval .onlyGlobal => "error"
  | lexical _ | malformed _ => "LexicalError"
  | parsing _ => "ParserError"
  | syntactic _ => "SyntaticError"
  | evaluation _ => "EvaluationError"
  | eval (.alreadyBound _) => "AlreadyBound"
  | eval (.unbound _) => "Unbound"
  | eval (.notCallable _) => "NotCallable"

def message : Problem → String
  | general text | lexical text | parsing text | syntactic text | malformed text => text
  | evaluation name => name
  | eval cause => cause.message

/-- Problems of evaluation are told apart by what they say alone. -/
def isEvaluation : Problem → Bool
  | evaluation _ | eval _ => true
  | _ => false

end Problem

/-- A problem and its place in the text, if it has one. -/
structure Diagnostic where
  problem : Problem
  location : Option Location
deriving DecidableEq

namespace Diagnostic

def kind (d : Diagnostic) : String := d.problem.kind

def message (d : Diagnostic) : String := d.problem.message

/-- The diagnostic on a line of its own, unless it is a lexical error without a place. -/
def describe? (d : Diagnostic) : Option String :=
  match d.problem with
  | .lexical text => d.location.map (LexError.describe · text)
  | _ => some d.message

/-- Whether one may stand for the other; places do not count, and what is no problem of evaluation
stands for nothing else. -/
def same (d d' : Diagnostic) : Bool := d.problem.isEvaluation && d.problem == d'.problem

/-- How many diagnostics are left if one stands for all that are the same. -/
def distinct : List Diagnostic → Nat
  | [] => 0
  | d :: ds => (if ds.any d.same then 0 else 1) + distinct ds

end Diagnostic

/-- The status that a program ends with. -/
inductive ExitStatus where
  | none
  | code (n : Int)
  | message (text : String)
deriving DecidableEq

/-- What ends a computation early. -/
inductive Fault where
  | diagnostic (d : Diagnostic)
  /-- The text nests too deeply. -/
  | tooDeep
  /-- The user broke in. -/
  | interrupted
  | exit (status : ExitStatus)
  /-- A failure of another kind, which nothing in a text accounts for. -/
  | internal (kind text : String)
deriving DecidableEq

def LexError.diagnostic (e : LexError) : Diagnostic := ⟨.lexical e.message, some e.location⟩

def ParseError.fault : ParseError → Fault
  | refused cause location => .diagnostic ⟨.syntactic cause.message, some location⟩
  | malformed e => .diagnostic ⟨.malformed e.message, some e.location⟩
  | tooDeep => .tooDeep
  | notStarted => .internal "NotStarted" "no token has been requested"

def EvalError.fault (e : EvalError) : Fault :=
  match e.cause with
  | .onlyGlobal => .internal "ValueError" e.message
  | cause => .diagnostic ⟨.eval cause, e.location⟩

/-- A fault that lies in no place of the text. -/
def Fault.general (text : String) : Fault := .diagnostic ⟨.general text, none⟩

end SmallLisp

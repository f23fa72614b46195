import SmallLisp.Diagnostic
import SmallLisp.Keyed
import SmallLisp.Text.Lines

/-!
# The reporter

Keeps the texts that are being worked on and reports faults in them. A report names the text and
the place, and quotes the line with a mark under the column.
-/
namespace SmallLisp

structure Reporter where
  /-- Whether the first report ends the program. -/
  fatal : Bool
  /-- Whether reports are coloured for a terminal. -/
  color : Bool
  /-- The paths of the texts in the order of their first registration. A text may be unread. -/
  sources : List (String × Option String)

namespace Reporter

/-- Registers the text of a path. A path that is known keeps its rank. -/
def register (r : Reporter) (path : String) (text : Option String) : Reporter :=
  { r with sources := Keyed.put path text r.sources }

/-- The path that was registered last for the first time; faults are blamed on it. -/
def path (r : Reporter) : String := (r.sources.getLast?.map Prod.fst).getD "<in>"

def text? (r : Reporter) : Option String := r.sources.getLast?.bind Prod.snd

def line? (r : Reporter) (row : Int) : Option String := r.text?.bind (Lines.row? · row)

def bold (r : Reporter) (text : String) : String :=
  if r.color then "\x1b[1m" ++ text ++ "\x1b[0m" else text

def alarm (r : Reporter) (text : String) : String :=
  if r.color then "\x1b[1m\x1b[31m" ++ text ++ "\x1b[0m" else text

/-- A quoted line and a mark under its column `col`, counted from 1. -/
def quote (r : Reporter) (line : String) (col : Int) : String :=
  "  " ++ line ++ "\n  " ++ String.ofList (List.replicate (col - 1).toNat ' ') ++ r.alarm "^"

/-- Where a diagnostic belongs. -/
def position (r : Reporter) : Option Location → String
  | some location => r.path ++ ":" ++ location.text ++ ": "
  | none => r.path ++ ": "

/-- The quoted line below a report, if there is one. -/
def excerpt (r : Reporter) (location : Option Location) : String :=
  match location with
  | none => ""
  | some p =>
    match r.line? p.row with
    | none => ""
    | some line => "\n" ++ r.quote line p.col

def render (r : Reporter) (d : Diagnostic) (internal : Bool) : String :=
  r.bold (r.position d.location) ++ (if internal then r.alarm "[internal] " else "")
    ++ r.alarm (d.kind ++ ": ") ++ d.message ++ r.excerpt d.location

/-- What is printed about a fault, and the fault that is left after that. -/
structure Report where
  printed : String
  left : Option Fault

/-- Prints a diagnostic, which ends the program if the reporter is fatal. -/
def report (r : Reporter) (d : Diagnostic) (internal : Bool) : Report :=
  ⟨r.render d internal ++ "\n", if r.fatal then some (.exit (.code 1)) else none⟩

/-- Reports a fault. The end of the program is no matter for a report, and an internal fault is not
settled by one. -/
def handle (r : Reporter) : Fault → Report
  | .diagnostic d => r.report d false
  | .tooDeep => r.report
    ⟨.general "maximum recursion depth exceeded (expression nested too deeply)", none⟩ false
  | .interrupted => r.report ⟨.general "keyboard interrupt", none⟩ false
  | .exit status => ⟨"", some (.exit status)⟩
  | .internal kind text =>
    let done := r.report ⟨.general ("unknown error: '" ++ kind ++ ": " ++ text ++ "'"), none⟩ true
    ⟨done.printed, done.left.or (some (.internal kind text))⟩

end Reporter
end SmallLisp

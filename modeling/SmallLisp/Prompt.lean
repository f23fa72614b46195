import SmallLisp.Balance
import SmallLisp.Interpreter
import SmallLisp.Text.Blank

/-!
# The prompt

Typed lines are commands or program text. Text that is not complete waits for more lines, and is
run when they complete it.
-/
namespace SmallLisp

/-- An interpreter and the text that waits for another line, which is empty if none does. -/
structure Prompt (η : Type) where
  interpreter : Interpreter η
  pending : String

/-- What a line comes to. -/
inductive Prompt.Answer where
  | goOn
  /-- There was nothing on the line. -/
  | ignored
  | stop
deriving DecidableEq

/-- A line as the prompt understands it. -/
inductive Prompt.Entry where
  | nothing
  | help
  | exit
  | endOfInput
  | code (line : String)
deriving DecidableEq

/-- What a line did: its answer, what was reported, and what the prompt itself printed. -/
structure Prompt.Step (η : Type) where
  answer : Except Fault Prompt.Answer
  prompt : Prompt η
  reported : String
  printed : String

namespace Prompt

def greeting : String :=
  "rlisp interpreter :: Python backend\nType 'help' for more information."

def helpText : String :=
  "Welcome to the rlisp interpreter!\n\n" ++
  "rlisp is a small S-expression language. Values are integers, strings and\n" ++
  "built-in functions; names are bound with define and can't be rebound.\n\n" ++
  "Try it out by typing '(define x 12)'. This will bind 12 to the name 'x'.\n" ++
  "Next, try typing '(debug x \"hello\")'. This will print '12 \"hello\"'."

def join (pending line : String) : String :=
  if pending = "" then line else pending ++ "\n" ++ line

/-- The text that a line makes of the pending one, and whether it goes on in another line. -/
def extend (pending line : String) : String × Bool :=
  let text := join pending line
  (text, (Balance.of text).isOpen)

/-- What may stand in the name of a command. -/
def isCommandChar (c : Char) : Bool := c.isAlphanum || c == '_'

/-- A line is a command if it starts with the name of one, whatever follows. -/
def Entry.ofLine (line : String) : Entry :=
  match Blank.strip line.toList with
  | [] => .nothing
  | '?' :: _ => .help
  | cs =>
    match String.ofList (cs.takeWhile isCommandChar) with
    | "help" => .help
    | "exit" => .exit
    | "EOF" => .endOfInput
    | _ => .code (String.ofList cs)

variable {η : Type}

def start (i : Interpreter η) : Prompt η := ⟨i, ""⟩

def sign (p : Prompt η) : String := if p.pending = "" then "> " else ". "

/-- Takes a line of program text, and runs the text if that completes it. -/
def enter [Host η] (p : Prompt η) (line : String) : Step η :=
  let (text, goesOn) := extend p.pending line
  if goesOn then ⟨.ok .goOn, { p with pending := text }, "", ""⟩
  else
    let settled := Interpreter.settle (p.interpreter.runText text)
    ⟨settled.result.map fun _ => .goOn, ⟨settled.interpreter, ""⟩, settled.printed, ""⟩

/-- Takes a typed line. -/
def type [Host η] (p : Prompt η) (line : String) : Step η :=
  match Entry.ofLine line with
  | .nothing => ⟨.ok .ignored, p, "", ""⟩
  | .help => ⟨.ok .goOn, p, "", helpText ++ "\n"⟩
  | .exit => ⟨.ok .stop, p, "", ""⟩
  | .endOfInput => ⟨.ok .stop, p, "", "\n"⟩
  | .code line => p.enter line

end Prompt
end SmallLisp

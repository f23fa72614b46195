import SmallLisp.CommandLine
import SmallLisp.Prompt

/-!
# The command

The whole program: from arguments, files and typed lines to what is printed and the exit status.
-/
namespace SmallLisp.Command

/-- What a run of the program comes to. -/
structure Outcome where
  stdout : String
  stderr : String
  result : Except Fault Unit

/-- What an interpreter has written. -/
def written (i : Interpreter Empty) : String := Event.output i.env.journal

/-- What an interpreter has logged, line by line. -/
def logged (verbose : Bool) (i : Interpreter Empty) : String :=
  if verbose then Lines.unlines (i.env.journal.filterMap Event.log?) else ""

/-- Runs a file. -/
def runFile (reporter : Reporter) (line : CommandLine) (path : String) (files : Files) : Outcome :=
  match Interpreter.start reporter path false line.showTree with
  | .error (fault, i) =>
    let settled := Interpreter.settle (.error fault, i)
    ⟨settled.printed, logged line.verbose i, settled.result.map fun _ => ()⟩
  | .ok i =>
    let settled := Interpreter.settle (i.runFile files)
    ⟨written settled.interpreter ++ settled.printed, logged line.verbose settled.interpreter,
      settled.result.map fun _ => ()⟩

/-- One line at the prompt, with all that is printed until the next. -/
def typed (p : Prompt Empty) (line : String) : Prompt.Step Empty × String :=
  let step := p.type line
  (step, Event.output (step.prompt.interpreter.env.since p.interpreter.env) ++ step.reported
    ++ step.printed)

/-- The prompt over the lines of the input, whose end acts as a command. -/
def converse (p : Prompt Empty) : List String → Prompt Empty × String × Except Fault Unit
  | [] =>
    let (step, printed) := typed p "EOF"
    (step.prompt, p.sign ++ printed, step.answer.map fun _ => ())
  | line :: lines =>
    let (step, printed) := typed p line
    match step.answer with
    | .error fault => (step.prompt, p.sign ++ printed, .error fault)
    | .ok .stop => (step.prompt, p.sign ++ printed, .ok ())
    | .ok _ =>
      let (last, more, result) := converse step.prompt lines
      (last, p.sign ++ printed ++ more, result)

/-- The lines of an input. What follows the last line feed is a line unless it is empty. -/
def inputLines (input : String) : List String :=
  let lines := Lines.split (Lines.unify input.toList)
  (if lines.getLast? = some [] then lines.dropLast else lines).map String.ofList

/-- Runs the prompt. -/
def runPrompt (reporter : Reporter) (line : CommandLine) (input : String) : Outcome :=
  match Interpreter.start reporter Interpreter.typedPath true line.showTree with
  | .error (fault, _) => ⟨"", "", .error fault⟩
  | .ok i =>
    let (last, shown, result) := converse (.start i) (inputLines input)
    ⟨Prompt.greeting ++ "\n" ++ shown, logged line.verbose last.interpreter, result⟩

/-- Runs the program. -/
def run (arguments : List String) (files : Files) (input : String) (color : Bool) : Outcome :=
  let reporter : Reporter := ⟨true, color, []⟩
  match CommandLine.ofArguments arguments with
  | .error .help => ⟨CommandLine.helpText, "", .error (.exit (.code 0))⟩
  | .error (.error e) =>
    ⟨"", CommandLine.usage ++ "rlisp: error: " ++ e.message ++ "\n", .error (.exit (.code 2))⟩
  | .ok line =>
    match line.file with
    | some path => runFile reporter line path files
    | none => runPrompt reporter line input

end SmallLisp.Command

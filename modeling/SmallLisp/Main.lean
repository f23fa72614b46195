import SmallLisp.Command

/-! # The program on a terminal -/
namespace SmallLisp.Terminal

/-- Why the system refuses to open or read a file. -/
def openError : IO.Error → OpenError
  | .noFileOrDirectory .. => .notFound
  | .inappropriateType none .. => .isDirectory
  | .inappropriateType .. => .notDirectory
  | .invalidArgument _ 22 _ => .nullInPath
  | .invalidArgument .. => .nameTooLong
  | e => .other (toString e)

def contents (path : String) : IO (Except OpenError ByteArray) := do
  try return .ok (← IO.FS.readBinFile path)
  catch e => return .error (openError e)

def status : Except Fault Unit → UInt32
  | .error (.exit (.code n)) => n.toNat.toUInt32
  | .error _ => 1
  | .ok _ => 0

/-- Reads and answers lines until one of them stops the prompt. -/
partial def converse (p : Prompt Empty) (verbose : Bool) : IO Unit := do
  let output ← IO.getStdout
  output.putStr p.sign
  output.flush
  let line ← (← IO.getStdin).getLine
  let typed := if line.isEmpty then "EOF" else (line.dropEndWhile (· == '\n')).toString
  let (step, shown) := Command.typed p typed
  output.putStr shown
  if verbose then
    for event in step.prompt.interpreter.env.since p.interpreter.env do
      if let some remark := event.log? then IO.eprintln remark
  match step.answer with
  | .ok .stop | .error _ => return
  | .ok _ => converse step.prompt verbose

end SmallLisp.Terminal

open SmallLisp in
def main (arguments : List String) : IO UInt32 := do
  let color ← (← IO.getStdout).isTty
  let line := CommandLine.ofArguments arguments
  let finish (files : Files) : IO UInt32 := do
    let outcome := Command.run arguments files "" color
    IO.eprint outcome.stderr
    IO.print outcome.stdout
    return Terminal.status outcome.result
  match line with
  | .ok ⟨some path, _, _⟩ =>
    let read ← Terminal.contents path
    finish fun _ => read
  | .ok ⟨none, showTree, verbose⟩ =>
    match Interpreter.start ⟨true, color, []⟩ Interpreter.typedPath true showTree with
    | .error _ => return 1
    | .ok i =>
      if verbose then
        for event in i.env.journal do
          if let some remark := event.log? then IO.eprintln remark
      IO.println Prompt.greeting
      Terminal.converse (.start i) verbose
      return 0
  | .error _ => finish fun _ => .error .notFound

import SmallLisp.Text.Digit
import SmallLisp.Text.Quoted

/-!
# The command line

Options may stand anywhere, be run together if they are short, and be cut short if they are long.
Two hyphens end the options.
-/
namespace SmallLisp

inductive Flag where
  | help
  | tree
  | verbose
deriving DecidableEq

structure CommandLine where
  /-- The file to run; lines are read if there is none. -/
  file : Option String
  showTree : Bool
  verbose : Bool
deriving DecidableEq

inductive UsageError where
  | ambiguous (argument : String) (names : List String)
  /-- An option that takes no value was given one. -/
  | unwantedValue (flag : Flag) (value : String)
  | unrecognized (arguments : List String)
deriving DecidableEq

/-- Why there is nothing to run. -/
inductive CommandLine.Stop where
  | help
  | error (e : UsageError)
deriving DecidableEq

namespace CommandLine

def names : List (List Char × Flag) :=
  [("-h".toList, .help), ("--help".toList, .help), ("--ast".toList, .tree),
    ("-v".toList, .verbose), ("--verbose".toList, .verbose)]

def usage : String := "usage: rlisp [-h] [--ast] [-v] [file]\n"

def helpText : String :=
  usage ++ "\nrlisp interpreter\n\npositional arguments:\n" ++
  "  file           file to interpret and run (if empty, goes to command-line\n" ++
  "                 mode)\n\noptions:\n" ++
  "  -h, --help     show this help message and exit\n" ++
  "  --ast          print the parsed AST before evaluating it\n" ++
  "  -v, --verbose  log interpreter internals to stderr\n"

end CommandLine

def Flag.text : Flag → String
  | help => "-h/--help"
  | tree => "--ast"
  | verbose => "-v/--verbose"

def UsageError.message : UsageError → String
  | ambiguous argument names =>
    "ambiguous option: " ++ argument ++ " could match " ++ ", ".intercalate names
  | unwantedValue flag value =>
    "argument " ++ flag.text ++ ": ignored explicit argument " ++ Quoted.quote value
  | unrecognized arguments => "unrecognized arguments: " ++ " ".intercalate arguments

namespace CommandLine

/-- An argument by its form. -/
inductive Item where
  | operand (argument : String)
  /-- The two hyphens that end the options. -/
  | separator
  /-- An option, found by the name `name`, and the value that is written with it. -/
  | option (name : List Char) (flag : Flag) (value : Option (List Char))
  | unknown (argument : String)
deriving DecidableEq

/-- An argument up to its first equals sign and from behind it, if it has one. -/
def splitValue (cs : List Char) : List Char × Option (List Char) :=
  (cs.takeWhile (· != '='), (cs.dropWhile (· != '=')).tail?)

/-- A hyphen and a number, decimal point allowed. A line feed may follow. -/
def isNegativeNumber (cs : List Char) : Bool :=
  let cs := if cs.getLast? = some '\n' then cs.dropLast else cs
  match cs with
  | '-' :: rest =>
    match rest.dropWhile Digit.isDigit with
    | [] => rest ≠ []
    | '.' :: decimals => decimals ≠ [] && decimals.all Digit.isDigit
    | _ => false
  | _ => false

/-- The options that an argument may be short for. A single hyphen and a letter may be followed by
anything. -/
def candidates (cs : List Char) : List Item :=
  match cs with
  | '-' :: '-' :: _ =>
    let (start, value) := splitValue cs
    (names.filter fun entry => start.isPrefixOf entry.1).map fun (name, flag) =>
      .option name flag value
  | _ =>
    (names.filter fun entry => entry.1 = cs.take 2).map fun (name, flag) =>
      .option name flag (some (cs.drop 2))

def Item.name : Item → String
  | option name _ _ => String.ofList name
  | _ => ""

/-- What an argument is that stands before any separator. -/
def classify (argument : String) : Except UsageError Item :=
  let cs := argument.toList
  let (name, value) := splitValue cs
  if cs.head? ≠ some '-' then .ok (.operand argument)
  else match names.lookup name with
    | some flag => .ok (.option name flag value)
    | none =>
      if cs.length = 1 then .ok (.operand argument)
      else match candidates cs with
        | [item] => .ok item
        | [] =>
          if isNegativeNumber cs ∨ ' ' ∈ cs then .ok (.operand argument)
          else .ok (.unknown argument)
        | items => .error (.ambiguous argument (items.map Item.name))

def classifyAll : List String → Except UsageError (List Item)
  | [] => .ok []
  | argument :: arguments =>
    if argument = "--" then .ok (.separator :: arguments.map .operand)
    else do
      let item ← classify argument
      let items ← classifyAll arguments
      return item :: items

/-- The flags that are run together behind a short one, of which every letter must be one. -/
def cluster (flag : Flag) : List Char → Except UsageError (List Flag)
  | [] => .ok [flag]
  | c :: cs =>
    match names.lookup ['-', c] with
    | none => .error (.unwantedValue flag (String.ofList (c :: cs)))
    | some next => (cluster next cs).map (flag :: ·)

/-- The flags of one option. The value of a short one is read as more of them; no other value is
wanted. -/
def flags (name : List Char) (flag : Flag) (value : Option (List Char)) :
    Except UsageError (List Flag) :=
  match value with
  | none => .ok [flag]
  | some [] => .error (.unwantedValue flag "")
  | some cs =>
    if name.length = 2 then cluster flag cs
    else .error (.unwantedValue flag (String.ofList cs))

/-- What has been read of a command line. -/
structure Progress where
  line : CommandLine
  /-- Whether the place of the file has been passed. -/
  settled : Bool
  extra : List String

def Progress.start : Progress := ⟨⟨none, false, false⟩, false, []⟩

def Progress.leave (p : Progress) (argument : String) : Progress :=
  { p with extra := p.extra ++ [argument] }

def Progress.settle (p : Progress) (file : Option String) : Progress :=
  { p with line := { p.line with file }, settled := true }

/-- Sets flags in order. Asking for help ends the reading. -/
def Progress.set (p : Progress) : List Flag → Except Stop Progress
  | [] => .ok p
  | .help :: _ => .error .help
  | .tree :: rest => { p with line := { p.line with showTree := true } }.set rest
  | .verbose :: rest => { p with line := { p.line with verbose := true } }.set rest

/-- Reads a command line on. The file is the first operand, with the separator that stands next to
it; an operand that is left over is not recognized. -/
def read (p : Progress) : List Item → Except Stop Progress
  | [] => .ok p
  | .unknown argument :: items => read (p.leave argument) items
  | .option name flag value :: items =>
    match flags name flag value with
    | .error e => .error (.error e)
    | .ok flags =>
      match p.set flags with
      | .error stop => .error stop
      | .ok p => read p items
  | .operand argument :: items =>
    if p.settled then read (p.leave argument) items
    else
      match items with
      | .separator :: items => read (p.settle (some argument)) items
      | items => read (p.settle (some argument)) items
  | .separator :: items =>
    if p.settled then read (p.leave "--") items
    else
      match items with
      | .operand argument :: items => read (p.settle (some argument)) items
      | items => read (p.settle none) items

def ofArguments (arguments : List String) : Except Stop CommandLine :=
  match classifyAll arguments with
  | .error e => .error (.error e)
  | .ok items =>
    match read .start items with
    | .error stop => .error stop
    | .ok p =>
      if p.extra = [] then .ok p.line else .error (.error (.unrecognized p.extra))

end CommandLine
end SmallLisp

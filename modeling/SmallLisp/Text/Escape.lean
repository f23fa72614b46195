/-!
# Escaped text

How the language writes a text: in double quotes, with five characters escaped by a backslash.
-/
namespace SmallLisp.Escape

/-- How one character is written between double quotes. -/
def char (c : Char) : List Char :=
  match c with
  | '\\' => ['\\', '\\']
  | '"' => ['\\', '"']
  | '\n' => ['\\', 'n']
  | '\r' => ['\\', 'r']
  | '\t' => ['\\', 't']
  | _ => [c]

/-- The text `s` in double quotes. -/
def quote (s : String) : String :=
  String.ofList ('"' :: s.toList.flatMap char ++ ['"'])

end SmallLisp.Escape

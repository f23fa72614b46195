import SmallLisp.Text.Printable

/-!
# Quoted text

How messages about tokens and arguments quote a text: in single quotes if possible, everything that
is not printable escaped by its code.
-/
namespace SmallLisp.Quoted

/-- The hexadecimal digits of `n`, at least `width` of them. -/
def hex (width n : Nat) : List Char :=
  let digits := Nat.toDigits 16 n
  List.replicate (width - digits.length) '0' ++ digits

/-- The mark around `s`: double quotes if `s` holds single quotes only. -/
def mark (s : List Char) : Char :=
  if '\'' ∈ s ∧ '"' ∉ s then '"' else '\''

/-- One character of a text that stands between two `mark`s. -/
def char (mark c : Char) : List Char :=
  if c = '\\' ∨ c = mark then ['\\', c]
  else if c = '\n' then ['\\', 'n']
  else if c = '\r' then ['\\', 'r']
  else if c = '\t' then ['\\', 't']
  else if Printable.isPrintable c then [c]
  else if c.toNat < 0x100 then ['\\', 'x'] ++ hex 2 c.toNat
  else if c.toNat < 0x10000 then ['\\', 'u'] ++ hex 4 c.toNat
  else ['\\', 'U'] ++ hex 8 c.toNat

def quote (s : String) : String :=
  let m := mark s.toList
  String.ofList (m :: s.toList.flatMap (char m) ++ [m])

end SmallLisp.Quoted

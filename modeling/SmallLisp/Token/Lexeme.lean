import SmallLisp.Token

/-!
# Lexemes

Reading one token off the front of a text. A lexeme is a parenthesis, a letter followed by letters,
digits and hyphens, a run of digits, or a text in double quotes, and the longest one is taken.
-/
namespace SmallLisp.Lexeme

/-- Blanks separate tokens and mean nothing else. -/
def isBlank (c : Char) : Bool := c == ' ' || c == '\t' || c == '\r' || c == '\n'

/-- The 52 letters of ASCII. -/
def isLetter (c : Char) : Bool := ('A' ≤ c && c ≤ 'Z') || ('a' ≤ c && c ≤ 'z')

/-- The ten digits of ASCII. -/
def isDigit (c : Char) : Bool := '0' ≤ c && c ≤ '9'

/-- What may follow the first letter of a symbol. -/
def isSymbolChar (c : Char) : Bool := isLetter c || isDigit c || c == '-'

/-- The largest integer that can be written. -/
def maxInteger : Nat := 2147483647

/-- The value of a run of digits, if it is at most `maxInteger`. Leading zeros are dropped first, so
that no more than ten digits are ever converted. -/
def integer? (digits : List Char) : Option Nat :=
  let significant := digits.dropWhile (· == '0')
  if significant.length ≤ 10 then
    let value := Nat.ofDigitChars 10 significant 0
    if value ≤ maxInteger then some value else none
  else none

/-- The character that a backslash and `c` stand for. -/
def unescape? (c : Char) : Option Char :=
  match c with
  | 'n' => some '\n'
  | 'r' => some '\r'
  | 't' => some '\t'
  | '"' => some '"'
  | _ => none

/-- How many characters a reading used up, and what it found. -/
structure Reading (α : Type) where
  used : Nat
  outcome : Except LexError.Cause α

/-- A reading that found `c` in `n` characters and goes on as `r`. -/
def Reading.cons (n : Nat) (c : Char) (r : Reading (List Char)) : Reading (List Char) :=
  ⟨n + r.used, r.outcome.map (c :: ·)⟩

/-- Reads the contents of a text and its closing quote. Of an unknown escape only the backslash is
used up. -/
def readText : List Char → Reading (List Char)
  | [] => ⟨0, .error .unterminatedText⟩
  | '"' :: _ => ⟨1, .ok []⟩
  | ['\\'] => ⟨1, .error .unterminatedText⟩
  | '\\' :: c :: cs =>
    match unescape? c with
    | some d => (readText cs).cons 2 d
    | none => ⟨1, .error .unknownEscape⟩
  | c :: cs => (readText cs).cons 1 c

/-- Reads the token that starts with the first character, which is not a blank. Nothing is used up
of a character that starts no token, and a run of digits is used up even if it is too large. -/
def read : List Char → Reading Token.Kind
  | [] => ⟨0, .ok .eof⟩
  | c :: cs =>
    if c = '(' then ⟨1, .ok .opening⟩
    else if c = ')' then ⟨1, .ok .closing⟩
    else if isLetter c then
      let name := c :: cs.takeWhile isSymbolChar
      ⟨name.length, .ok (.symbol (String.ofList name))⟩
    else if isDigit c then
      let digits := c :: cs.takeWhile isDigit
      ⟨digits.length, match integer? digits with
        | some value => .ok (.integer value)
        | none => .error .integerTooLarge⟩
    else if c = '"' then
      let body := readText cs
      ⟨1 + body.used, body.outcome.map fun contents => .text (String.ofList contents)⟩
    else ⟨0, .error (.unexpectedCharacter c)⟩

theorem used_pos_of_read {cs : List Char} {n : Nat} {k : Token.Kind}
    (h : read cs = ⟨n, .ok k⟩) (hk : k ≠ .eof) : 0 < n ∧ cs ≠ [] := by
  cases cs with
  | nil => simp_all [read]
  | cons c cs =>
    refine ⟨?_, by simp⟩
    rw [read] at h
    grind

end SmallLisp.Lexeme

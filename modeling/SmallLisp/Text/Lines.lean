/-!
# Lines of a text

A text of `n` line feeds has `n + 1` lines, the last of which may be empty.
-/
namespace SmallLisp.Lines

/-- The lines of a text, without their line feeds. -/
def split : List Char → List (List Char)
  | [] => [[]]
  | c :: cs =>
    if c = '\n' then [] :: split cs
    else match split cs with
      | [] => [[c]]
      | line :: lines => (c :: line) :: lines

theorem split_ne_nil (cs : List Char) : split cs ≠ [] := by
  cases cs with
  | nil => simp [split]
  | cons c cs =>
    rw [split]
    split
    · simp
    · split <;> simp

theorem length_split (cs : List Char) : (split cs).length = cs.count '\n' + 1 := by
  induction cs with
  | nil => rfl
  | cons c cs ih =>
    rw [split, List.count_cons]
    split
    · simp_all
    · have := split_ne_nil cs
      split <;> simp_all

/-- Lines as one text, each with its line feed. -/
def unlines (lines : List String) : String := String.join (lines.map (· ++ "\n"))

/-- Ends every line by a line feed that was ended by a carriage return, with or without one. -/
def unify : List Char → List Char
  | [] => []
  | '\r' :: '\n' :: cs => '\n' :: unify cs
  | '\r' :: cs => '\n' :: unify cs
  | c :: cs => c :: unify cs

/-- A line without the carriage returns at its end. -/
def trimEnd (line : List Char) : List Char := (line.reverse.dropWhile (· == '\r')).reverse

/-- The line in row `row`, counted from 1. -/
def row? (text : String) (row : Int) : Option String :=
  if 1 ≤ row then
    (split text.toList)[(row - 1).toNat]?.map fun line => String.ofList (trimEnd line)
  else none

end SmallLisp.Lines

/-!
# Locations in a text

Where a character stands: its offset, its row and its column.
-/
namespace SmallLisp

/-- The place of a character: `offset` counts the characters before it, `row` the rows from 1, and
`col` the characters of its row up to and including it. -/
structure Location where
  offset : Int
  row : Int
  col : Int
deriving DecidableEq, Inhabited

namespace Location

/-- Before the first character. -/
def start : Location := ⟨-1, 1, 0⟩

/-- The place of a character that follows the one at `p`. A line feed opens a row and stands in its
column 0. -/
def next (p : Location) (c : Char) : Location :=
  if c = '\n' then ⟨p.offset + 1, p.row + 1, 0⟩ else ⟨p.offset + 1, p.row, p.col + 1⟩

/-- The place of the last of the characters `cs`, which follow the one at `p`. -/
def after (p : Location) (cs : List Char) : Location := cs.foldl next p

@[simp] theorem after_nil (p : Location) : p.after [] = p := rfl

@[simp] theorem after_cons (p : Location) (c : Char) (cs : List Char) :
    p.after (c :: cs) = (p.next c).after cs := rfl

theorem after_append (p : Location) (cs ds : List Char) :
    p.after (cs ++ ds) = (p.after cs).after ds := by
  simp [after]

/-- Row and column as diagnostics and outlines show them. -/
def text (p : Location) : String := toString p.row ++ ":" ++ toString p.col

end Location
end SmallLisp

/-!
# Balance

Whether a text that is typed line by line is complete: how many parentheses it leaves open, and
whether it ends inside a quoted text. Parentheses inside quoted texts do not count.
-/
namespace SmallLisp

/-- Where a character stands. -/
inductive Balance.Place where
  | outside
  /-- In a quoted text. -/
  | inside
  /-- In a quoted text, after a backslash. -/
  | escaped
deriving DecidableEq

/-- What has been counted. More parentheses may have been closed than opened. -/
structure Balance where
  depth : Int
  place : Balance.Place
deriving DecidableEq

namespace Balance

def start : Balance := ⟨0, .outside⟩

def step (b : Balance) (c : Char) : Balance :=
  match b.place with
  | .escaped => { b with place := .inside }
  | .inside =>
    if c = '\\' then { b with place := .escaped }
    else if c = '"' then { b with place := .outside }
    else b
  | .outside =>
    if c = '"' then { b with place := .inside }
    else if c = '(' then { b with depth := b.depth + 1 }
    else if c = ')' then { b with depth := b.depth - 1 }
    else b

/-- The balance after more characters. -/
def run (b : Balance) (cs : List Char) : Balance := cs.foldl step b

theorem run_append (b : Balance) (cs ds : List Char) : b.run (cs ++ ds) = (b.run cs).run ds := by
  simp [run]

def of (text : String) : Balance := start.run text.toList

def inText (b : Balance) : Bool := b.place != .outside

/-- Whether a text of this balance goes on in another line. -/
def isOpen (b : Balance) : Bool := 0 < b.depth || b.inText

end Balance
end SmallLisp

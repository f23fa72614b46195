import SmallLisp.Expr
import SmallLisp.Text.Escape

/-!
# Syntax trees

An expression or a program seen as a tree of labelled nodes, its nodes in preorder, and its outline.
-/
namespace SmallLisp

/-- What a node is, with the content of a leaf. -/
inductive Tree.Label where
  | program
  | define
  | call
  | symbol (name : String)
  | integer (value : Nat)
  | text (contents : String)
deriving DecidableEq

inductive Tree where
  | node (label : Tree.Label) (location : Location) (children : List Tree)

/-- The kind of a node as outlines show it. -/
def Tree.Label.kind : Tree.Label → String
  | program => "Program"
  | define => "DefineExpr"
  | call => "CallExpr"
  | symbol _ => "IdentifierExpr"
  | integer _ => "IntegerLiteral"
  | text _ => "StringLiteral"

/-- The content of a leaf as outlines show it. -/
def Tree.Label.detail : Tree.Label → String
  | program | define | call => ""
  | symbol name => ", name='" ++ name ++ "'"
  | integer value => ", value=" ++ toString value
  | text contents => ", value=" ++ Escape.quote contents

def Symbol.tree (s : Symbol) : Tree := .node (.symbol s.name) s.location []

mutual

/-- A definition has its target and its value as children, a call its callee and its arguments. -/
def Expr.tree : Expr → Tree
  | .symbol s => s.tree
  | .integer value location => .node (.integer value) location []
  | .text contents location => .node (.text contents) location []
  | .define target value location => .node .define location [target.tree, value.tree]
  | .call callee arguments location => .node .call location (callee.tree :: Expr.trees arguments)

def Expr.trees : List Expr → List Tree
  | [] => []
  | e :: es => e.tree :: Expr.trees es

end

def Program.tree (p : Program) : Tree := .node .program p.location (Expr.trees p.exprs)

namespace Tree

def location : Tree → Location
  | node _ location _ => location

def children : Tree → List Tree
  | node _ _ children => children

/-- The node reached from the root by child numbers. -/
def descend? (t : Tree) : List Nat → Option Tree
  | [] => some t
  | i :: is => t.children[i]?.bind (·.descend? is)

mutual

/-- The nodes in preorder, each with its depth below a root at depth `depth`. -/
def preorder (depth : Nat) : Tree → List (Nat × Label × Location)
  | node label location children => (depth, label, location) :: preorders (depth + 1) children

def preorders (depth : Nat) : List Tree → List (Nat × Label × Location)
  | [] => []
  | t :: ts => t.preorder depth ++ preorders depth ts

end

/-- The four spaces per level that a line starts with; none at a negative level. -/
def indentation (level : Int) : String := String.ofList (List.replicate (4 * level).toNat ' ')

/-- A node's line, as far as it does not depend on the node's children. -/
def heading (level : Int) (label : Label) (location : Location) : String :=
  indentation level ++ label.kind ++ "(location=" ++ location.text ++ label.detail

mutual

/-- The lines of an outline whose root stands at `level` and is followed by `trailer`. -/
def lines (level : Int) (trailer : String) : Tree → List String
  | node label location [] => [heading level label location ++ ")" ++ trailer]
  | node label location (t :: ts) =>
    (heading level label location ++ ", nodes=[") ::
      (forestLines (level + 1) (t :: ts) ++ [indentation level ++ "])" ++ trailer])

/-- The lines of the children of one node, with a comma after each but the last. -/
def forestLines (level : Int) : List Tree → List String
  | [] => []
  | [t] => t.lines level ""
  | t :: u :: us => t.lines level "," ++ forestLines level (u :: us)

end

/-- One line per node, and one that closes each node with children. -/
def outline (t : Tree) (level : Int) : String := "\n".intercalate (t.lines level "")

end Tree
end SmallLisp

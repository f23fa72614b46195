import SmallLisp.Text.Location

/-!
# Expressions

The syntax of the language. Leaves know the place of their token, forms that of their opening
parenthesis.
-/
namespace SmallLisp

/-- A name as it is written at one place. -/
structure Symbol where
  name : String
  location : Location
deriving DecidableEq

inductive Expr where
  | symbol (symbol : Symbol)
  | integer (value : Nat) (location : Location)
  | text (contents : String) (location : Location)
  | define (target : Symbol) (value : Expr) (location : Location)
  | call (callee : Expr) (arguments : List Expr) (location : Location)

namespace Expr

def location : Expr → Location
  | symbol s => s.location
  | integer _ location | text _ location | define _ _ location | call _ _ location => location

mutual

private def decEq : (a b : Expr) → Decidable (a = b)
  | symbol s, b =>
    match b with
    | symbol t => decidable_of_iff (s = t) (by simp)
    | integer .. | text .. | define .. | call .. => isFalse (by simp)
  | integer m p, b =>
    match b with
    | integer n q => decidable_of_iff (m = n ∧ p = q) (by simp)
    | symbol .. | text .. | define .. | call .. => isFalse (by simp)
  | text s p, b =>
    match b with
    | text t q => decidable_of_iff (s = t ∧ p = q) (by simp)
    | symbol .. | integer .. | define .. | call .. => isFalse (by simp)
  | define s v p, b =>
    match b with
    | define t w q =>
      have := decEq v w
      decidable_of_iff (s = t ∧ v = w ∧ p = q) (by simp)
    | symbol .. | integer .. | text .. | call .. => isFalse (by simp)
  | call f as p, b =>
    match b with
    | call g bs q =>
      have := decEq f g
      have := decEqList as bs
      decidable_of_iff (f = g ∧ as = bs ∧ p = q) (by simp)
    | symbol .. | integer .. | text .. | define .. => isFalse (by simp)

private def decEqList : (as bs : List Expr) → Decidable (as = bs)
  | [], [] => isTrue rfl
  | [], _ :: _ | _ :: _, [] => isFalse (by simp)
  | a :: as, b :: bs =>
    have := decEq a b
    have := decEqList as bs
    decidable_of_iff (a = b ∧ as = bs) (by simp)

end

instance : DecidableEq Expr := decEq

end Expr

/-- A whole text: its top-level expressions, and the place of the first, or of the end of the text
if there is none. -/
structure Program where
  location : Location
  exprs : List Expr
deriving DecidableEq

end SmallLisp

import SmallLisp.Keyed
import SmallLisp.Value

/-!
# Scopes

Names and their values in the order of binding. A name is bound once.
-/
namespace SmallLisp

structure Scope (η : Type) where
  bindings : List (String × Value η)

namespace Scope

variable {η : Type}

def empty : Scope η := ⟨[]⟩

def get? (s : Scope η) (name : String) : Option (Value η) := s.bindings.lookup name

def contains (s : Scope η) (name : String) : Bool := (s.get? name).isSome

/-- The names in the order of binding. -/
def names (s : Scope η) : List String := s.bindings.map Prod.fst

/-- The scope as its list of names. -/
def text (s : Scope η) : String := "Namespace(" ++ ", ".intercalate s.names ++ ")"

def size (s : Scope η) : Nat := s.bindings.length

/-- Binds a name that is not bound yet. -/
def bind? (s : Scope η) (name : String) (value : Value η) : Option (Scope η) :=
  if s.contains name then none else some ⟨s.bindings ++ [(name, value)]⟩

/-- The scope of given bindings, of which the last one of a name counts. -/
def ofList (bindings : List (String × Value η)) : Scope η :=
  ⟨bindings.foldl (fun bindings (name, value) => Keyed.put name value bindings) []⟩

end Scope
end SmallLisp

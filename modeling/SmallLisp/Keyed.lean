/-!
# Named entries

Lists of entries in the order in which their names first came.
-/
namespace SmallLisp.Keyed

variable {α : Type}

/-- Replaces the entry of `name`, or adds it at the end. -/
def put (name : String) (entry : α) : List (String × α) → List (String × α)
  | [] => [(name, entry)]
  | (n, a) :: rest => if n = name then (n, entry) :: rest else (n, a) :: put name entry rest

/-- A new name comes last, and a known one keeps its place. -/
theorem names_put (name : String) (entry : α) (entries : List (String × α)) :
    (put name entry entries).map Prod.fst =
      if name ∈ entries.map Prod.fst then entries.map Prod.fst
      else entries.map Prod.fst ++ [name] := by
  induction entries with
  | nil => rfl
  | cons e rest ih =>
    by_cases h : e.1 = name
    · simp [put, h]
    · simp only [put, h, if_false, List.map_cons, ih, List.mem_cons, Ne.symm h, false_or]
      split <;> simp

end SmallLisp.Keyed

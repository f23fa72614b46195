import Mathlib.Data.List.Nodup
import SmallLisp.Proofs.Evaluation

/-!
# Scopes

The scopes on the stack have all been made, whatever a program does to them. Where names are bound
and no scope is entered or left, the innermost scope grows by new names and nothing else changes.
-/
namespace SmallLisp

variable {η : Type}

theorem Env.bind_ok {e e' : Env η} {name : String} {value : Value η} {location : Option Location}
    (h : e.bind name value location = .ok e') :
    ∃ s, (e.scope e.innermost).bind? name value = some s ∧
      e' = Env.record { e with scopes := e.scopes.set e.innermost s }
        (.bound name value e.stack.length) := by
  rw [Env.bind] at h
  split at h
  · cases h
  · rename_i s hs
    exact ⟨s, hs, (Except.ok.inj h).symm⟩

/-! ## Scopes that exist -/

namespace Env

/-- Whether the scopes on the stack have been made. -/
def Sound (e : Env η) : Prop := ∀ number ∈ e.stack, number < e.scopes.length

theorem sound_initial : (initial : Env η).Sound := by
  intro number hnumber
  obtain rfl := List.mem_singleton.mp hnumber
  exact Nat.zero_lt_one

theorem Sound.innermost {e : Env η} (h : e.Sound) : e.innermost < e.scopes.length := by
  obtain ⟨scopes, entered, history⟩ := e
  cases entered with
  | nil => exact h global (List.mem_singleton.mpr rfl)
  | cons number outer => exact h number List.mem_cons_self

theorem Sound.bind {e e' : Env η} (h : e.Sound) {name : String} {value : Value η}
    {location : Option Location} (hbind : e.bind name value location = .ok e') : e'.Sound := by
  obtain ⟨s, -, rfl⟩ := bind_ok hbind
  intro number hnumber
  have hlt := h number hnumber
  simpa only [record, List.length_set] using hlt

theorem Sound.enter {e : Env η} (h : e.Sound) (bindings : List (String × Value η)) :
    (e.enter bindings).Sound := by
  intro number hnumber
  rw [Env.enter, List.length_append, List.length_singleton]
  rcases List.mem_cons.mp hnumber with rfl | hnumber
  · exact Nat.lt_succ_self _
  · exact Nat.lt_succ_of_lt (h number hnumber)

theorem Sound.reenter {e : Env η} (h : e.Sound) (number : Nat) : (e.reenter number).Sound := by
  rw [Env.reenter]
  split_ifs with hlt
  · exact List.forall_mem_cons.mpr ⟨hlt, h⟩
  · exact h

end Env

namespace Action

theorem sound_perform (move : Move η) {e : Env η} (h : e.Sound) :
    ((perform move).run.run e).2.Sound := by
  cases move with
  | enter bindings => exact h.enter bindings
  | reenter number => exact h.reenter number
  | leave =>
    rw [perform, run_get]
    obtain ⟨scopes, entered, history⟩ := e
    cases entered with
    | nil => exact h
    | cons number outer =>
      intro other hother
      exact h other (List.mem_cons_of_mem number hother)

end Action

/-! ## What is bound -/

theorem Scope.bind?_some {s s' : Scope η} {name : String} {value : Value η}
    (h : s.bind? name value = some s') :
    name ∉ s.names ∧ s'.bindings = s.bindings ++ [(name, value)] := by
  rw [bind?] at h
  split_ifs at h with hcontains
  cases h
  refine ⟨?_, rfl⟩
  intro hname
  obtain ⟨⟨_, v⟩, hb, rfl⟩ := List.mem_map.mp hname
  simp only [contains, get?, Option.isSome_iff_ne_none, ne_eq, not_not, List.lookup_eq_none_iff]
    at hcontains
  have hne := hcontains _ hb
  simp at hne

/-- Whether all that happened to the scopes of `e` is that the innermost one has got `names`, which
are new to it, behind its own. -/
structure Env.Gained (e e' : Env η) (names : List String) : Prop where
  entered : e'.entered = e.entered
  count : e'.scopes.length = e.scopes.length
  outer : ∀ number, number ≠ e.innermost → e'.scope number = e.scope number
  bindings : ∃ more, (e'.scope e.innermost).bindings = (e.scope e.innermost).bindings ++ more ∧
    more.map Prod.fst = names
  distinct : names.Nodup
  new : ∀ name ∈ names, name ∉ (e.scope e.innermost).names

namespace Env

theorem gained_refl (e : Env η) : e.Gained e [] :=
  ⟨rfl, rfl, fun _ _ => rfl, ⟨[], (List.append_nil _).symm, rfl⟩, List.nodup_nil,
    List.forall_mem_nil _⟩

theorem Gained.same {e e' e'' : Env η} {names : List String} (h : e.Gained e' names)
    (hscopes : e''.scopes = e'.scopes) (hentered : e''.entered = e'.entered) :
    e.Gained e'' names := by
  have hscope : ∀ number, e''.scope number = e'.scope number := by
    intro number
    rw [scope, scope, hscopes]
  refine ⟨hentered.trans h.entered, by rw [hscopes, h.count], ?_, ?_, h.distinct, h.new⟩
  · intro number hnumber
    rw [hscope, h.outer number hnumber]
  · rw [hscope]
    exact h.bindings

theorem Gained.bind {e e' e'' : Env η} {names : List String} {name : String} {value : Value η}
    {location : Option Location} (h : e.Gained e' names) (he : e.innermost < e.scopes.length)
    (hbind : e'.bind name value location = .ok e'') : e.Gained e'' (names ++ [name]) := by
  obtain ⟨s, hs, rfl⟩ := bind_ok hbind
  have hinnermost : e'.innermost = e.innermost := by rw [innermost, h.entered, innermost]
  obtain ⟨hname, hbindings⟩ := Scope.bind?_some hs
  rw [hinnermost] at hname hbindings
  obtain ⟨more, hmore, hnames⟩ := h.bindings
  have hold : (e'.scope e.innermost).names = (e.scope e.innermost).names ++ names := by
    rw [Scope.names, hmore, List.map_append, hnames, Scope.names]
  rw [hold, List.mem_append, not_or] at hname
  obtain ⟨hfresh, hunused⟩ := hname
  rw [hinnermost]
  refine ⟨h.entered, ?_, ?_, ⟨more ++ [(name, value)], ?_, by rw [List.map_append, hnames]; rfl⟩,
    ?_, ?_⟩
  · exact List.length_set.trans h.count
  · intro number hnumber
    rw [← h.outer number hnumber]
    simp only [scope, record, List.getD_eq_getElem?_getD, List.getElem?_set_ne hnumber.symm]
  · have hset : (e'.scopes.set e.innermost s)[e.innermost]? = some s :=
      List.getElem?_set_self (h.count.symm ▸ he)
    simp only [scope, record, List.getD_eq_getElem?_getD] at hbindings hmore ⊢
    rw [hset, Option.getD_some, hbindings, hmore, List.append_assoc]
  · refine List.nodup_append.mpr ⟨h.distinct, List.nodup_singleton name, ?_⟩
    intro other hother last hlast heq
    rw [heq, List.mem_singleton.mp hlast] at hother
    exact hunused hother
  · intro other hother
    rcases List.mem_append.mp hother with hother | hother
    · exact h.new other hother
    · rwa [List.mem_singleton.mp hother]

end Env
end SmallLisp

import SmallLisp.Proofs.WriteOnce

/-!
# Shadowing

Names are bound in the innermost scope, so a scope that is entered shields all below it. However a
host binds, enters and leaves above, as long as it leaves no more than it has entered, the scopes
below keep their bindings, and when it has left what it entered, names mean what they meant before.

The way back is no inverse of the way in. The scopes in between remain, with what was bound in them,
and may come back on the stack later; that they are not yet on it when they do is what keeps
bindings from getting below.
-/
namespace SmallLisp

variable {η : Type}

namespace Env

/-! ## What names mean -/

/-- Whether the scope closest to the top of the stack that binds `name` gives it `value`. -/
def Sees (e : Env η) (name : String) (value : Value η) : Prop :=
  ∃ above number below, e.stack = above ++ number :: below ∧
    (∀ other ∈ above, name ∉ (e.scope other).names) ∧ (e.scope number).get? name = some value

theorem resolve_ok_iff {e : Env η} {name : String} {location : Option Location} {value : Value η} :
    e.resolve name location = .ok value ↔ e.Sees name value := by
  simp only [Sees, ← Scope.get?_eq_none_iff]
  rcases hfound : e.stack.findSome? fun number => (e.scope number).get? name with _ | found
  · have herr : e.resolve name location = .error ⟨.unbound name, location⟩ := by
      rw [resolve, hfound]
    rw [herr]
    constructor
    · intro hbound
      cases hbound
    · rintro ⟨above, number, below, hstack, -, hvalue⟩
      have hnone := List.findSome?_eq_none_iff.mp hfound number (by simp [hstack])
      exact absurd (hvalue.symm.trans hnone) (Option.some_ne_none value)
  · have hok : e.resolve name location = .ok found := by rw [resolve, hfound]
    rw [hok, Except.ok.injEq, ← Option.some_inj, ← hfound, List.findSome?_eq_some_iff]
    simp only [and_comm]

theorem resolve_error_iff {e : Env η} {name : String} {location : Option Location}
    {err : EvalError} : e.resolve name location = .error err ↔
      err = ⟨.unbound name, location⟩ ∧ ∀ number ∈ e.stack, name ∉ (e.scope number).names := by
  simp only [← Scope.get?_eq_none_iff, ← List.findSome?_eq_none_iff]
  rcases hfound : e.stack.findSome? fun number => (e.scope number).get? name with _ | found
  · have herr : e.resolve name location = .error ⟨.unbound name, location⟩ := by
      rw [resolve, hfound]
    rw [herr, Except.error.injEq, eq_comm, and_iff_left rfl]
  · have hok : e.resolve name location = .ok found := by rw [resolve, hfound]
    simp [hok]

/-! ## Scopes on top of others -/

/-- Whether `e'` is `e` with the scopes `above` on top, none of which stands below as well. -/
structure Covers (e e' : Env η) (above : List Nat) : Prop where
  entered : e'.entered = above ++ e.entered
  apart : ∀ number ∈ above, number ∉ e.stack
  kept : ∀ number ∈ e.stack, e'.scope number = e.scope number
  sound : e'.Sound

theorem Sound.covers {e : Env η} (h : e.Sound) : e.Covers e [] :=
  ⟨rfl, List.forall_mem_nil _, fun _ _ => rfl, h⟩

namespace Covers

variable {e e' e'' : Env η} {above : List Nat}

theorem stack (h : e.Covers e' above) : e'.stack = above ++ e.stack := by
  rw [Env.stack, h.entered, List.append_assoc, Env.stack]

theorem length_entered (h : e.Covers e' above) :
    e'.entered.length = above.length + e.entered.length := by
  rw [h.entered, List.length_append]

/-- What none of the scopes on top binds means what it meant without them. -/
theorem resolve (h : e.Covers e' above) {name : String}
    (hname : ∀ number ∈ above, name ∉ (e'.scope number).names) (location : Option Location) :
    e'.resolve name location = e.resolve name location := by
  have hskipped : (above.findSome? fun number => (e'.scope number).get? name) = none := by
    apply List.findSome?_eq_none_iff.mpr
    intro number hnumber
    exact Scope.get?_eq_none_iff.mpr (hname number hnumber)
  have hbelow : (e.stack.findSome? fun number => (e'.scope number).get? name) =
      e.stack.findSome? fun number => (e.scope number).get? name := by
    rw [← List.head?_filterMap, ← List.head?_filterMap]
    refine congrArg List.head? (List.filterMap_congr ?_)
    intro number hnumber
    rw [h.kept number hnumber]
  rw [Env.resolve, h.stack, List.findSome?_append, hskipped, Option.none_or, hbelow, Env.resolve]

theorem bind (h : e.Covers e' above) (hinside : above ≠ []) {name : String} {value : Value η}
    {location : Option Location} (hbind : e'.bind name value location = .ok e'') :
    e.Covers e'' above := by
  obtain ⟨number, outer, rfl⟩ := List.exists_cons_of_ne_nil hinside
  have hinnermost : e'.innermost = number := by
    rw [innermost, h.entered]
    rfl
  have hentered : e''.entered = e'.entered := by
    obtain ⟨s, -, rfl⟩ := bind_ok hbind
    rfl
  refine ⟨hentered.trans h.entered, h.apart, ?_, h.sound.bind hbind⟩
  intro base hbase
  have hne : base ≠ e'.innermost := by
    rintro rfl
    exact h.apart number List.mem_cons_self (hinnermost ▸ hbase)
  have hbindings := (scope_bind h.sound.innermost hbind).2 base
  rw [if_neg hne, List.append_nil] at hbindings
  exact (congrArg Scope.mk hbindings).trans (h.kept base hbase)

/-- A scope that is made is on no stack yet. -/
theorem enter (h : e.Covers e' above) (bindings : List (String × Value η)) :
    e.Covers (e'.enter bindings) (e'.scopes.length :: above) := by
  have hmade : ∀ number ∈ e.stack, number < e'.scopes.length := by
    intro number hnumber
    exact h.sound number (h.stack ▸ List.mem_append_right above hnumber)
  refine ⟨congrArg (e'.scopes.length :: ·) h.entered, ?_, ?_, h.sound.enter bindings⟩
  · refine List.forall_mem_cons.mpr ⟨?_, h.apart⟩
    intro hnew
    exact Nat.lt_irrefl _ (hmade _ hnew)
  · intro base hbase
    rw [scope_enter, if_neg (Nat.ne_of_lt (hmade base hbase))]
    exact h.kept base hbase

theorem reenter (h : e.Covers e' above) {number : Nat} (hmade : number < e'.scopes.length)
    (haway : number ∉ e'.stack) : e.Covers (e'.reenter number) (number :: above) := by
  refine ⟨?_, ?_, ?_, h.sound.reenter number⟩
  · rw [Env.reenter, if_pos hmade]
    exact congrArg (number :: ·) h.entered
  · refine List.forall_mem_cons.mpr ⟨?_, h.apart⟩
    intro hbase
    exact haway (h.stack ▸ List.mem_append_right above hbase)
  · intro base hbase
    rw [scope, scopes_reenter]
    exact h.kept base hbase

theorem leave {number : Nat} (h : e.Covers e' (number :: above)) :
    ∃ e'', e'.leave = .ok (number, e'') ∧ e.Covers e'' above := by
  have hleave : e'.leave = .ok (number, { e' with entered := above ++ e.entered }) := by
    rw [Env.leave, h.entered]
    rfl
  refine ⟨_, hleave, rfl, (List.forall_mem_cons.mp h.apart).2, h.kept, h.sound.leave hleave⟩

end Covers

/-! ## One operation -/

/-- What an operation of a host does to an environment if it enters no scope that is entered. -/
inductive Turn : Env η → Env η → Prop
  | refused (e) : Turn e e
  | bind {e e' name value location} (bound : e.bind name value location = .ok e') : Turn e e'
  | enter (e) (bindings : List (String × Value η)) : Turn e (e.enter bindings)
  | reenter {e number} (made : number < e.scopes.length) (away : number ∉ e.stack) :
    Turn e (e.reenter number)
  | leave {e e' number} (left : e.leave = .ok (number, e')) : Turn e e'

/-- The scope `bottom` and all below it stay where they are for as long as the stack is higher than
it was without `bottom`. -/
theorem Covers.turn {e e' e'' : Env η} {inner : List Nat} {bottom : Nat}
    (h : e.Covers e' (inner ++ [bottom])) (hturn : Turn e' e'')
    (hinside : e.entered.length < e''.entered.length) :
    ∃ inner', e.Covers e'' (inner' ++ [bottom]) := by
  cases hturn with
  | refused => exact ⟨inner, h⟩
  | bind bound => exact ⟨inner, h.bind (by simp) bound⟩
  | enter bindings => exact ⟨e'.scopes.length :: inner, h.enter bindings⟩
  | reenter made away => exact ⟨_ :: inner, h.reenter made away⟩
  | leave left =>
    cases inner with
    | nil =>
      -- This would leave `bottom`, and the stack would be no higher than without it.
      obtain ⟨_, hleave, hbelow⟩ := h.leave
      obtain ⟨rfl, rfl⟩ := Prod.mk.inj (Except.ok.inj (left.symm.trans hleave))
      rw [hbelow.length_entered, List.length_nil, Nat.zero_add] at hinside
      exact absurd hinside (Nat.lt_irrefl _)
    | cons number inner =>
      rw [List.cons_append] at h
      obtain ⟨_, hleave, hbelow⟩ := h.leave
      obtain ⟨rfl, rfl⟩ := Prod.mk.inj (Except.ok.inj (left.symm.trans hleave))
      exact ⟨inner, hbelow⟩

end Env

/-! ## Runs of operations -/

/-- Whether a move enters a scope, and one which is not entered. -/
def Move.Enters (e : Env η) : Move η → Prop
  | enter _ => True
  | reenter number => number < e.scopes.length ∧ number ∉ e.stack
  | leave => False

instance (e : Env η) : (m : Move η) → Decidable (m.Enters e)
  | .enter _ => isTrue trivial
  | .reenter number => inferInstanceAs (Decidable (number < e.scopes.length ∧ number ∉ e.stack))
  | .leave => isFalse id

namespace Operation

/-- Whether an operation is one on the scopes alone that enters no scope which is entered. -/
def Orderly (e : Env η) : Operation η → Prop
  | move .leave => True
  | move m => m.Enters e
  | evaluate _ => False
  | bind .. | defineNative .. | resolve .. => True

instance (e : Env η) : (op : Operation η) → Decidable (op.Orderly e)
  | move .leave => isTrue trivial
  | move (.enter bindings) => inferInstanceAs (Decidable (Move.Enters e (.enter bindings)))
  | move (.reenter number) => inferInstanceAs (Decidable (Move.Enters e (.reenter number)))
  | evaluate _ => isFalse id
  | bind .. | defineNative .. | resolve .. => isTrue trivial

variable [Host η]

theorem turn_run {op : Operation η} {e : Env η} (h : op.Orderly e) : e.Turn (op.run e) := by
  have hbind (name : String) (value : Value η) (location : Option Location) :
      e.Turn ((Action.bind name value location).run.run e).2 := by
    rw [Action.run_define]
    rcases hbound : e.bind name value location with err | e'
    · exact .refused e
    · exact .bind hbound
  cases op with
  | bind name value location => exact hbind name value location
  | defineNative name function => exact hbind name _ none
  | resolve name location =>
    have hrun : (resolve name location).run e = e := by
      rw [run, act, Action.run_bind, Action.run_resolve]
      rcases e.resolve name location with err | value
      · rfl
      · rfl
    rw [hrun]
    exact .refused e
  | move m =>
    cases m with
    | enter bindings => exact .enter e bindings
    | reenter number => exact .reenter h.1 h.2
    | leave =>
      rw [run, act, Action.perform, Action.run_get]
      rcases hleave : e.leave with err | ⟨number, e'⟩
      · exact .refused e
      · exact .leave hleave
  | evaluate p => exact h.elim

theorem runAll_append (ops more : List (Operation η)) (e : Env η) :
    runAll (ops ++ more) e = runAll more (runAll ops e) := List.foldl_append

/-- Whether more than `depth` scopes beside the global one are entered at every moment of a run of
orderly operations. -/
def Stays (depth : Nat) : Env η → List (Operation η) → Prop
  | e, [] => depth < e.entered.length
  | e, op :: ops => depth < e.entered.length ∧ op.Orderly e ∧ Stays depth (op.run e) ops

instance (depth : Nat) : (e : Env η) → (ops : List (Operation η)) → Decidable (Stays depth e ops)
  | e, [] => inferInstanceAs (Decidable (depth < e.entered.length))
  | e, op :: ops =>
    have := instDecidableStays depth (op.run e) ops
    inferInstanceAs
      (Decidable (depth < e.entered.length ∧ op.Orderly e ∧ Stays depth (op.run e) ops))

theorem Stays.inside {depth : Nat} {e : Env η} {ops : List (Operation η)} (h : Stays depth e ops) :
    depth < e.entered.length := by
  cases ops with
  | nil => exact h
  | cons op ops => exact h.1

theorem Stays.of_prefix {depth : Nat} {e : Env η} {before ops : List (Operation η)}
    (h : Stays depth e ops) (hbefore : before <+: ops) : Stays depth e before := by
  induction before generalizing e ops with
  | nil => exact h.inside
  | cons op before ih =>
    obtain ⟨after, rfl⟩ := hbefore
    obtain ⟨hinside, horderly, hrest⟩ := h
    exact ⟨hinside, horderly, ih hrest (List.prefix_append before after)⟩

/-- What one operation keeps, a run keeps. -/
theorem Stays.covers {e e' : Env η} {ops : List (Operation η)} {inner : List Nat} {bottom : Nat}
    (h : Stays e.entered.length e' ops) (hcovers : e.Covers e' (inner ++ [bottom])) :
    ∃ inner', e.Covers (runAll ops e') (inner' ++ [bottom]) := by
  induction ops generalizing e' inner with
  | nil => exact ⟨inner, hcovers⟩
  | cons op ops ih =>
    obtain ⟨-, horderly, hrest⟩ := h
    obtain ⟨inner', hnext⟩ := hcovers.turn (turn_run horderly) hrest.inside
    exact ih hrest hnext

/-- Whether `push` enters a scope which is not entered, all of `between` is orderly and stays above
the scopes below that one, and leaving is next to come back from it. -/
structure Nests (e : Env η) (push : Move η) (between : List (Operation η)) : Prop where
  enters : push.Enters e
  inside : Stays e.entered.length ((move push).run e) between
  level : (runAll (.move push :: between) e).entered.length = e.entered.length + 1

instance (e : Env η) (push : Move η) (between : List (Operation η)) :
    Decidable (Nests e push between) :=
  decidable_of_iff (push.Enters e ∧ Stays e.entered.length ((move push).run e) between ∧
      (runAll (.move push :: between) e).entered.length = e.entered.length + 1)
    ⟨fun ⟨henters, hinside, hlevel⟩ => ⟨henters, hinside, hlevel⟩,
      fun h => ⟨h.enters, h.inside, h.level⟩⟩

theorem covers_push {e : Env η} {push : Move η} (h : push.Enters e) (he : e.Sound) :
    ∃ bottom, e.Covers ((move push).run e) [bottom] := by
  cases push with
  | enter bindings => exact ⟨_, he.covers.enter bindings⟩
  | reenter number => exact ⟨number, he.covers.reenter h.1 h.2⟩
  | leave => exact h.elim

/-- The scope that is entered first stays in place at every moment. -/
theorem Nests.covers {e : Env η} {push : Move η} {between : List (Operation η)}
    (h : Nests e push between) (he : e.Sound) :
    ∃ bottom, ((move push).run e).entered = bottom :: e.entered ∧ ∀ before, before <+: between →
      ∃ inner, e.Covers (runAll (.move push :: before) e) (inner ++ [bottom]) := by
  obtain ⟨bottom, hpush⟩ := covers_push h.enters he
  refine ⟨bottom, hpush.entered, ?_⟩
  intro before hbefore
  have hstart : e.Covers ((move push).run e) ([] ++ [bottom]) := hpush
  exact (h.inside.of_prefix hbefore).covers hstart

theorem run_leave {e e' : Env η} {number : Nat} (h : e.leave = .ok (number, e')) :
    (move .leave).run e = e' := by
  rw [run, act, Action.perform, Action.run_get, h]
  rfl

end Operation

/-- Scopes nest. Let a host enter a scope, go on with the scopes above for a while, and leave again:
it leaves the scope that it has entered, and then finds the stack as it was, each scope on it with
the same bindings, and all names with the same meaning. At every moment in between, the old stack is
there below what is entered, no scope of which stands below as well, with the same bindings; a
name has the value it has in the scope closest to the top that binds it, and none if no scope does;
and what no scope on top binds has its old meaning. -/
theorem scopes_nest [Host η] {e : Env η} (he : e.Sound) {push : Move η}
    {between : List (Operation η)} (h : Operation.Nests e push between) :
    (∃ bottom left, ((Operation.move push).run e).entered = bottom :: e.entered ∧
      (Operation.runAll (.move push :: between) e).leave = .ok (bottom, left) ∧
      Operation.runAll (.move push :: between ++ [.move .leave]) e = left ∧
      left.stack = e.stack ∧ (∀ number ∈ e.stack, left.scope number = e.scope number) ∧
      ∀ name location, left.resolve name location = e.resolve name location) ∧
    ∀ before, before <+: between →
      let e' := Operation.runAll (.move push :: before) e
      (∀ number ∈ e.stack, e'.scope number = e.scope number) ∧
      (∀ name location value, e'.resolve name location = .ok value ↔ e'.Sees name value) ∧
      (∀ name location err, e'.resolve name location = .error err ↔
        err = ⟨.unbound name, location⟩ ∧ ∀ number ∈ e'.stack, name ∉ (e'.scope number).names) ∧
      ∃ above, above ≠ [] ∧ e'.stack = above ++ e.stack ∧ (∀ number ∈ above, number ∉ e.stack) ∧
        ∀ name, (∀ number ∈ above, name ∉ (e'.scope number).names) →
          ∀ location, e'.resolve name location = e.resolve name location := by
  obtain ⟨bottom, hbottom, hcovered⟩ := h.covers he
  constructor
  · obtain ⟨inner, hcovers⟩ := hcovered between List.prefix_rfl
    -- One scope more than before is entered: the first one.
    have hinner : inner = [] := by
      have hlevel := hcovers.length_entered.symm.trans h.level
      rw [List.length_append, List.length_singleton] at hlevel
      exact List.length_eq_zero_iff.mp (by omega)
    subst hinner
    obtain ⟨left, hleave, hback⟩ := hcovers.leave
    refine ⟨bottom, left, hbottom, hleave, ?_, hback.stack, hback.kept, ?_⟩
    · rw [Operation.runAll_append]
      exact Operation.run_leave hleave
    · intro name location
      exact hback.resolve (List.forall_mem_nil _) location
  · intro before hbefore e'
    obtain ⟨inner, hcovers⟩ := hcovered before hbefore
    refine ⟨hcovers.kept, ?_, ?_, inner ++ [bottom], by simp, hcovers.stack, hcovers.apart, ?_⟩
    · intro name location value
      exact Env.resolve_ok_iff
    · intro name location err
      exact Env.resolve_error_iff
    · intro name hname location
      exact hcovers.resolve hname location

/-- Two names are shadowed, one is refused, and a scope that was left comes back above and gets a
binding. -/
theorem scopes_nest_shadowed :
    let e : Env Empty := Operation.runAll [.bind "a" (.integer 1) none,
      .move (.enter [("b", .integer 2)]), .move .leave, .move (.enter [("c", .integer 3)])] .initial
    let push : Move Empty := .enter [("a", .integer 4)]
    let before : List (Operation Empty) := [.bind "c" (.integer 5) none, .bind "a" .nothing none,
      .resolve "d" none, .move (.reenter 1), .bind "d" (.integer 6) none]
    let inside := Operation.runAll (.move push :: before) e
    let left := Operation.runAll (.move push :: (before ++ [.move .leave]) ++ [.move .leave]) e
    e.Sound ∧ Operation.Nests e push (before ++ [.move .leave]) ∧
      inside.stack = [1, 3, 2, 0] ∧ inside.resolve "a" none = .ok (.integer 4) ∧
      inside.resolve "b" none = .ok (.integer 2) ∧ inside.resolve "c" none = .ok (.integer 5) ∧
      inside.resolve "debug" none = e.resolve "debug" none ∧ left.stack = [2, 0] ∧
      left.resolve "a" none = .ok (.integer 1) ∧ left.resolve "c" none = .ok (.integer 3) ∧
      left.resolve "d" none = .error ⟨.unbound "d", none⟩ := by
  intro e push before inside left
  have he : e.Sound :=
    ((Operation.becomes_runAll _ Env.initial).kept_extends Env.kept_initial).1.sound
  have hnests : Operation.Nests e push (before ++ [.move .leave]) := by decide
  obtain ⟨⟨_, _, -, -, hleft, hstack, -, hresolve⟩, hmoment⟩ := scopes_nest he hnests
  obtain ⟨-, hsees, -, above, -, habove, -, hold⟩ := hmoment before (List.prefix_append _ _)
  rw [← hleft] at hstack hresolve
  -- What the two scopes on top bind is known, and "debug" is none of it.
  have hbase : e.stack = [2, 0] := by decide
  have hinside : inside.stack = [1, 3] ++ e.stack := by decide
  obtain rfl := List.append_cancel_right (habove.symm.trans hinside)
  rw [hbase] at hinside hstack
  refine ⟨he, hnests, hinside, ?_, ?_, ?_, ?_, hstack, ?_, ?_, ?_⟩
  · exact (hsees "a" none _).mpr ⟨[1], 3, [2, 0], by decide, by decide, by decide⟩
  · exact (hsees "b" none _).mpr ⟨[], 1, [3, 2, 0], by decide, by decide, by decide⟩
  · exact (hsees "c" none _).mpr ⟨[1], 3, [2, 0], by decide, by decide, by decide⟩
  · exact hold "debug" (by decide) none
  · exact hresolve "a" none
  · exact hresolve "c" none
  · exact hresolve "d" none

end SmallLisp

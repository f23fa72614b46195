import Mathlib.Logic.Relation
import SmallLisp.Proofs.Postorder

/-!
# Write-once scopes

Whatever a host or a program does to an environment comes to a few kinds of steps: something is
recorded, a free name is bound, a scope is entered or left. No step takes a binding back or changes
it, so a scope only grows at its end, however often it stands on the stack.
-/
namespace SmallLisp

variable {η : Type}

/-! ## Names of one scope -/

theorem Keyed.nodup_put {α : Type} (name : String) (entry : α) {entries : List (String × α)}
    (h : (entries.map Prod.fst).Nodup) : ((put name entry entries).map Prod.fst).Nodup := by
  rw [names_put]
  by_cases hname : name ∈ entries.map Prod.fst
  · rwa [if_pos hname]
  · rw [if_neg hname]
    exact List.nodup_append_comm.mpr (List.nodup_cons.mpr ⟨hname, h⟩)

namespace Scope

theorem nodup_ofList (bindings : List (String × Value η)) : (ofList bindings).names.Nodup := by
  have hfold (entries : List (String × Value η)) (h : (entries.map Prod.fst).Nodup) :
      ((bindings.foldl (fun bs b => Keyed.put b.1 b.2 bs) entries).map Prod.fst).Nodup := by
    induction bindings generalizing entries with
    | nil => exact h
    | cons b bindings ih => exact ih _ (Keyed.nodup_put b.1 b.2 h)
  exact hfold [] List.nodup_nil

theorem contains_iff {s : Scope η} {name : String} : s.contains name = true ↔ name ∈ s.names := by
  obtain ⟨bindings⟩ := s
  simp only [contains, get?, names]
  induction bindings with
  | nil => simp
  | cons b bindings ih =>
    obtain ⟨other, value⟩ := b
    by_cases hname : name = other
    · simp [hname]
    · have hne : (name == other) = false := by simpa using hname
      simp only [List.lookup_cons, hne, ih, List.map_cons, List.mem_cons, hname, false_or]

theorem get?_eq_none_iff {s : Scope η} {name : String} : s.get? name = none ↔ name ∉ s.names := by
  rw [← contains_iff, contains, Option.not_isSome_iff_eq_none]

/-- What is bound stays bound to its value when bindings come behind. -/
theorem get?_of_prefix {s s' : Scope η} (h : s.bindings <+: s'.bindings) {name : String}
    {value : Value η} (hvalue : s.get? name = some value) : s'.get? name = some value := by
  obtain ⟨more, hmore⟩ := h
  rw [get?, ← hmore, List.lookup_append]
  rw [get?] at hvalue
  rw [hvalue]
  rfl

end Scope

/-! ## Steps -/

namespace Env

/-- One change of an environment. -/
inductive Step : Env η → Env η → Prop
  | record (e) (event : Event η) : Step e (e.record event)
  | bind {e e' name value location} (bound : e.bind name value location = .ok e') : Step e e'
  | enter (e) (bindings : List (String × Value η)) : Step e (e.enter bindings)
  | reenter (e) (number : Nat) : Step e (e.reenter number)
  | leave {e e' number} (left : e.leave = .ok (number, e')) : Step e e'

/-- Whether an environment comes to be another one, step by step. -/
def Becomes : Env η → Env η → Prop := Relation.ReflTransGen Step

theorem becomes_refl (e : Env η) : e.Becomes e := Relation.ReflTransGen.refl

theorem Step.becomes {e e' : Env η} (h : Step e e') : e.Becomes e' := Relation.ReflTransGen.single h

theorem Becomes.trans {e e' e'' : Env η} (h : e.Becomes e') (h' : e'.Becomes e'') : e.Becomes e'' :=
  Relation.ReflTransGen.trans h h'

/-- Whether all scopes of an environment are still there with their bindings, perhaps with more
behind them. -/
structure Extends (e e' : Env η) : Prop where
  made : e.scopes.length ≤ e'.scopes.length
  kept : ∀ number, (e.scope number).bindings <+: (e'.scope number).bindings

theorem Extends.trans {e e' e'' : Env η} (h : e.Extends e') (h' : e'.Extends e'') :
    e.Extends e'' :=
  ⟨Nat.le_trans h.made h'.made, fun number => (h.kept number).trans (h'.kept number)⟩

theorem Extends.get? {e e' : Env η} (h : e.Extends e') {number : Nat} {name : String}
    {value : Value η} (hvalue : (e.scope number).get? name = some value) :
    (e'.scope number).get? name = some value := Scope.get?_of_prefix (h.kept number) hvalue

/-- Entering and leaving scopes that exist, and recording, leave the scopes alone. -/
theorem extends_of_scopes {e e' : Env η} (h : e'.scopes = e.scopes) : e.Extends e' := by
  refine ⟨Nat.le_of_eq (congrArg List.length h.symm), ?_⟩
  intro number
  have hscope : e'.scope number = e.scope number := by rw [scope, scope, h]
  exact hscope ▸ List.prefix_rfl

theorem scopes_reenter (e : Env η) (number : Nat) : (e.reenter number).scopes = e.scopes := by
  rw [reenter]
  split_ifs
  · rfl
  · rfl

theorem scopes_leave {e e' : Env η} {number : Nat} (h : e.leave = .ok (number, e')) :
    e'.scopes = e.scopes := by
  obtain ⟨scopes, entered, history⟩ := e
  cases entered with
  | nil => cases h
  | cons n outer =>
    cases h
    rfl

theorem scope_enter (e : Env η) (bindings : List (String × Value η)) (number : Nat) :
    (e.enter bindings).scope number =
      if number = e.scopes.length then .ofList bindings else e.scope number := by
  simp only [scope, enter, List.getD_eq_getElem?_getD, List.getElem?_append]
  by_cases hlt : number < e.scopes.length
  · rw [if_pos hlt, if_neg (Nat.ne_of_lt hlt)]
  · rw [if_neg hlt]
    by_cases heq : number = e.scopes.length
    · simp [heq]
    · have hold : e.scopes[number]? = none := List.getElem?_eq_none (by omega)
      have hnew : [Scope.ofList bindings][number - e.scopes.length]? = none :=
        List.getElem?_eq_none (by simp only [List.length_singleton]; omega)
      rw [hold, hnew, if_neg heq]

/-- Binding a name adds it to the innermost scope, at the end, and touches no other scope. -/
theorem scope_bind {e e' : Env η} {name : String} {value : Value η} {location : Option Location}
    (he : e.innermost < e.scopes.length) (h : e.bind name value location = .ok e') :
    name ∉ (e.scope e.innermost).names ∧ ∀ number, (e'.scope number).bindings =
      (e.scope number).bindings ++ if number = e.innermost then [(name, value)] else [] := by
  obtain ⟨s, hs, rfl⟩ := bind_ok h
  obtain ⟨hname, hbindings⟩ := Scope.bind?_some hs
  refine ⟨hname, ?_⟩
  intro number
  simp only [scope, record, List.getD_eq_getElem?_getD] at hbindings ⊢
  by_cases hnumber : number = e.innermost
  · subst hnumber
    rw [List.getElem?_set_self he, if_pos rfl]
    exact hbindings
  · rw [List.getElem?_set_ne (Ne.symm hnumber), if_neg hnumber, List.append_nil]

/-- Whether the scopes on the stack exist and none has two entries for a name. -/
structure Kept (e : Env η) : Prop where
  sound : e.Sound
  distinct : ∀ number, (e.scope number).names.Nodup

theorem kept_initial : (initial : Env η).Kept := by
  refine ⟨sound_initial, ?_⟩
  intro number
  cases number with
  | zero => exact List.nodup_singleton _
  | succ number => exact List.nodup_nil

theorem Sound.leave {e e' : Env η} (h : e.Sound) {number : Nat}
    (hleave : e.leave = .ok (number, e')) : e'.Sound := by
  have hperform := Action.sound_perform .leave h
  rw [Action.perform, Action.run_get, hleave] at hperform
  exact hperform

theorem Kept.of_scopes {e e' : Env η} (h : e.Kept) (hsound : e'.Sound)
    (hscopes : e'.scopes = e.scopes) : e'.Kept := by
  refine ⟨hsound, ?_⟩
  intro number
  rw [scope, hscopes]
  exact h.distinct number

theorem Kept.bind {e e' : Env η} (h : e.Kept) {name : String} {value : Value η}
    {location : Option Location} (hbind : e.bind name value location = .ok e') : e'.Kept := by
  refine ⟨h.sound.bind hbind, ?_⟩
  intro number
  obtain ⟨hname, hscope⟩ := scope_bind h.sound.innermost hbind
  have hold := h.distinct number
  rw [Scope.names] at hold ⊢
  rw [hscope]
  by_cases hnumber : number = e.innermost
  · subst hnumber
    rw [if_pos rfl, List.map_append]
    exact List.nodup_append_comm.mpr (List.nodup_cons.mpr ⟨hname, hold⟩)
  · rwa [if_neg hnumber, List.append_nil]

theorem Kept.enter {e : Env η} (h : e.Kept) (bindings : List (String × Value η)) :
    (e.enter bindings).Kept := by
  refine ⟨h.sound.enter bindings, ?_⟩
  intro number
  rw [scope_enter]
  split_ifs
  · exact Scope.nodup_ofList bindings
  · exact h.distinct number

theorem Step.kept {e e' : Env η} (h : Step e e') (he : e.Kept) : e'.Kept := by
  cases h with
  | record event => exact he.of_scopes he.sound rfl
  | bind bound => exact he.bind bound
  | enter bindings => exact he.enter bindings
  | reenter number => exact he.of_scopes (he.sound.reenter number) (scopes_reenter e number)
  | leave left => exact he.of_scopes (he.sound.leave left) (scopes_leave left)

theorem Step.extends {e e' : Env η} (h : Step e e') (he : e.Kept) : e.Extends e' := by
  cases h with
  | record event => exact extends_of_scopes rfl
  | bind bound =>
    obtain ⟨-, hscope⟩ := scope_bind he.sound.innermost bound
    obtain ⟨s, -, rfl⟩ := bind_ok bound
    refine ⟨Nat.le_of_eq List.length_set.symm, ?_⟩
    intro number
    rw [hscope]
    exact List.prefix_append _ _
  | enter bindings =>
    refine ⟨by simp [Env.enter], ?_⟩
    intro number
    by_cases hnumber : number = e.scopes.length
    · -- The number of the new scope was free before, which reads as a scope without bindings.
      have hnone : (e.scope number).bindings = [] := by simp [scope, hnumber, Scope.empty]
      rw [hnone]
      exact List.nil_prefix
    · have hscope : (e.enter bindings).scope number = e.scope number := by
        rw [scope_enter, if_neg hnumber]
      exact hscope ▸ List.prefix_rfl
  | reenter number => exact extends_of_scopes (scopes_reenter e number)
  | leave left => exact extends_of_scopes (scopes_leave left)

/-- What each step keeps, a run keeps. -/
theorem Becomes.kept_extends {e e' : Env η} (h : e.Becomes e') (he : e.Kept) :
    e'.Kept ∧ e.Extends e' := by
  induction h with
  | refl => exact ⟨he, extends_of_scopes rfl⟩
  | tail _ hstep ih =>
    obtain ⟨hkept, hextends⟩ := ih
    exact ⟨hstep.kept hkept, hextends.trans (hstep.extends hkept)⟩

end Env

/-! ## Actions take steps -/

namespace Action

variable {α β : Type}

/-- Whether the action does nothing to an environment but take steps, also where it fails. -/
def Steps (x : Action η α) : Prop := ∀ e : Env η, e.Becomes (x.run.run e).2

theorem steps_pure (a : α) : Steps (pure a : Action η α) := Env.becomes_refl

theorem steps_fail (cause : EvalError.Cause) (location : Option Location) :
    Steps (fail cause location : Action η α) := Env.becomes_refl

theorem steps_bind {x : Action η α} {k : α → Action η β} (hx : Steps x) (hk : ∀ a, Steps (k a)) :
    Steps (x >>= k) := by
  intro e
  have hfirst := hx e
  rw [run_bind]
  rcases hrun : x.run.run e with ⟨err | a, e₁⟩
  · rwa [hrun] at hfirst
  · rw [hrun] at hfirst
    exact hfirst.trans (hk a e₁)

theorem steps_define (name : String) (value : Value η) (location : Option Location) :
    Steps (Action.bind name value location) := by
  intro e
  rw [run_define]
  rcases hbind : e.bind name value location with err | e'
  · exact e.becomes_refl
  · exact (Env.Step.bind hbind).becomes

theorem steps_resolve (name : String) (location : Option Location) :
    Steps (resolve name location : Action η (Value η)) := by
  intro e
  rw [run_resolve]
  exact e.becomes_refl

theorem steps_perform (move : Move η) : Steps (perform move) := by
  intro e
  cases move with
  | enter bindings => exact (Env.Step.enter e bindings).becomes
  | reenter number => exact (Env.Step.reenter e number).becomes
  | leave =>
    rw [perform, run_get]
    rcases hleave : e.leave with err | ⟨number, e'⟩
    · exact e.becomes_refl
    · exact (Env.Step.leave hleave).becomes

variable [Host η]

theorem steps_invoke (name : String) (function : Native η) (arguments : List (Value η)) :
    Steps (invoke name function arguments) := by
  intro e
  have hrecord := (Env.Step.record e (.invoked name function arguments)).becomes
  cases function with
  | debug => exact hrecord.trans (Env.Step.record _ _).becomes
  | host function =>
    rw [run_host rfl]
    apply moves_preserve (P := fun e' => e.Becomes e') _ _ hrecord
    intro move e' he'
    exact he'.trans (steps_perform move e')

end Action

namespace Expr

variable [Host η]

mutual

theorem eval_steps : (x : Expr) → Action.Steps (x.eval : Action η (Value η))
  | .symbol s => Action.steps_resolve s.name (some s.location)
  | .integer .. | .text .. => Action.steps_pure _
  | .define target value location => by
    apply Action.steps_bind (eval_steps value)
    intro v
    apply Action.steps_bind (Action.steps_define target.name v (some location))
    intro _
    exact Action.steps_pure _
  | .call callee arguments location => by
    apply Action.steps_bind (eval_steps callee)
    intro v
    cases v with
    | native name function =>
      apply Action.steps_bind (evalAll_steps arguments)
      intro values
      exact Action.steps_invoke name function values
    | integer | text | nothing | deferred => exact Action.steps_fail _ _

theorem evalAll_steps : (xs : List Expr) → Action.Steps (evalAll xs : Action η (List (Value η)))
  | [] => Action.steps_pure _
  | x :: xs => by
    apply Action.steps_bind (eval_steps x)
    intro value
    apply Action.steps_bind (evalAll_steps xs)
    intro values
    exact Action.steps_pure _

end

end Expr

theorem Program.eval_steps [Host η] (p : Program) : Action.Steps (p.eval : Action η (Value η)) := by
  apply Action.steps_bind (Expr.evalAll_steps p.exprs)
  intro values
  exact Action.steps_pure _

/-! ## Hosts -/

/-- What the owner of an environment may do to it. -/
inductive Operation (η : Type) where
  | bind (name : String) (value : Value η) (location : Option Location)
  | defineNative (name : String) (function : Native η)
  | resolve (name : String) (location : Option Location)
  | move (move : Move η)
  | evaluate (p : Program)

namespace Operation

variable [Host η]

def act : Operation η → Action η Unit
  | bind name value location => Action.bind name value location
  | defineNative name function => Action.bind name (.native name function) none
  | resolve name location => do
    let _ ← Action.resolve name location
  | move m => Action.perform m
  | evaluate p => do
    let _ ← p.eval

/-- What is left by an operation, whether it fails or not. -/
def run (op : Operation η) (e : Env η) : Env η := (op.act.run.run e).2

def runAll (ops : List (Operation η)) (e : Env η) : Env η := ops.foldl (fun e op => op.run e) e

theorem steps_act (op : Operation η) : Action.Steps op.act := by
  cases op with
  | bind name value location => exact Action.steps_define name value location
  | defineNative name function => exact Action.steps_define name _ none
  | resolve name location =>
    exact Action.steps_bind (Action.steps_resolve name location) fun _ => Action.steps_pure ()
  | move m => exact Action.steps_perform m
  | evaluate p => exact Action.steps_bind p.eval_steps fun _ => Action.steps_pure ()

theorem becomes_run (op : Operation η) (e : Env η) : e.Becomes (op.run e) := op.steps_act e

theorem becomes_runAll (ops : List (Operation η)) (e : Env η) : e.Becomes (runAll ops e) := by
  induction ops generalizing e with
  | nil => exact e.becomes_refl
  | cons op ops ih => exact (op.becomes_run e).trans (ih (op.run e))

end Operation

/-! ## What a host is refused -/

namespace Action

variable {α : Type}

/-- Whether the action fails at `e` exactly if `condition` holds, with no other error than `err`,
and then leaves `e` as it is. -/
structure FailsIff (x : Action η α) (e : Env η) (err : EvalError) (condition : Prop) : Prop where
  iff : (x.run.run e).1 = .error err ↔ condition
  unchanged : ∀ err', (x.run.run e).1 = .error err' → err' = err ∧ (x.run.run e).2 = e

theorem failsIff_of_run {x : Action η α} {e : Env η} {err : EvalError} {condition : Prop}
    (hfails : condition → x.run.run e = (.error err, e))
    (hdone : ¬ condition → ∃ a e', x.run.run e = (.ok a, e')) : FailsIff x e err condition := by
  by_cases hcondition : condition
  · have hrun := hfails hcondition
    constructor
    · simp [hrun, hcondition]
    · intro err' herr
      rw [hrun] at herr ⊢
      cases herr
      exact ⟨rfl, rfl⟩
  · obtain ⟨a, e', hrun⟩ := hdone hcondition
    constructor
    · simp [hrun, hcondition]
    · intro err' herr
      rw [hrun] at herr
      cases herr

theorem define_failsIff (name : String) (value : Value η) (location : Option Location)
    (e : Env η) : FailsIff (Action.bind name value location) e ⟨.alreadyBound name, location⟩
      (name ∈ (e.scope e.innermost).names) := by
  rw [← Scope.contains_iff]
  apply failsIff_of_run
  · intro hname
    simp [run_define, Env.bind, Scope.bind?, hname]
  · intro hname
    simp [run_define, Env.bind, Scope.bind?, hname]

theorem resolve_failsIff (name : String) (location : Option Location) (e : Env η) :
    FailsIff (resolve name location : Action η (Value η)) e ⟨.unbound name, location⟩
      (∀ number ∈ e.stack, name ∉ (e.scope number).names) := by
  simp only [← Scope.get?_eq_none_iff, ← List.findSome?_eq_none_iff]
  apply failsIff_of_run
  · intro hfound
    rw [run_resolve, Env.resolve, hfound]
  · intro hfound
    obtain ⟨value, hvalue⟩ := Option.ne_none_iff_exists'.mp hfound
    rw [run_resolve, Env.resolve, hvalue]
    exact ⟨value, e, rfl⟩

theorem leave_failsIff (e : Env η) :
    FailsIff (perform .leave) e ⟨.onlyGlobal, none⟩ (e.stack = [Env.global]) := by
  obtain ⟨scopes, entered, history⟩ := e
  apply failsIff_of_run
  · intro hstack
    obtain rfl : entered = [] := by simpa [Env.stack] using hstack
    rfl
  · intro hstack
    cases entered with
    | nil => exact absurd rfl hstack
    | cons number outer => exact ⟨(), _, rfl⟩

end Action

/-- Environments are write-once stores. Whatever a host has done to one and whatever its programs
and their natives have done, the global scope is at the bottom of the stack with the built-in native
bound, and no scope has two entries for a name. All that is done later keeps every scope with its
bindings in order, at whatever places of the stack it stands, so that a bound value stays. A name is
refused if it is bound in the innermost scope, leaving if only the global scope is left, and looking
up if no scope on the stack has the name; for no other reason, and what is refused changes
nothing. -/
theorem scopes_written_once [Host η] (ops : List (Operation η)) :
    let e := Operation.runAll ops Env.initial
    (e.Sound ∧ e.stack ≠ [] ∧ e.stack.getLast? = some Env.global ∧
      (e.scope Env.global).get? "debug" = some (.native "debug" .debug)) ∧
    (∀ number, (e.scope number).names.Nodup) ∧
    (∀ e', e.Becomes e' → e.Extends e' ∧ ∀ number name value,
      (e.scope number).get? name = some value → (e'.scope number).get? name = some value) ∧
    (∀ more, e.Becomes (Operation.runAll more e)) ∧
    (∀ name value location, Action.FailsIff (Action.bind name value location) e
      ⟨.alreadyBound name, location⟩ (name ∈ (e.scope e.innermost).names)) ∧
    Action.FailsIff (Action.perform .leave) e ⟨.onlyGlobal, none⟩ (e.stack = [Env.global]) ∧
    (∀ name location, Action.FailsIff (Action.resolve name location) e ⟨.unbound name, location⟩
      (∀ number ∈ e.stack, name ∉ (e.scope number).names)) := by
  intro e
  have hbecomes : Env.initial.Becomes e := Operation.becomes_runAll ops Env.initial
  obtain ⟨hkept, hextends⟩ := hbecomes.kept_extends Env.kept_initial
  refine ⟨⟨hkept.sound, ?_, ?_, hextends.get? rfl⟩, hkept.distinct, ?_, ?_, ?_, ?_, ?_⟩
  · simp [Env.stack]
  · simp [Env.stack]
  · intro e' he'
    have hlater := (he'.kept_extends hkept).2
    exact ⟨hlater, fun number name value => hlater.get?⟩
  · intro more
    exact Operation.becomes_runAll more e
  · intro name value location
    exact Action.define_failsIff name value location e
  · exact Action.leave_failsIff e
  · intro name location
    exact Action.resolve_failsIff name location e

/-- A scope that was left and stands on the stack twice: what is bound in it is seen at both places,
and stays behind a program that fails. -/
theorem scopes_written_once_twice :
    let ops : List (Operation Empty) := [.move (.enter [("x", .integer 1)]), .move .leave,
      .move (.reenter 1), .move (.reenter 1), .bind "y" (.integer 2) none]
    let e := Operation.runAll ops Env.initial
    let p : Program := ((parse "(debug y) (define x 3)").toOption).getD ⟨.start, []⟩
    let e' := Operation.runAll [.move .leave, .evaluate p] e
    e.stack = [1, 1, 0] ∧ (e.scope 1).get? "y" = some (.integer 2) ∧
      (e'.scope 1).get? "x" = some (.integer 1) ∧ (e'.scope 1).get? "y" = some (.integer 2) ∧
      (Action.bind "x" (.integer 3) none).run.run e = (.error ⟨.alreadyBound "x", none⟩, e) := by
  intro ops e p e'
  obtain ⟨-, -, hlater, hmore, hbind, -⟩ := scopes_written_once ops
  have hkept := (hlater e' (hmore _)).2
  have hrefused := hbind "x" (.integer 3) none
  have herr := hrefused.iff.mpr (by decide)
  refine ⟨rfl, rfl, hkept 1 "x" _ rfl, hkept 1 "y" _ rfl, ?_⟩
  exact Prod.ext herr (hrefused.unchanged _ herr).2

end SmallLisp

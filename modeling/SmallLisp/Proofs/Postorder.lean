import SmallLisp.Proofs.Scopes

/-!
# Effects in postorder

A program acts through its calls, which invoke natives, and its definitions, which bind names. It
acts in their postorder, once for each, up to the first that fails; a run is nothing but the
sequence of these effects.
-/
namespace SmallLisp

variable {η : Type}

deriving instance DecidableEq for Event

mutual

/-- The calls and definitions in an expression, each behind those in its parts. -/
def Expr.postorder : Expr → List Expr
  | .symbol _ | .integer .. | .text .. => []
  | .define target value location => value.postorder ++ [.define target value location]
  | .call callee arguments location =>
    callee.postorder ++ Expr.postorders arguments ++ [.call callee arguments location]

def Expr.postorders : List Expr → List Expr
  | [] => []
  | e :: es => e.postorder ++ Expr.postorders es

end

/-- The name that a definition binds. -/
def Expr.target? : Expr → Option String
  | .define target _ _ => some target.name
  | _ => none

namespace Event

/-- Whether an event is that of a call or of a definition. -/
def isEffect : Event η → Bool
  | .bound .. | .invoked .. => true
  | _ => false

def effects (events : List (Event η)) : List (Event η) := events.filter isEffect

/-- Does again what an event tells of. -/
def replay [Host η] (event : Event η) (e : Env η) : Env η :=
  match event with
  | .bound name value _ => ((e.bind name value none).toOption).getD e
  | .invoked name function arguments => ((Action.invoke name function arguments).run.run e).2
  | _ => e

end Event

/-- What a call or a definition did. -/
structure Effect (η : Type) where
  node : Expr
  event : Event η

/-- The environment in which the effects have happened one after another. -/
def Env.after [Host η] (e : Env η) (effects : List (Effect η)) : Env η :=
  effects.foldl (fun e effect => effect.event.replay e) e

/-- Whether expressions evaluate one after another from the first environment to the values, and to
the second environment. -/
inductive Expr.EvaluateTo [Host η] : List Expr → Env η → List (Value η) → Env η → Prop
  | nil {e} : EvaluateTo [] e [] e
  | cons {x xs v vs e e₁ e₂} (first : x.eval.run.run e = (.ok v, e₁))
      (rest : EvaluateTo xs e₁ vs e₂) : EvaluateTo (x :: xs) e (v :: vs) e₂

/-- How an effect comes about in a run that started at `e`, behind the effects so far. The latest of
these are those of its parts, evaluated from left to right. -/
inductive Effect.Follows [Host η] (e : Env η) : List (Effect η) → Effect η → Prop
  | define (earlier inner) {target value location v e'} (nodes : inner.map node = value.postorder)
      (evaluated : value.eval.run.run (e.after earlier) = (.ok v, e.after (earlier ++ inner)))
      (binds : (e.after (earlier ++ inner)).bind target.name v none = .ok e') :
      Follows e (earlier ++ inner) ⟨.define target value location,
        .bound target.name v (e.after (earlier ++ inner)).stack.length⟩
  | call (earlier inner outer) {callee arguments location name function values}
      (nodes : inner.map node = callee.postorder)
      (evaluated : callee.eval.run.run (e.after earlier) =
        (.ok (.native name function), e.after (earlier ++ inner)))
      (nodes' : outer.map node = Expr.postorders arguments)
      (evaluated' : Expr.EvaluateTo arguments (e.after (earlier ++ inner)) values
        (e.after (earlier ++ inner ++ outer))) :
      Follows e (earlier ++ inner ++ outer)
        ⟨.call callee arguments location, .invoked name function values⟩

/-- The effects of a run that started at `e`. -/
inductive Course [Host η] (e : Env η) : List (Effect η) → Prop
  | start : Course e []
  | step {effects effect} (before : Course e effects) (follows : effect.Follows e effects) :
      Course e (effects ++ [effect])

section Course

variable [Host η]

theorem Expr.evalAll_ok_iff {xs : List Expr} {e e' : Env η} {values : List (Value η)} :
    (evalAll xs).run.run e = (.ok values, e') ↔ EvaluateTo xs e values e' := by
  constructor
  · intro h
    induction xs generalizing e values with
    | nil =>
      cases h
      exact .nil
    | cons x xs ih =>
      obtain ⟨v, e₁, hx, hrest⟩ := Action.run_bind_ok h
      obtain ⟨vs, e₂, hxs, hend⟩ := Action.run_bind_ok hrest
      cases hend
      exact .cons hx (ih hxs)
  · intro h
    induction h with
    | nil => rfl
    | cons first rest ih =>
      simp only [evalAll, Action.run_bind, first, ih]
      rfl

@[simp] theorem Env.after_nil (e : Env η) : e.after [] = e := rfl

theorem Env.after_append (e : Env η) (us vs : List (Effect η)) :
    e.after (us ++ vs) = (e.after us).after vs := by
  simp [Env.after]

theorem Env.after_snoc (e : Env η) (us : List (Effect η)) (effect : Effect η) :
    e.after (us ++ [effect]) = effect.event.replay (e.after us) := by
  simp [Env.after]

theorem Effect.Follows.behind {e : Env η} {us vs : List (Effect η)} {effect : Effect η}
    (h : effect.Follows (e.after us) vs) : effect.Follows e (us ++ vs) := by
  cases h with
  | define earlier inner nodes evaluated binds =>
    simp only [← Env.after_append, ← List.append_assoc] at evaluated binds ⊢
    exact .define (us ++ earlier) inner nodes evaluated binds
  | call earlier inner outer nodes evaluated nodes' evaluated' =>
    simp only [← Env.after_append, ← List.append_assoc] at evaluated evaluated' ⊢
    exact .call (us ++ earlier) inner outer nodes evaluated nodes' evaluated'

theorem Course.append {e : Env η} {us vs : List (Effect η)} (hus : Course e us)
    (hvs : Course (e.after us) vs) : Course e (us ++ vs) := by
  induction hvs with
  | start => rwa [List.append_nil]
  | step _ follows ih =>
    rw [← List.append_assoc]
    exact .step ih follows.behind

end Course

namespace Action

theorem run_resolve (name : String) (location : Option Location) (e : Env η) :
    (resolve name location).run.run e = (e.resolve name location, e) := by
  rw [resolve, run_get]
  cases e.resolve name location with
  | error err => rfl
  | ok value => rfl

theorem run_define (name : String) (value : Value η) (location : Option Location) (e : Env η) :
    (Action.bind name value location).run.run e =
      match e.bind name value location with
      | .error err => (.error err, e)
      | .ok e' => (.ok (), e') := by
  rw [Action.bind, run_get]
  cases e.bind name value location with
  | error err => rfl
  | ok e' => rfl

variable [Host η] {α β : Type}

/-- Whether a computation from `e` with the outcome `r` has the effects of an initial part of
`nodes` and does nothing else, and has those of all `nodes` if it succeeds. -/
def Traced (nodes : List Expr) (e : Env η) (r : Except EvalError α × Env η) : Prop :=
  ∃ effects, Course e effects ∧ r.2 = e.after effects ∧ effects.map Effect.node <+: nodes ∧
    ∀ a, r.1 = .ok a → effects.map Effect.node = nodes

theorem traced_idle (result : Except EvalError α) (e : Env η) : Traced [] e (result, e) :=
  ⟨[], .start, rfl, List.nil_prefix, fun _ _ => rfl⟩

/-- Nothing more is done once an error is met. -/
theorem Traced.failing {nodes : List Expr} {e e' : Env η} {result : Except EvalError α}
    (h : Traced nodes e (result, e')) (more : List Expr) (err : EvalError) :
    Traced (nodes ++ more) e ((.error err : Except EvalError β), e') := by
  obtain ⟨effects, hcourse, henv, hnodes, -⟩ := h
  have hprefix := hnodes.trans (List.prefix_append nodes more)
  exact ⟨effects, hcourse, henv, hprefix, fun _ hok => by cases hok⟩

theorem Traced.ok {nodes : List Expr} {e e' : Env η} {a : α} (h : Traced nodes e (.ok a, e')) :
    ∃ effects, Course e effects ∧ e' = e.after effects ∧ effects.map Effect.node = nodes := by
  obtain ⟨effects, hcourse, henv, -, hall⟩ := h
  exact ⟨effects, hcourse, henv, hall a rfl⟩

theorem Traced.snoc {nodes : List Expr} {e : Env η} {effects : List (Effect η)} {effect : Effect η}
    (hcourse : Course e effects) (hnodes : effects.map Effect.node = nodes)
    (hfollows : effect.Follows e effects) (result : Except EvalError α) :
    Traced (nodes ++ [effect.node]) e (result, effect.event.replay (e.after effects)) := by
  have hall : (effects ++ [effect]).map Effect.node = nodes ++ [effect.node] := by
    rw [List.map_append, hnodes]
    rfl
  exact ⟨effects ++ [effect], .step hcourse hfollows, (Env.after_snoc e effects effect).symm,
    hall ▸ List.prefix_rfl, fun _ _ => hall⟩

theorem Traced.append {nodes nodes' : List Expr} {e e₁ : Env η} {a : α}
    {r : Except EvalError β × Env η} (h : Traced nodes e (.ok a, e₁)) (h' : Traced nodes' e₁ r) :
    Traced (nodes ++ nodes') e r := by
  obtain ⟨us, hus, rfl, hnodes⟩ := h.ok
  obtain ⟨vs, hvs, henv, hprefix, hall⟩ := h'
  refine ⟨us ++ vs, hus.append hvs, by rw [henv, Env.after_append], ?_, ?_⟩
  · rw [List.map_append, hnodes]
    exact (List.prefix_append_right_inj nodes).mpr hprefix
  · intro b hb
    rw [List.map_append, hnodes, hall b hb]

theorem traced_bind {nodes nodes' : List Expr} {e : Env η} {x : Action η α} {k : α → Action η β}
    (hx : Traced nodes e (x.run.run e))
    (hk : ∀ a e₁, x.run.run e = (.ok a, e₁) → Traced nodes' e₁ ((k a).run.run e₁)) :
    Traced (nodes ++ nodes') e ((x >>= k).run.run e) := by
  rw [run_bind]
  rcases hrun : x.run.run e with ⟨err | a, e₁⟩
  · rw [hrun] at hx
    exact hx.failing nodes' err
  · rw [hrun] at hx
    exact hx.append (hk a e₁ hrun)

end Action

theorem Event.replay_bound [Host η] {e e' : Env η} {name : String} {value : Value η}
    {location : Option Location} (h : e.bind name value location = .ok e') (depth : Nat) :
    (Event.bound name value depth).replay e = e' ∧ e.bind name value none = .ok e' := by
  obtain ⟨s, hs, rfl⟩ := Env.bind_ok h
  have hnone : e.bind name value none = .ok (Env.record { e with
      scopes := e.scopes.set e.innermost s } (.bound name value e.stack.length)) := by
    rw [Env.bind, hs]
  rw [replay, hnone]
  exact ⟨rfl, rfl⟩

namespace Expr

open SmallLisp.Action

variable [Host η]

theorem calls_nothing (callee : Expr) (arguments : List Expr) (location : Location)
    {v : Value η} {e e' : Env η} (heval : callee.eval.run.run e = (.ok v, e'))
    (hv : v.isCallable = false) :
    (Expr.call callee arguments location).eval.run.run e =
      (.error ⟨.notCallable (callee.calleeName v), some callee.location⟩, e') := by
  rw [Expr.eval, run_bind, heval]
  cases v with
  | native name function => cases hv
  | integer | text | nothing | deferred => rfl

/-- What a definition does once its value is evaluated. -/
theorem traced_define (target : Symbol) {value : Expr} (location : Location) {v : Value η}
    {e e₁ : Env η} (heval : value.eval.run.run e = (.ok v, e₁))
    (hvalue : Traced value.postorder e ((.ok v : Except EvalError (Value η)), e₁)) :
    Traced (value.postorder ++ [.define target value location]) e
      ((Action.bind target.name v (some location) >>= fun _ =>
        (pure .nothing : Action η (Value η))).run.run e₁) := by
  rw [run_bind, run_define]
  rcases hbind : e₁.bind target.name v (some location) with err | e₂
  · exact hvalue.failing _ err
  · obtain ⟨inner, hcourse, rfl, hnodes⟩ := hvalue.ok
    obtain ⟨hreplay, hbinds⟩ := Event.replay_bound hbind (e.after inner).stack.length
    have hfollows : Effect.Follows e inner ⟨.define target value location,
        .bound target.name v (e.after inner).stack.length⟩ :=
      .define [] inner hnodes heval hbinds
    have hsnoc := Traced.snoc hcourse hnodes hfollows (.ok .nothing : Except EvalError (Value η))
    rwa [hreplay] at hsnoc

/-- What a call does once its callee is evaluated, to a native. -/
theorem traced_call {callee : Expr} {arguments : List Expr} (location : Location) {name : String}
    {function : Native η} {e e₁ : Env η}
    (heval : callee.eval.run.run e = (.ok (.native name function), e₁))
    (hcallee : Traced callee.postorder e
      ((.ok (.native name function) : Except EvalError (Value η)), e₁))
    (harguments : Traced (postorders arguments) e₁ ((evalAll arguments).run.run e₁)) :
    Traced (callee.postorder ++ postorders arguments ++ [.call callee arguments location]) e
      ((evalAll arguments >>= invoke name function).run.run e₁) := by
  rw [run_bind]
  rcases hvalues : (evalAll arguments).run.run e₁ with ⟨err | values, e₂⟩
  · rw [hvalues] at harguments
    exact (hcallee.append harguments).failing _ err
  · rw [hvalues] at harguments
    obtain ⟨inner, hinner, rfl, hnodes⟩ := hcallee.ok
    obtain ⟨outer, houter, rfl, hnodes'⟩ := harguments.ok
    have hall : (inner ++ outer).map Effect.node = callee.postorder ++ postorders arguments := by
      rw [List.map_append, hnodes, hnodes']
    rw [← Env.after_append] at hvalues ⊢
    have hfollows : Effect.Follows e (inner ++ outer) ⟨.call callee arguments location, _⟩ :=
      .call [] inner outer hnodes heval hnodes' (evalAll_ok_iff.mp hvalues)
    exact Traced.snoc (hinner.append houter) hall hfollows _

mutual

theorem eval_traced : (x : Expr) → ∀ e : Env η, Traced x.postorder e (x.eval.run.run e)
  | .symbol s, e => by
    rw [Expr.eval, run_resolve]
    exact traced_idle _ e
  | .integer .., e | .text .., e => traced_idle _ e
  | .define target value location, e => by
    have hvalue := eval_traced value e
    rw [Expr.eval, run_bind]
    rcases heval : value.eval.run.run e with ⟨err | v, e₁⟩
    · rw [heval] at hvalue
      exact hvalue.failing _ err
    · rw [heval] at hvalue
      exact traced_define target location heval hvalue
  | .call callee arguments location, e => by
    have hcallee := eval_traced callee e
    rw [postorder]
    rcases heval : callee.eval.run.run e with ⟨err | v, e₁⟩
    · rw [Expr.eval, run_bind, heval, List.append_assoc]
      rw [heval] at hcallee
      exact hcallee.failing _ err
    rw [heval] at hcallee
    cases v with
    | native name function =>
      rw [Expr.eval, run_bind, heval]
      exact traced_call location heval hcallee (evalAll_traced arguments e₁)
    | integer | text | nothing | deferred =>
      rw [calls_nothing callee arguments location heval rfl, List.append_assoc]
      exact hcallee.failing _ _

theorem evalAll_traced : (xs : List Expr) → ∀ e : Env η,
    Traced (postorders xs) e ((evalAll xs).run.run e)
  | [], e => traced_idle _ e
  | x :: xs, e => by
    apply traced_bind (eval_traced x e)
    intro value e₁ _
    rw [← List.append_nil (postorders xs)]
    apply traced_bind (evalAll_traced xs e₁)
    intro values e₂ _
    exact traced_idle _ e₂

end

end Expr

/-! ## What is recorded of the effects -/

namespace Action

variable [Host η]

theorem run_host {name : String} {function : η} {arguments : List (Value η)} {e called : Env η}
    (hcalled : e.record (.invoked name (.host function) arguments) = called) :
    ((invoke name (.host function) arguments).run.run e).2 =
      (((Host.react function arguments called).moves.forM perform).run.run called).2 := by
  rw [run_invoke hcalled, follow, run_bind]
  rcases ((Host.react function arguments called).moves.forM perform).run.run called with
    ⟨err | _, e₁⟩
  · rfl
  · cases (Host.react function arguments called).result with
    | error err => rfl
    | ok value => rfl

end Action

section Recorded

variable [Host η]

theorem Event.history_invoked (name : String) (function : Native η) (arguments : List (Value η))
    (e : Env η) : ∃ new,
      ((Event.invoked name function arguments).replay e).history = new ++ e.history ∧
        Event.effects new.reverse = [.invoked name function arguments] := by
  cases function with
  | debug =>
    let line := " ".intercalate (arguments.map Value.render)
    exact ⟨[.wrote line, .invoked name .debug arguments], rfl, rfl⟩
  | host function =>
    refine ⟨[.invoked name (.host function) arguments], ?_, rfl⟩
    rw [replay, Action.run_host rfl, Action.history_moves]
    rfl

theorem Effect.Follows.recorded {e : Env η} {effects : List (Effect η)} {effect : Effect η}
    (h : effect.Follows e effects) : ∃ new,
      (e.after (effects ++ [effect])).history = new ++ (e.after effects).history ∧
        Event.effects new.reverse = [effect.event] := by
  rw [Env.after_snoc]
  cases h with
  | define earlier inner nodes evaluated binds =>
    rw [(Event.replay_bound binds _).1]
    obtain ⟨s, -, rfl⟩ := Env.bind_ok binds
    exact ⟨[_], rfl, rfl⟩
  | call earlier inner outer nodes evaluated nodes' evaluated' =>
    exact Event.history_invoked _ _ _ _

theorem Course.recorded {e : Env η} {effects : List (Effect η)} (h : Course e effects) :
    ∃ new, (e.after effects).history = new ++ e.history ∧
      Event.effects new.reverse = effects.map Effect.event := by
  induction h with
  | start => exact ⟨[], rfl, rfl⟩
  | @step effects effect before follows ih =>
    obtain ⟨old, hold, hevents⟩ := ih
    obtain ⟨new, hnew, hevent⟩ := follows.recorded
    refine ⟨new ++ old, by rw [hnew, hold, List.append_assoc], ?_⟩
    have happend : Event.effects (new ++ old).reverse =
        Event.effects old.reverse ++ Event.effects new.reverse := by
      rw [List.reverse_append, Event.effects, List.filter_append]
      rfl
    rw [happend, hevents, hevent, List.map_append]
    rfl

theorem Course.since {e : Env η} {effects : List (Effect η)} (h : Course e effects) :
    Event.effects ((e.after effects).since e) = effects.map Effect.event := by
  obtain ⟨new, hnew, hevents⟩ := h.recorded
  have hsince : (e.after effects).since e = new.reverse := by
    rw [Env.since, hnew, List.length_append, Nat.add_sub_cancel, List.take_left]
  rw [hsince, hevents]

end Recorded

/-! ## What becomes of the scopes -/

theorem Event.sound_invoked [Host η] (name : String) (function : Native η)
    (arguments : List (Value η)) {e : Env η} (h : e.Sound) :
    ((Event.invoked name function arguments).replay e).Sound := by
  cases function with
  | debug => exact h
  | host function =>
    rw [replay, Action.run_host rfl]
    exact Action.moves_preserve (fun move _ he => Action.sound_perform move he) _ h

theorem Course.sound [Host η] {e : Env η} (he : e.Sound) {effects : List (Effect η)}
    (h : Course e effects) : (e.after effects).Sound := by
  induction h with
  | start => exact he
  | step before follows ih =>
    rw [Env.after_snoc]
    cases follows with
    | define earlier inner nodes evaluated binds =>
      rw [(Event.replay_bound binds _).1]
      exact ih.bind binds
    | call earlier inner outer nodes evaluated nodes' evaluated' =>
      exact Event.sound_invoked _ _ _ ih

/-- Whether the natives of the host stay in the scope they are called in. -/
def Host.Still (η : Type) [Host η] : Prop :=
  ∀ (function : η) (arguments : List (Value η)) (e : Env η),
    (Host.react function arguments e).moves = []

variable [Host η]

theorem Event.scopes_invoked (hstill : Host.Still η) (name : String) (function : Native η)
    (arguments : List (Value η)) (e : Env η) :
    ((Event.invoked name function arguments).replay e).scopes = e.scopes ∧
      ((Event.invoked name function arguments).replay e).entered = e.entered := by
  cases function with
  | debug => exact ⟨rfl, rfl⟩
  | host function =>
    rw [replay, Action.run_host rfl, hstill]
    exact ⟨rfl, rfl⟩

theorem Course.gained (hstill : Host.Still η) {e : Env η} (he : e.innermost < e.scopes.length)
    {effects : List (Effect η)} (h : Course e effects) :
    e.Gained (e.after effects) ((effects.map Effect.node).filterMap Expr.target?) := by
  induction h with
  | start => exact e.gained_refl
  | @step effects effect before follows ih =>
    rw [List.map_append, List.filterMap_append, Env.after_snoc]
    cases follows with
    | define earlier inner nodes evaluated binds =>
      rw [(Event.replay_bound binds _).1]
      exact ih.bind he binds
    | call earlier inner outer nodes evaluated nodes' evaluated' =>
      obtain ⟨hscopes, hentered⟩ := Event.scopes_invoked hstill _ _ _ _
      have hsame := ih.same hscopes hentered
      rwa [← List.append_nil (List.filterMap _ _)] at hsame

/-! ## Where a run stops -/

/-- Whether evaluating one expression from an environment comes to evaluating another one, which is
it or a part of it, from some environment. -/
inductive Expr.Reaches : Expr → Env η → Expr → Env η → Prop
  | here {x e} : Reaches x e x e
  | value {target value location e y e'} (rest : Reaches value e y e') :
      Reaches (.define target value location) e y e'
  | callee {callee arguments location e y e'} (rest : Reaches callee e y e') :
      Reaches (.call callee arguments location) e y e'
  | argument (before) {callee x after location name function values e e₁ e₂ y e'}
      (evaluated : callee.eval.run.run e = (.ok (.native name function), e₁))
      (evaluated' : EvaluateTo before e₁ values e₂)
      (rest : Reaches x e₂ y e') :
      Reaches (.call callee (before ++ x :: after) location) e y e'

/-- Whether a run of a program comes to evaluating an expression. -/
def Program.Reaches (p : Program) (e : Env η) (y : Expr) (e' : Env η) : Prop :=
  ∃ before x after values e₁, p.exprs = before ++ x :: after ∧
    Expr.EvaluateTo before e values e₁ ∧ x.Reaches e₁ y e'

theorem Expr.evalAll_stops {before : List Expr} {x : Expr} {values : List (Value η)}
    {e e₁ e₂ : Env η} {err : EvalError} (hbefore : EvaluateTo before e values e₁)
    (hx : x.eval.run.run e₁ = (.error err, e₂)) (after : List Expr) :
    (evalAll (before ++ x :: after)).run.run e = (.error err, e₂) := by
  simp only [evalAll_append, evalAll, Action.run_bind, evalAll_ok_iff.mpr hbefore, hx]

theorem Expr.Reaches.stops {x y : Expr} {e e' e₂ : Env η} {err : EvalError} (h : x.Reaches e y e')
    (hy : y.eval.run.run e' = (.error err, e₂)) : x.eval.run.run e = (.error err, e₂) := by
  induction h with
  | here => exact hy
  | value _ ih | callee _ ih => rw [eval, Action.run_bind, ih hy]
  | argument before evaluated evaluated' _ ih =>
    have harguments := evalAll_stops evaluated' (ih hy)
    simp only [eval, Action.run_bind, evaluated, harguments]

theorem Program.Reaches.stops {p : Program} {y : Expr} {e e' e₂ : Env η} {err : EvalError}
    (h : p.Reaches e y e') (hy : y.eval.run.run e' = (.error err, e₂)) :
    p.eval.run.run e = (.error err, e₂) := by
  obtain ⟨before, x, after, values, e₁, hexprs, hbefore, hx⟩ := h
  have hall := Expr.evalAll_stops hbefore (hx.stops hy) after
  rw [eval, Action.run_bind, hexprs, hall]

/-- Running a program has the effects of an initial part of its calls and definitions in postorder,
each once and each as its parts were evaluated, and has no other effect; it has those of all if it
succeeds. The first error that is met is the outcome, as it was met. A call has no effect behind its
callee if that evaluates to what cannot be called. The scopes on the stack still exist behind a run;
while no native moves between scopes, a program that succeeds adds to the innermost one the names of
its definitions in postorder, all distinct and new there. -/
theorem effects_in_postorder (p : Program) (e : Env η) :
    (∃ effects, Course e effects ∧ (p.eval.run.run e).2 = e.after effects ∧
      Event.effects ((p.eval.run.run e).2.since e) = effects.map Effect.event ∧
      effects.map Effect.node <+: Expr.postorders p.exprs ∧
      ((p.eval.run.run e).1.isOk → effects.map Effect.node = Expr.postorders p.exprs)) ∧
    (∀ y e₁ err e₂, p.Reaches e y e₁ → y.eval.run.run e₁ = (.error err, e₂) →
      p.eval.run.run e = (.error err, e₂)) ∧
    (∀ callee arguments location e₁ v e₂,
      p.Reaches e (.call callee arguments location) e₁ →
      callee.eval.run.run e₁ = (.ok v, e₂) → v.isCallable = false →
      p.eval.run.run e =
        (.error ⟨.notCallable (callee.calleeName v), some callee.location⟩, e₂)) ∧
    (e.Sound → (p.eval.run.run e).2.Sound ∧
      (Host.Still η → (p.eval.run.run e).1.isOk →
        e.Gained (p.eval.run.run e).2 ((Expr.postorders p.exprs).filterMap Expr.target?))) := by
  have htraced : Action.Traced (Expr.postorders p.exprs) e (p.eval.run.run e) := by
    rw [← List.append_nil (Expr.postorders p.exprs)]
    exact Action.traced_bind (Expr.evalAll_traced p.exprs e) fun _ e₁ _ => Action.traced_idle _ e₁
  obtain ⟨effects, hcourse, henv, hprefix, hall⟩ := htraced
  have hnodes : (p.eval.run.run e).1.isOk → effects.map Effect.node = Expr.postorders p.exprs := by
    intro hok
    rcases hresult : (p.eval.run.run e).1 with err | v
    · rw [hresult] at hok
      cases hok
    · exact hall v hresult
  refine ⟨⟨effects, hcourse, henv, henv ▸ hcourse.since, hprefix, hnodes⟩, ?_, ?_, ?_⟩
  · intro y e₁ err e₂ hreaches hy
    exact hreaches.stops hy
  · intro callee arguments location e₁ v e₂ hreaches hcallee hv
    exact hreaches.stops (Expr.calls_nothing callee arguments location hcallee hv)
  · intro he
    refine ⟨henv ▸ hcourse.sound he, ?_⟩
    intro hstill hok
    rw [henv, ← hnodes hok]
    exact hcourse.gained hstill he.innermost

/-- A definition as an argument and a native of the host; a call of a number, and one of whose
arguments the first is not bound. -/
theorem effects_in_postorder_nested :
    let _ : Host Unit := ⟨fun _ arguments _ => ⟨[], .ok (arguments.headD .nothing)⟩⟩
    let e : Env Unit := ((Env.initial.defineNative "first" (.host ())).toOption).getD .initial
    let l : Location := ⟨0, 1, 1⟩
    let p : Program :=
      ((parse "(define x (first 1 2)) (debug x (define y 3))").toOption).getD ⟨l, []⟩
    let definition : Expr := .define ⟨"y", l⟩ (.integer 3 l) l
    let q : Program := ⟨l, [.call (.integer 1 l) [definition] l]⟩
    let r : Program := ⟨l, [.call (.symbol ⟨"debug", l⟩) [.symbol ⟨"z", l⟩, definition] l]⟩
    (∃ effects, Course e effects ∧ (p.eval.run.run e).2 = e.after effects ∧
      effects.map Effect.event = [.invoked "first" (.host ()) [.integer 1, .integer 2],
        .bound "x" (.integer 1) 1, .bound "y" (.integer 3) 1,
        .invoked "debug" .debug [.integer 1, .nothing]]) ∧
    e.Gained (p.eval.run.run e).2 ["x", "y"] ∧
    q.eval.run.run e = (.error ⟨.notCallable "1", some l⟩, e) ∧
    r.eval.run.run e = (.error ⟨.unbound "z", some l⟩, e) := by
  intro host e l p definition q r
  obtain ⟨⟨effects, hcourse, henv, hevents, -, -⟩, -, -, hgained⟩ := effects_in_postorder p e
  obtain ⟨-, -, hcall, -⟩ := effects_in_postorder q e
  obtain ⟨-, hstops, -, -⟩ := effects_in_postorder r e
  have hrecorded : Event.effects ((p.eval.run.run e).2.since e) =
      [.invoked "first" (.host ()) [.integer 1, .integer 2], .bound "x" (.integer 1) 1,
        .bound "y" (.integer 3) 1, .invoked "debug" .debug [.integer 1, .nothing]] := by
    decide +kernel
  have hnames : (Expr.postorders p.exprs).filterMap Expr.target? = ["x", "y"] := by decide +kernel
  refine ⟨⟨effects, hcourse, henv, hevents ▸ hrecorded⟩, ?_, ?_, ?_⟩
  · have hdefine : Env.initial.defineNative "first" (.host ()) = .ok e := rfl
    have hsound : e.Sound := Env.sound_initial.bind hdefine
    exact hnames ▸ (hgained hsound).2 (fun _ _ _ => rfl) (by decide +kernel)
  · have hreaches : q.Reaches e (.call (.integer 1 l) [definition] l) e :=
      ⟨[], _, [], [], e, rfl, .nil, .here⟩
    exact hcall _ _ _ _ _ _ hreaches rfl rfl
  · have hreaches : r.Reaches e (.symbol ⟨"z", l⟩) e :=
      ⟨[], _, [], [], e, rfl, .nil, .argument [] rfl .nil .here⟩
    exact hstops _ _ _ _ hreaches rfl

end SmallLisp

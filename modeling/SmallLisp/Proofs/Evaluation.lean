import Mathlib.Data.List.Basic
import SmallLisp.Eval
import SmallLisp.Proofs.Relocation

/-!
# Evaluation and places

A tree is evaluated alike wherever its text stands: the places in its errors move with it, unless a
native of the host gave them, and all else is the same. Remarks for the log make no difference
either, unless a native of the host looks at them.
-/
namespace SmallLisp

variable {η : Type}

def EvalError.relocate (f : Location → Location) (e : EvalError) : EvalError :=
  ⟨e.cause, e.location.map f⟩

theorem Expr.calleeName_relocate (f : Location → Location) (callee : Expr) (value : Value η) :
    (callee.relocate f).calleeName value = callee.calleeName value := by
  cases callee with
  | symbol | integer | text | define | call => rfl

theorem Expr.location_relocate (f : Location → Location) (e : Expr) :
    (e.relocate f).location = f e.location := by
  cases e with
  | symbol | integer | text | define | call => rfl

namespace Event

def isRemark : Event η → Bool
  | .noted _ => true
  | _ => false

/-- The events that are no remarks. -/
def deeds (events : List (Event η)) : List (Event η) := events.filter (!·.isRemark)

theorem output_deeds (events : List (Event η)) : output (deeds events) = output events := by
  have hlines : (deeds events).filterMap line? = events.filterMap line? := by
    rw [deeds, List.filterMap_filter]
    apply List.filterMap_congr
    intro event _
    cases event with
    | noted | bound | invoked | wrote => rfl
  rw [output, hlines, output]

end Event

theorem Scope.mem_of_get? {s : Scope η} {name : String} {value : Value η}
    (h : s.get? name = some value) : ∃ b ∈ s.bindings, b.2 = value := by
  obtain ⟨bindings⟩ := s
  rw [Scope.get?] at h
  induction bindings with
  | nil => cases h
  | cons b bindings ih =>
    obtain ⟨n, v⟩ := b
    rw [List.lookup_cons] at h
    split at h
    · exact ⟨(n, v), List.mem_cons_self, Option.some.inj h⟩
    · obtain ⟨b, hb, hvalue⟩ := ih h
      exact ⟨b, List.mem_cons_of_mem _ hb, hvalue⟩

theorem Action.run_bind {α β : Type} (x : Action η α) (k : α → Action η β) (e : Env η) :
    (x >>= k).run.run e =
      match x.run.run e with
      | (.ok a, e₁) => (k a).run.run e₁
      | (.error err, e₁) => (.error err, e₁) := by
  rcases hx : x.run.run e with ⟨err | a, e₁⟩
  · simp only [ExceptT.run_bind, StateT.run_bind, hx]
    rfl
  · simp only [ExceptT.run_bind, StateT.run_bind, hx]
    rfl

theorem Action.run_get {α : Type} (k : Env η → Action η α) (e : Env η) :
    (get >>= k).run.run e = (k e).run.run e := rfl

theorem Action.run_bind_ok {α β : Type} {x : Action η α} {k : α → Action η β} {e e₂ : Env η} {b : β}
    (h : (x >>= k).run.run e = (.ok b, e₂)) :
    ∃ a e₁, x.run.run e = (.ok a, e₁) ∧ (k a).run.run e₁ = (.ok b, e₂) := by
  rw [run_bind] at h
  rcases hx : x.run.run e with ⟨err | a, e₁⟩
  · rw [hx] at h
    cases h
  · rw [hx] at h
    exact ⟨a, e₁, rfl, h⟩

namespace Env

/-- Whether two environments differ in their remarks only. -/
structure Like (e e' : Env η) : Prop where
  scopes : e'.scopes = e.scopes
  entered : e'.entered = e.entered
  deeds : Event.deeds e'.history = Event.deeds e.history

theorem Like.eq {e e' : Env η} (h : e.Like e') : e' = { e with history := e'.history } := by
  obtain ⟨scopes, entered, history⟩ := e'
  obtain rfl : scopes = e.scopes := h.scopes
  obtain rfl : entered = e.entered := h.entered
  rfl

theorem Like.record {e e' : Env η} (h : e.Like e') (event : Event η) :
    (e.record event).Like (e'.record event) := by
  refine ⟨h.scopes, h.entered, ?_⟩
  have hdeeds := h.deeds
  simp only [Event.deeds, Env.record, List.filter_cons] at hdeeds ⊢
  rw [hdeeds]

theorem Like.remark {e e' : Env η} (h : e.Like e') (remark : String) :
    (e.record (.noted remark)).Like e' := ⟨h.scopes, h.entered, h.deeds⟩

theorem Like.remark_right {e e' : Env η} (h : e.Like e') (remark : String) :
    e.Like (e'.record (.noted remark)) := ⟨h.scopes, h.entered, h.deeds⟩

theorem Like.output {e e' : Env η} (h : e.Like e') :
    Event.output e.journal = Event.output e'.journal := by
  have hdeeds : Event.deeds e.journal = Event.deeds e'.journal := by
    rw [Event.deeds, Event.deeds, Env.journal, Env.journal, List.filter_reverse,
      List.filter_reverse]
    exact congrArg List.reverse h.deeds.symm
  rw [← Event.output_deeds, hdeeds, Event.output_deeds]

/-- Whether all values that are bound in some scope have a property. -/
def Binds (P : Value η → Prop) (e : Env η) : Prop := ∀ s ∈ e.scopes, ∀ b ∈ s.bindings, P b.2

theorem Binds.scope {P : Value η → Prop} {e : Env η} (h : e.Binds P) (number : Nat) :
    ∀ b ∈ (e.scope number).bindings, P b.2 := by
  intro b hb
  rw [Env.scope, List.getD_eq_getElem?_getD] at hb
  rcases hs : e.scopes[number]? with - | s
  · rw [hs] at hb
    cases hb
  · rw [hs] at hb
    exact h s (List.mem_of_getElem? hs) b hb

theorem Binds.resolve {P : Value η → Prop} {e : Env η} (h : e.Binds P) {name : String}
    {location : Option Location} {value : Value η} (hvalue : e.resolve name location = .ok value) :
    P value := by
  rw [Env.resolve] at hvalue
  split at hvalue
  · cases hvalue
  · rename_i found hfound
    cases hvalue
    obtain ⟨number, -, hget⟩ := List.exists_of_findSome?_eq_some hfound
    obtain ⟨b, hb, rfl⟩ := Scope.mem_of_get? hget
    exact h.scope number b hb

theorem Binds.bind {P : Value η → Prop} {e : Env η} (h : e.Binds P) {s : Scope η} {name : String}
    {value : Value η} (hvalue : P value) (hs : (e.scope e.innermost).bind? name value = some s) :
    Binds P { e with scopes := e.scopes.set e.innermost s } := by
  rw [Scope.bind?] at hs
  split_ifs at hs
  cases hs
  intro s' hs' b hb
  rcases List.mem_or_eq_of_mem_set hs' with hmem | rfl
  · exact h s' hmem b hb
  · rcases List.mem_append.mp hb with hb | hb
    · exact h.scope e.innermost b hb
    · rw [List.mem_singleton.mp hb]
      exact hvalue

end Env

namespace Action

theorem history_perform (move : Move η) (e : Env η) :
    ((perform move).run.run e).2.history = e.history := by
  cases move with
  | enter bindings => rfl
  | reenter number =>
    change (e.reenter number).history = e.history
    rw [Env.reenter]
    split_ifs
    · rfl
    · rfl
  | leave =>
    rw [perform, run_bind]
    obtain ⟨scopes, entered, history⟩ := e
    cases entered with
    | nil => rfl
    | cons number outer => rfl

/-- What each move keeps, a list of moves keeps, also one that breaks off. -/
theorem moves_preserve {P : Env η → Prop}
    (hperform : ∀ (move : Move η) (e : Env η), P e → P ((perform move).run.run e).2)
    (moves : List (Move η)) {e : Env η} (h : P e) : P ((moves.forM perform).run.run e).2 := by
  induction moves generalizing e with
  | nil => exact h
  | cons move moves ih =>
    change P ((perform move >>= fun _ => moves.forM perform).run.run e).2
    rw [run_bind]
    have hmove := hperform move e h
    rcases hrun : (perform move).run.run e with ⟨err | _, e₁⟩
    · rw [hrun] at hmove
      exact hmove
    · rw [hrun] at hmove
      exact ih hmove

theorem history_moves (moves : List (Move η)) (e : Env η) :
    ((moves.forM perform).run.run e).2.history = e.history := by
  apply moves_preserve (P := fun e' => e'.history = e.history) _ moves rfl
  intro move e' h
  exact (history_perform move e').trans h

end Action

variable [Host η]

/-- Whether the natives of the host see no remarks. -/
def Host.Steady (η : Type) [Host η] : Prop :=
  ∀ (function : η) (arguments : List (Value η)) (e e' : Env η), e.Like e' →
    Host.react function arguments e' = Host.react function arguments e

/-- Whether what was called last is a native of the host that raised the error. -/
def Host.Raised (e : Env η) (err : EvalError) : Prop :=
  ∃ name function arguments called,
    e.history.head? = some (.invoked name (.host function) arguments) ∧
      Env.history called = e.history ∧
      (Host.react function arguments called).result = .error err

/-- Whether a call of the value sees no remarks. -/
def Value.Tame : Value η → Prop
  | .native _ (.host _) => Host.Steady η
  | _ => True

theorem Value.tame_of_steady (h : Host.Steady η) (value : Value η) : value.Tame := by
  match value with
  | .native _ (.host _) => exact h
  | .native _ .debug | .integer _ | .text _ | .nothing | .deferred => trivial

namespace Env

def Tame (e : Env η) : Prop := ∀ s ∈ e.scopes, ∀ b ∈ s.bindings, b.2.Tame

/-- Whether programs are evaluated alike in two environments. -/
structure Alike (e e' : Env η) : Prop where
  like : e.Like e'
  tame : e.Tame

theorem tame_of_steady (h : Host.Steady η) (e : Env η) : e.Tame :=
  fun _ _ _ _ => Value.tame_of_steady h _

theorem tame_initial : (initial : Env η).Tame := by
  intro s hs b hb
  obtain rfl := List.mem_singleton.mp hs
  obtain rfl := List.mem_singleton.mp hb
  trivial

theorem Alike.record {e e' : Env η} (h : e.Alike e') (event : Event η) :
    (e.record event).Alike (e'.record event) := ⟨h.like.record event, h.tame⟩

theorem Alike.resolve {e e' : Env η} (h : e.Alike e') (f : Location → Location) (name : String)
    (location : Option Location) : e'.resolve name (location.map f) =
      (e.resolve name location).mapError (EvalError.relocate f) := by
  rw [h.like.eq, Env.resolve, Env.resolve]
  rcases hfound : e.stack.findSome? fun number => (e.scope number).get? name with - | value
  · simp only [stack, scope] at hfound ⊢
    rw [hfound]
    rfl
  · simp only [stack, scope] at hfound ⊢
    rw [hfound]
    rfl

theorem Alike.enter {e e' : Env η} (h : e.Alike e') (hsteady : Host.Steady η)
    (bindings : List (String × Value η)) : (e.enter bindings).Alike (e'.enter bindings) := by
  refine ⟨⟨?_, ?_, h.like.deeds⟩, tame_of_steady hsteady _⟩
  · rw [Env.enter, Env.enter, h.like.scopes]
  · rw [Env.enter, Env.enter, h.like.scopes, h.like.entered]

theorem Alike.reenter {e e' : Env η} (h : e.Alike e') (number : Nat) :
    (e.reenter number).Alike (e'.reenter number) := by
  rw [Env.reenter, Env.reenter, h.like.scopes]
  split_ifs
  · exact ⟨⟨rfl, congrArg (number :: ·) h.like.entered, h.like.deeds⟩, h.tame⟩
  · exact h

theorem Alike.bind {e e' : Env η} (h : e.Alike e') {name : String} {value : Value η}
    (hvalue : value.Tame) (f : Location → Location) (location : Option Location) :
    (∃ err, e.bind name value location = .error err ∧
      e'.bind name value (location.map f) = .error (err.relocate f)) ∨
    ∃ e₁ e₁', e.bind name value location = .ok e₁ ∧
      e'.bind name value (location.map f) = .ok e₁' ∧ e₁.Alike e₁' := by
  have hscope : e'.scope e'.innermost = e.scope e.innermost := by rw [h.like.eq]; rfl
  have hdepth : e'.stack.length = e.stack.length := by rw [h.like.eq]; rfl
  have hinnermost : e'.innermost = e.innermost := by rw [h.like.eq]; rfl
  simp only [Env.bind, hscope, hdepth]
  rcases hs : (e.scope e.innermost).bind? name value with - | s
  · exact .inl ⟨_, rfl, rfl⟩
  · have halike : Alike { e with scopes := e.scopes.set e.innermost s }
        { e' with scopes := e'.scopes.set e'.innermost s } := by
      refine ⟨⟨by rw [h.like.scopes, hinnermost], h.like.entered, h.like.deeds⟩, ?_⟩
      exact Binds.bind (P := Value.Tame) h.tame hvalue hs
    exact .inr ⟨_, _, rfl, rfl, halike.record _⟩

theorem Alike.leave {e e' : Env η} (h : e.Alike e') (f : Location → Location) :
    (∃ err, e.leave = .error err ∧ e'.leave = .error (err.relocate f)) ∨
    ∃ number e₁ e₁', e.leave = .ok (number, e₁) ∧ e'.leave = .ok (number, e₁') ∧ e₁.Alike e₁' := by
  simp only [Env.leave, h.like.entered]
  rcases hentered : e.entered with - | ⟨number, outer⟩
  · exact .inl ⟨_, rfl, rfl⟩
  · exact .inr ⟨number, _, _, rfl, rfl, ⟨h.like.scopes, rfl, h.like.deeds⟩, h.tame⟩

end Env

/-! ## Actions -/

namespace Action

variable {α β : Type}

/-- Whether the second outcome has the result of the first one with its place moved. What a native
of the host raises does not move. -/
inductive Moved (f : Location → Location) :
    Except EvalError α × Env η → Except EvalError α × Env η → Prop
  | ok {a e e'} : Moved f (.ok a, e) (.ok a, e')
  | error {err e e'} : Moved f (.error err, e) (.error (err.relocate f), e')
  | raised {err e e'} (raised : Host.Raised e err) : Moved f (.error err, e) (.error err, e')

/-- Whether `y` does from `e'` what `x` does from `e`, but for the places of errors, and a result is
as `post` says. -/
def AlikeFrom (f : Location → Location) (e e' : Env η) (x y : Action η α) (post : α → Prop) :
    Prop :=
  Moved f (x.run.run e) (y.run.run e') ∧
    (x.run.run e).2.Alike (y.run.run e').2 ∧ ∀ a, (x.run.run e).1 = .ok a → post a

def Alike (f : Location → Location) (x y : Action η α) (post : α → Prop) : Prop :=
  ∀ e e' : Env η, e.Alike e' → AlikeFrom f e e' x y post

variable {f : Location → Location}

theorem alike_pure {a : α} {post : α → Prop} (h : post a) :
    Alike f (pure a : Action η α) (pure a) post := by
  intro e e' he
  refine ⟨.ok, he, ?_⟩
  intro b hb
  cases hb
  exact h

theorem alike_throw (err : EvalError) (post : α → Prop) :
    Alike f (throw err : Action η α) (throw (err.relocate f)) post :=
  fun _ _ he => ⟨.error, he, fun _ hb => by cases hb⟩

theorem AlikeFrom.bind {e e' : Env η} {x y : Action η α} {k l : α → Action η β} {post : α → Prop}
    {post' : β → Prop} (hxy : AlikeFrom f e e' x y post)
    (hkl : ∀ a e₁ e₁', x.run.run e = (.ok a, e₁) → e₁.Alike e₁' → post a →
      AlikeFrom f e₁ e₁' (k a) (l a) post') :
    AlikeFrom f e e' (x >>= k) (y >>= l) post' := by
  obtain ⟨hresult, henv, hpost⟩ := hxy
  rw [AlikeFrom, run_bind, run_bind]
  rcases hx : x.run.run e with ⟨err | a, e₁⟩
  · rcases hy : y.run.run e' with ⟨err' | a', e₁'⟩
    · rw [hx, hy] at hresult henv
      cases hresult with
      | error => exact ⟨.error, henv, fun b hb => by cases hb⟩
      | raised raised => exact ⟨.raised raised, henv, fun b hb => by cases hb⟩
    · rw [hx, hy] at hresult
      cases hresult
  · rcases hy : y.run.run e' with ⟨err' | a', e₁'⟩
    · rw [hx, hy] at hresult
      cases hresult
    · rw [hx, hy] at hresult henv
      rw [hx] at hpost
      cases hresult
      exact hkl a e₁ e₁' hx henv (hpost a rfl)

theorem alike_bind {x y : Action η α} {k l : α → Action η β} {post : α → Prop} {post' : β → Prop}
    (hxy : Alike f x y post) (hkl : ∀ a, post a → Alike f (k a) (l a) post') :
    Alike f (x >>= k) (y >>= l) post' := by
  intro e e' he
  apply (hxy e e' he).bind
  intro a e₁ e₁' _ henv ha
  exact hkl a ha e₁ e₁' henv

theorem alike_get {k l : Env η → Action η β} {post : β → Prop}
    (h : ∀ e e' : Env η, e.Alike e' → AlikeFrom f e e' (k e) (l e') post) :
    Alike f (get >>= k) (get >>= l) post := fun e e' he => h e e' he

theorem alike_modify {change : Env η → Env η}
    (h : ∀ e e' : Env η, e.Alike e' → (change e).Alike (change e')) :
    Alike f (modify change : Action η Unit) (modify change) fun _ => True :=
  fun e e' he => ⟨.ok, h e e' he, fun _ _ => trivial⟩

theorem alike_resolve (name : String) (location : Option Location) :
    Alike f (resolve name location : Action η (Value η)) (resolve name (location.map f))
      Value.Tame := by
  apply alike_get
  intro e e' he
  rw [he.resolve]
  rcases hr : e.resolve name location with err | value
  · exact alike_throw err _ e e' he
  · exact alike_pure (Env.Binds.resolve (P := Value.Tame) he.tame hr) e e' he

theorem alike_define (name : String) {value : Value η} (hvalue : value.Tame)
    (location : Option Location) :
    Alike f (Action.bind name value location) (Action.bind name value (location.map f))
      fun _ => True := by
  apply alike_get
  intro e e' he
  rcases he.bind hvalue f location with ⟨err, hx, hy⟩ | ⟨e₁, e₁', hx, hy, halike⟩
  · rw [hx, hy]
    exact alike_throw err _ e e' he
  · rw [hx, hy]
    exact ⟨.ok, halike, fun _ _ => trivial⟩

theorem alike_perform (hsteady : Host.Steady η) (move : Move η) :
    Alike f (perform move) (perform move) fun _ => True := by
  cases move with
  | enter bindings => exact alike_modify fun e e' he => he.enter hsteady bindings
  | reenter number => exact alike_modify fun e e' he => he.reenter number
  | leave =>
    apply alike_get
    intro e e' he
    rcases he.leave f with ⟨err, hx, hy⟩ | ⟨number, e₁, e₁', hx, hy, halike⟩
    · rw [hx, hy]
      exact alike_throw err _ e e' he
    · rw [hx, hy]
      exact ⟨.ok, halike, fun _ _ => trivial⟩

theorem alike_moves (hsteady : Host.Steady η) (moves : List (Move η)) :
    Alike f (moves.forM perform) (moves.forM perform) fun _ => True := by
  induction moves with
  | nil => exact alike_pure trivial
  | cons move moves ih => exact alike_bind (alike_perform hsteady move) fun _ _ => ih

/-- What is left of a call once it is recorded. -/
def follow (reaction : Reaction η) : Action η (Value η) := do
  reaction.moves.forM perform
  match reaction.result with
  | .error err => throw err
  | .ok value => return value

theorem run_invoke {name : String} {function : η} {arguments : List (Value η)} {e called : Env η}
    (hcalled : e.record (.invoked name (.host function) arguments) = called) :
    (invoke name (.host function) arguments).run.run e =
      (follow (Host.react function arguments called)).run.run called := by
  rw [← hcalled]
  rfl

/-- What a native of the host raises comes out behind its moves. -/
theorem raised_of_moves {name : String} {function : η} {arguments : List (Value η)}
    {called e₁ : Env η}
    (hcalled : called.history.head? = some (.invoked name (.host function) arguments))
    (hmoves : ((Host.react function arguments called).moves.forM perform).run.run called =
      (.ok (), e₁)) {err : EvalError}
    (hresult : (Host.react function arguments called).result = .error err) :
    Host.Raised e₁ err := by
  have hhistory : called.history = e₁.history := by
    rw [← history_moves (Host.react function arguments called).moves called, hmoves]
  exact ⟨name, function, arguments, called, hhistory ▸ hcalled, hhistory, hresult⟩

theorem alike_follow (hsteady : Host.Steady η) {name : String} {function : η}
    {arguments : List (Value η)} {e e' : Env η} (he : e.Alike e')
    (hcalled : e.history.head? = some (.invoked name (.host function) arguments)) :
    AlikeFrom f e e' (follow (Host.react function arguments e))
      (follow (Host.react function arguments e)) Value.Tame := by
  apply (alike_moves hsteady _ e e' he).bind
  intro _ e₁ e₁' hmoves henv _
  rcases hresult : (Host.react function arguments e).result with err | value
  · exact ⟨.raised (raised_of_moves hcalled hmoves hresult), henv, fun _ hb => by cases hb⟩
  · exact alike_pure (Value.tame_of_steady hsteady value) e₁ e₁' henv

theorem alike_invoke (name : String) {function : Native η}
    (hfunction : (Value.native name function).Tame) (arguments : List (Value η)) :
    Alike f (invoke name function arguments) (invoke name function arguments) Value.Tame := by
  intro e e' he
  have hrecord := he.record (.invoked name function arguments)
  cases function with
  | debug => exact ⟨.ok, hrecord.record _, fun _ hb => by cases hb; trivial⟩
  | host function =>
    -- A native of the host is tame only if the whole host is steady.
    have hsteady : Host.Steady η := hfunction
    rw [AlikeFrom, run_invoke rfl, run_invoke rfl, hsteady function arguments _ _ hrecord.like]
    exact alike_follow hsteady hrecord rfl

end Action

/-! ## Trees -/

namespace Expr

variable (f : Location → Location)

theorem alike_notCallable (callee : Expr) (value : Value η) (post : Value η → Prop) :
    Action.Alike f
      (Action.fail (.notCallable (callee.calleeName value)) (some callee.location) :
        Action η (Value η))
      (Action.fail (.notCallable ((callee.relocate f).calleeName value))
        (some (callee.relocate f).location)) post := by
  rw [calleeName_relocate, location_relocate]
  exact Action.alike_throw _ _

mutual

/-- A tree is evaluated alike wherever its text stands. -/
theorem eval_alike : (e : Expr) →
    Action.Alike f (e.eval : Action η (Value η)) (e.relocate f).eval Value.Tame
  | .symbol s => Action.alike_resolve s.name (some s.location)
  | .integer value location => Action.alike_pure trivial
  | .text contents location => Action.alike_pure trivial
  | .define target value location => by
    apply Action.alike_bind (eval_alike value)
    intro v hv
    apply Action.alike_bind (Action.alike_define target.name hv (some location))
    intro _ _
    exact Action.alike_pure trivial
  | .call callee arguments location => by
    apply Action.alike_bind (eval_alike callee)
    intro v hv
    cases v with
    | native name function =>
      apply Action.alike_bind (evalAll_alike arguments)
      intro values _
      exact Action.alike_invoke name hv values
    | integer | text | nothing | deferred => exact alike_notCallable f callee _ _

theorem evalAll_alike : (es : List Expr) →
    Action.Alike f (evalAll es : Action η (List (Value η))) (evalAll (relocateAll f es))
      fun _ => True
  | [] => Action.alike_pure trivial
  | e :: es => by
    apply Action.alike_bind (eval_alike e)
    intro _ _
    apply Action.alike_bind (evalAll_alike es)
    intro _ _
    exact Action.alike_pure trivial

end

theorem evalAll_append (es fs : List Expr) :
    (evalAll (es ++ fs) : Action η (List (Value η))) =
      evalAll es >>= fun values => evalAll fs >>= fun rest => pure (values ++ rest) := by
  induction es with
  | nil => simp only [List.nil_append, evalAll, pure_bind, bind_pure]
  | cons e es ih =>
    simp only [List.cons_append, evalAll, ih, bind_assoc, pure_bind]

end Expr
end SmallLisp

import SmallLisp.Proofs.Blame
import SmallLisp.Proofs.Legible

/-!
# What is reported

A reporter shows a fault as one diagnostic, unless the fault is the end of the program. While an
interpreter only runs texts, no text makes it fail in a way that is not to be expected.
-/
namespace SmallLisp

open SmallLisp.Parser

variable {η : Type}

/-! ## Reports of faults -/

/-- The diagnostic that a fault is reported as, and whether it is an internal one. The end of the
program is not reported. -/
def Fault.reported? : Fault → Option (Diagnostic × Bool)
  | diagnostic d => some (d, false)
  | tooDeep =>
    some (⟨.general "maximum recursion depth exceeded (expression nested too deeply)", none⟩, false)
  | interrupted => some (⟨.general "keyboard interrupt", none⟩, false)
  | exit _ => none
  | internal kind text =>
    some (⟨.general ("unknown error: '" ++ kind ++ ": " ++ text ++ "'"), none⟩, true)

namespace Reporter

theorem handle_fatal {r : Reporter} (hfatal : r.fatal = true) {fault : Fault} {d : Diagnostic}
    {internal : Bool} (h : fault.reported? = some (d, internal)) :
    r.handle fault = ⟨r.render d internal ++ "\n", some (.exit (.code 1))⟩ := by
  cases fault with
  | exit status => cases h
  | diagnostic | tooDeep | interrupted | internal =>
    cases h
    simp [handle, report, hfatal]

theorem handle_spared {r : Reporter} (hspared : r.fatal = false) {fault : Fault} {d : Diagnostic}
    (h : fault.reported? = some (d, false)) :
    r.handle fault = ⟨r.render d false ++ "\n", none⟩ := by
  cases fault with
  | exit status => cases h
  | internal kind text => cases h
  | diagnostic | tooDeep | interrupted =>
    cases h
    simp [handle, report, hspared]

end Reporter

/-! ## Faults of texts -/

theorem ParseError.reported {err : ParseError} (h : err ≠ .notStarted) :
    ∃ d, err.fault.reported? = some (d, false) := by
  cases err with
  | refused | malformed | tooDeep => exact ⟨_, rfl⟩
  | notStarted => exact absurd rfl h

theorem EvalError.reported {err : EvalError} (h : err.cause ≠ .onlyGlobal) :
    ∃ d, err.fault.reported? = some (d, false) := by
  obtain ⟨cause, location⟩ := err
  cases cause with
  | onlyGlobal => exact absurd rfl h
  | alreadyBound | unbound | notCallable => exact ⟨_, rfl⟩

/-- A parser that parses a text has been started. -/
theorem ne_notStarted_of_parse {text : String} {err : ParseError} (h : parse text = .error err) :
    err ≠ .notStarted := by
  rw [parse_eq] at h
  rcases hall : Progress.start.feedAll (tokenize text).1 with err' | g
  · rw [hall] at h
    obtain rfl : err' = err := by simpa using h
    obtain ⟨us, t, vs, g, -, -, hrefused⟩ := Progress.feedAll_error hall
    rcases Progress.feed_error hrefused with ⟨cause, rfl⟩ | ⟨rfl, -⟩
    · simp
    · simp
  · rcases hstop : (tokenize text).2 with - | e
    · rw [hall, hstop] at h
      cases h
    · rw [hall, hstop] at h
      cases h
      simp

namespace Action

variable {α β : Type}

/-- Whether the errors of an action in a legible environment are those of texts: no scope is left
that was not entered. -/
def Expected (x : Action η α) : Prop :=
  ∀ (e : Env η) (err : EvalError), e.Legible → (x.run.run e).1 = .error err →
    err.cause ≠ .onlyGlobal

theorem expected_pure (a : α) : Expected (pure a : Action η α) := by
  intro e err he herr
  cases herr

theorem Expected.bind {x : Action η α} {k : α → Action η β} {post : α → Prop}
    (hx : Expected x) (hlegible : Legible post x) (hk : ∀ a, post a → Expected (k a)) :
    Expected (x >>= k) := by
  intro e err he herr
  have hfirst := hx e
  obtain ⟨henv, hpost⟩ := hlegible e he
  rw [run_bind] at herr
  rcases hrun : x.run.run e with ⟨err' | a, e₁⟩
  · rw [hrun] at hfirst herr
    cases herr
    exact hfirst err he rfl
  · rw [hrun] at henv hpost herr
    exact hk a (hpost a rfl) e₁ err henv herr

theorem expected_resolve (name : String) (location : Option Location) :
    Expected (resolve name location : Action η (Value η)) := by
  intro e err he herr
  rw [run_resolve] at herr
  cases Env.resolve_error herr
  simp

theorem expected_define (name : String) (value : Value η) (location : Option Location) :
    Expected (Action.bind name value location : Action η Unit) := by
  intro e err he herr
  rw [run_define] at herr
  rcases hbind : e.bind name value location with err' | e'
  · rw [hbind] at herr
    cases herr
    cases Env.bind_error hbind
    simp
  · rw [hbind] at herr
    cases herr

end Action

variable [Host η]

namespace Expr

open SmallLisp.Action

mutual

theorem eval_expected : (x : Expr) → x.WellFormed → Expected (x.eval : Action η (Value η))
  | .symbol s, _ => expected_resolve s.name (some s.location)
  | .integer .., _ => expected_pure _
  | .text .., _ => expected_pure _
  | .define target value location, h => by
    apply (eval_expected value h.2).bind (eval_legible value h.2)
    intro v hv
    apply (expected_define target.name v (some location)).bind
      (legible_define target.name hv (some location))
    intro _ _
    exact expected_pure _
  | .call callee arguments location, h => by
    apply (eval_expected callee h.2.1).bind (eval_legible callee h.2.1)
    intro v hv
    cases v with
    | native name function =>
      obtain ⟨rfl, rfl⟩ := hv
      apply (evalAll_expected arguments h.2.2).bind (evalAll_legible arguments h.2.2)
      intro values _ e err he herr
      cases herr
    | integer | text | nothing =>
      intro e err he herr
      cases herr
      simp
    | deferred => exact hv.elim

theorem evalAll_expected : (xs : List Expr) → AllWellFormed xs →
    Expected (evalAll xs : Action η (List (Value η)))
  | [], _ => expected_pure _
  | x :: xs, h => by
    apply (eval_expected x h.1).bind (eval_legible x h.1)
    intro v _
    apply (evalAll_expected xs h.2).bind (evalAll_legible xs h.2)
    intro values _
    exact expected_pure _

end

end Expr

theorem Program.eval_expected {p : Program} (h : p.WellFormed) :
    Action.Expected (p.eval : Action η (Value η)) := by
  apply (Expr.evalAll_expected p.exprs h).bind (Expr.evalAll_legible p.exprs h)
  intro _ _
  exact Action.expected_pure _

/-- A text that is run in a legible environment fails by a diagnostic. -/
theorem Interpreter.reported_of_runText {i : Interpreter η} (hi : i.env.Legible) {text : String}
    {fault : Fault} (h : (i.runText text).1 = .error fault) :
    ∃ d, fault.reported? = some (d, false) := by
  rcases hparse : parse text with err | p
  · rw [runText_refused hparse] at h
    cases h
    exact ParseError.reported (ne_notStarted_of_parse hparse)
  · rw [runText_parsed hparse] at h
    rcases heval : p.eval.run.run (i.prepare p) with ⟨err | v, env⟩
    · rw [heval] at h
      cases h
      apply EvalError.reported
      exact Program.eval_expected (wellFormed_of_parse hparse) _ err (legible_prepare hi p)
        (congrArg Prod.fst heval)
    · rw [heval] at h
      cases h

end SmallLisp

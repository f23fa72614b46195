import SmallLisp.Proofs.Failures
import SmallLisp.Proofs.Rows
import SmallLisp.Proofs.Yield

/-!
# What reports point at

An error that ends a run has the place of a token of the text, unless the text cannot be cut into
tokens there. While nobody else uses the reporter, a report quotes the line with that token and
marks its first character.
-/
namespace SmallLisp

open SmallLisp.Lexeme SmallLisp.Parser

variable {η : Type}

/-! ## What evaluation blames -/

/-- Whether an error with the cause, met in evaluating the first expression, is blamed on the
second. -/
inductive Expr.Blames : Expr → EvalError.Cause → Expr → Prop
  | unbound (s : Symbol) : Blames (.symbol s) (.unbound s.name) (.symbol s)
  | alreadyBound (target : Symbol) (value : Expr) (location : Location) :
      Blames (.define target value location) (.alreadyBound target.name)
        (.define target value location)
  | notCallable (callee : Expr) (arguments : List Expr) (location : Location) (name : String) :
      Blames (.call callee arguments location) (.notCallable name) callee

/-- Whether `x` fails with `err` by itself, not in one of its parts, for which `y` is blamed. -/
structure Expr.Fails [Host η] (x : Expr) (e : Env η) (err : EvalError) (y : Expr) : Prop where
  fails : (x.eval.run.run e).1 = .error err
  blames : x.Blames err.cause y
  location : err.location = some y.location

theorem Env.bind_error {e : Env η} {name : String} {value : Value η} {location : Option Location}
    {err : EvalError} (h : e.bind name value location = .error err) :
    err = ⟨.alreadyBound name, location⟩ := by
  rw [Env.bind] at h
  split at h
  · exact (Except.error.inj h).symm
  · cases h

theorem Env.resolve_error {e : Env η} {name : String} {location : Option Location}
    {err : EvalError} (h : e.resolve name location = .error err) :
    err = ⟨.unbound name, location⟩ := by
  rw [Env.resolve] at h
  split at h
  · exact (Except.error.inj h).symm
  · cases h

namespace Action

/-- Whether the errors of an action have no place. -/
def Placeless {α : Type} (x : Action η α) : Prop :=
  ∀ (e : Env η) (err : EvalError), (x.run.run e).1 = .error err → err.location = none

theorem Placeless.bind {α β : Type} {x : Action η α} {k : α → Action η β} (hx : Placeless x)
    (hk : ∀ a, Placeless (k a)) : Placeless (x >>= k) := by
  intro e err h
  have hfirst := hx e
  rw [run_bind] at h
  rcases hrun : x.run.run e with ⟨err' | a, e₁⟩
  · rw [hrun] at h hfirst
    cases h
    exact hfirst err rfl
  · rw [hrun] at h
    exact hk a e₁ err h

theorem placeless_perform (move : Move η) : Placeless (perform move) := by
  intro e err h
  cases move with
  | enter bindings => cases h
  | reenter number => cases h
  | leave =>
    obtain ⟨scopes, entered, history⟩ := e
    cases entered with
    | nil =>
      cases h
      rfl
    | cons number outer => cases h

theorem placeless_moves (moves : List (Move η)) : Placeless (moves.forM perform) := by
  induction moves with
  | nil =>
    intro e err h
    cases h
  | cons move moves ih => exact (placeless_perform move).bind fun _ => ih

theorem placeless_follow {reaction : Reaction η}
    (h : ∀ err, reaction.result = .error err → err.location = none) :
    Placeless (follow reaction) := by
  apply (placeless_moves reaction.moves).bind
  intro _ e err herr
  rcases hresult : reaction.result with err' | value
  · rw [hresult] at herr
    cases herr
    exact h err hresult
  · rw [hresult] at herr
    cases herr

end Action

variable [Host η]

/-- Whether the errors that natives of the host raise have no place. -/
def Host.Placeless (η : Type) [Host η] : Prop :=
  ∀ (function : η) (arguments : List (Value η)) (e : Env η) (err : EvalError),
    (Host.react function arguments e).result = .error err → err.location = none

theorem Action.placeless_invoke (hplaceless : Host.Placeless η) (name : String)
    (function : Native η) (arguments : List (Value η)) :
    Placeless (invoke name function arguments) := by
  intro e err h
  cases function with
  | debug => cases h
  | host function =>
    rw [run_invoke rfl] at h
    exact placeless_follow (hplaceless function arguments _) _ err h

namespace Expr

mutual

/-- An error with a place comes from an expression that is reached and fails by itself. -/
theorem eval_fails (hplaceless : Host.Placeless η) : (x : Expr) → ∀ {e e' : Env η}
    {err : EvalError}, x.eval.run.run e = (.error err, e') → err.location ≠ none →
    ∃ z e₁ y, x.Reaches e z e₁ ∧ z.Fails e₁ err y
  | .symbol s, e, e', err, h, hlocation => by
    have hfails := congrArg Prod.fst h
    rw [Expr.eval, Action.run_resolve] at h
    cases Env.resolve_error (congrArg Prod.fst h)
    exact ⟨_, e, _, .here, hfails, .unbound s, rfl⟩
  | .integer .., e, e', err, h, hlocation => by cases h
  | .text .., e, e', err, h, hlocation => by cases h
  | .define target value location, e, e', err, h, hlocation => by
    have hfails := congrArg Prod.fst h
    rw [Expr.eval, Action.run_bind] at h
    rcases heval : value.eval.run.run e with ⟨err₁ | v, e₁⟩
    · rw [heval] at h
      cases h
      obtain ⟨z, e₁, y, hreaches, hz⟩ := eval_fails hplaceless value heval hlocation
      exact ⟨z, e₁, y, .value hreaches, hz⟩
    · simp only [heval, Action.run_bind, Action.run_define] at h
      rcases hbind : e₁.bind target.name v (some location) with err₁ | e₂
      · rw [hbind] at h
        cases h
        cases Env.bind_error hbind
        exact ⟨_, e, _, .here, hfails, .alreadyBound target value location, rfl⟩
      · rw [hbind] at h
        cases h
  | .call callee arguments location, e, e', err, h, hlocation => by
    have hfails := congrArg Prod.fst h
    rcases heval : callee.eval.run.run e with ⟨err₁ | v, e₁⟩
    · rw [Expr.eval, Action.run_bind, heval] at h
      cases h
      obtain ⟨z, e₁, y, hreaches, hz⟩ := eval_fails hplaceless callee heval hlocation
      exact ⟨z, e₁, y, .callee hreaches, hz⟩
    by_cases hv : v.isCallable = false
    · rw [calls_nothing callee arguments location heval hv] at h
      cases h
      exact ⟨_, e, callee, .here, hfails, .notCallable callee arguments location _, rfl⟩
    · cases v with
      | native name function =>
        simp only [Expr.eval, Action.run_bind, heval] at h
        rcases hvalues : (evalAll arguments).run.run e₁ with ⟨err₁ | values, e₂⟩
        · rw [hvalues] at h
          cases h
          obtain ⟨before, x, after, values, e₃, z, e₄, y, rfl, hbefore, hreaches, hz⟩ :=
            evalAll_fails hplaceless arguments hvalues hlocation
          exact ⟨z, e₄, y, .argument before heval hbefore hreaches, hz⟩
        · -- Behind all arguments only the native itself can fail, and its errors have no place.
          rw [hvalues] at h
          have hnone := Action.placeless_invoke hplaceless name function values e₂ err
            (congrArg Prod.fst h)
          exact absurd hnone hlocation
      | integer | text | nothing | deferred => exact absurd rfl hv

theorem evalAll_fails (hplaceless : Host.Placeless η) : (xs : List Expr) → ∀ {e e' : Env η}
    {err : EvalError}, (evalAll xs).run.run e = (.error err, e') → err.location ≠ none →
    ∃ before x after values e₁ z e₂ y, xs = before ++ x :: after ∧
      EvaluateTo before e values e₁ ∧ x.Reaches e₁ z e₂ ∧ z.Fails e₂ err y
  | [], e, e', err, h, hlocation => by cases h
  | x :: xs, e, e', err, h, hlocation => by
    rcases heval : x.eval.run.run e with ⟨err₁ | v, e₁⟩
    · rw [evalAll, Action.run_bind, heval] at h
      cases h
      obtain ⟨z, e₁, y, hreaches, hz⟩ := eval_fails hplaceless x heval hlocation
      exact ⟨[], x, xs, [], e, z, e₁, y, rfl, .nil, hreaches, hz⟩
    · simp only [evalAll, Action.run_bind, heval] at h
      rcases hvalues : (evalAll xs).run.run e₁ with ⟨err₁ | values, e₂⟩
      · rw [hvalues] at h
        cases h
        obtain ⟨before, x', after, values, e₂, z, e₃, y, rfl, hbefore, hreaches, hz⟩ :=
          evalAll_fails hplaceless xs hvalues hlocation
        exact ⟨x :: before, x', after, v :: values, e₂, z, e₃, y, rfl, .cons heval hbefore,
          hreaches, hz⟩
      · rw [hvalues] at h
        cases h

end

end Expr

theorem Program.eval_fails (hplaceless : Host.Placeless η) {p : Program} {e : Env η}
    {err : EvalError} (h : (p.eval.run.run e).1 = .error err) (hlocation : err.location ≠ none) :
    ∃ z e₁ y, p.Reaches e z e₁ ∧ z.Fails e₁ err y := by
  rw [eval, Action.run_bind] at h
  rcases hvalues : (Expr.evalAll p.exprs).run.run e with ⟨err₁ | values, e'⟩
  · rw [hvalues] at h
    cases h
    obtain ⟨before, x, after, values, e₁, z, e₂, y, hexprs, hbefore, hreaches, hz⟩ :=
      Expr.evalAll_fails hplaceless p.exprs hvalues hlocation
    exact ⟨z, e₂, y, ⟨before, x, after, values, e₁, hexprs, hbefore, hreaches⟩, hz⟩
  · rw [hvalues] at h
    cases h

/-! ## Tokens of a part -/

namespace Expr

/-- An expression starts with a token of its place. -/
theorem exists_yield (x : Expr) :
    ∃ kind ms, x.yield = ⟨kind, some x.location⟩ :: ms ∧ kind ≠ .eof := by
  cases x with
  | symbol | integer | text | define | call => exact ⟨_, _, rfl, Token.Kind.noConfusion⟩

theorem yield_infix_yields {x : Expr} {xs : List Expr} (h : x ∈ xs) : x.yield <:+: yields xs := by
  obtain ⟨before, after, rfl⟩ := List.append_of_mem h
  rw [yields_append, yields_cons, ← List.append_assoc]
  exact List.infix_append _ _ _

theorem Reaches.yield_infix {x y : Expr} {e e' : Env η} (h : x.Reaches e y e') :
    y.yield <:+: x.yield := by
  induction h with
  | here => exact List.infix_rfl
  | value _ ih =>
    rw [yield]
    exact ih.trans (List.infix_append _ _ _)
  | callee _ ih =>
    rw [yield, List.append_assoc]
    exact ih.trans (List.infix_append _ _ _)
  | argument before _ _ _ ih =>
    rw [yield]
    refine (ih.trans (yield_infix_yields ?_)).trans (List.infix_append _ _ _)
    exact List.mem_append_right before List.mem_cons_self

theorem Blames.yield_infix {x y : Expr} {cause : EvalError.Cause} (h : x.Blames cause y) :
    y.yield <:+: x.yield := by
  cases h with
  | unbound | alreadyBound => exact List.infix_rfl
  | notCallable =>
    rw [yield, List.append_assoc]
    exact List.infix_append _ _ _

end Expr

theorem Recorded.exists_of_mem {ts : List Token} {ms : List Mark} (h : Recorded ts ms) {m : Mark}
    (hm : m ∈ ms) : ∃ t ∈ ts, t.Fits m := by
  obtain ⟨before, after, rfl⟩ := List.append_of_mem hm
  obtain ⟨us, vs, rfl, -, hvs⟩ := h.split
  obtain ⟨t, ts, ht, -, rfl⟩ := List.forall₂_cons_right_iff.mp hvs
  exact ⟨t, List.mem_append_right us List.mem_cons_self, ht⟩

/-- A part that is blamed stands in the text. -/
theorem exists_token_of_fails {text : String} {p : Program} (hparse : parse text = .ok p)
    {e e₁ : Env η} {z y : Expr} {err : EvalError} (hreaches : p.Reaches e z e₁)
    (hz : z.Fails e₁ err y) :
    ∃ t ∈ (tokenize text).1, t.kind ≠ .eof ∧ t.location = y.location ∧
      y.yield.head? = some ⟨t.kind, some t.location⟩ := by
  obtain ⟨ts, htokens, hrecorded⟩ := recorded_of_parse hparse
  obtain ⟨before, x, after, values, e₂, hexprs, -, hx⟩ := hreaches
  have hmem : x ∈ p.exprs := by simp [hexprs]
  have hinfix := (hz.blames.yield_infix.trans hx.yield_infix).trans (Expr.yield_infix_yields hmem)
  obtain ⟨kind, ms, hyield, hkind⟩ := y.exists_yield
  have hmark : ⟨kind, some y.location⟩ ∈ Expr.yields p.exprs := hinfix.subset (by simp [hyield])
  obtain ⟨t, ht, hfits⟩ := hrecorded.exists_of_mem (List.mem_append_left _ hmark)
  have hlocation : t.location = y.location := hfits.2 _ rfl
  refine ⟨t, by rwa [htokens], by rwa [hfits.1], hlocation, ?_⟩
  rw [hyield, hlocation, hfits.1]
  rfl

/-! ## Reports -/

/-- Whether a problem is that the text ends, at the place `p`, where it may not. -/
def EndsEarly (text : String) (problem : Problem) (p : Location) : Prop :=
  ∃ us g cause, (tokenize text).1 = us ++ [⟨.eof, p⟩] ∧ Progress.start.feedAll us = .ok g ∧
    g.feed ⟨.eof, p⟩ = .error (.refused cause p) ∧ problem = .syntactic cause.message

theorem Reporter.register_alone {r : Reporter} {path : String} {old : Option String}
    (h : r.sources = [(path, old)]) (text : Option String) :
    (r.register path text).sources = [(path, text)] := by
  simp [Reporter.register, h, Keyed.put]

namespace Interpreter

/-- Whether a problem of running `text` is with what stands behind its characters `done`, and starts
`rest`: that no token can be taken there, that the token there cannot follow those in front of it,
or that evaluation blames the expression that starts there. -/
inductive Offends (i : Interpreter η) (text : String) : Problem → List Char → List Char → Prop
  | lexeme {done rest cause} (stops : (tokenize text).2 = some ⟨cause, .ofNext done⟩)
      (faulty : Faulty rest cause) : Offends i text (.malformed cause.message) done rest
  | token {us t vs g cause done rest w} (tokens : (tokenize text).1 = us ++ t :: vs)
      (taken : Progress.start.feedAll us = .ok g)
      (refused : g.feed t = .error (.refused cause t.location))
      (place : t.location = .ofNext done) (munch : Munch rest w t.kind) :
      Offends i text (.syntactic cause.message) done rest
  | expression {p z e err y kind done rest w} (parsed : parse text = .ok p)
      (reaches : p.Reaches (i.prepare p) z e) (fails : z.Fails e err y)
      (place : y.location = .ofNext done) (starts : y.yield.head? = some ⟨kind, some y.location⟩)
      (munch : Munch rest w kind) : Offends i text (.eval err.cause) done rest

/-- The interpreters that come about in use when nobody else uses their reporter. -/
inductive Alone : Interpreter η → Prop
  | start {fatal color path typed showTree i}
      (started : start ⟨fatal, color, []⟩ path typed showTree = .ok i) : Alone i
  | step {i i'} (before : Alone i) (step : Step i i') : Alone i'

theorem Alone.sources {i : Interpreter η} (h : i.Alone) :
    ∃ text, i.reporter.sources = [(i.path, text)] := by
  -- Only the path of the interpreter is ever registered, so its text is replaced, not joined.
  induction h with
  | @start fatal color path typed showTree i started =>
    rw [Interpreter.start] at started
    split_ifs at started with hreserved
    cases started
    cases typed with
    | false | true => exact ⟨none, rfl⟩
  | @step i i' before step ih =>
    obtain ⟨old, hold⟩ := ih
    cases step with
    | operate op => exact ⟨old, hold⟩
    | load files =>
      rw [Interpreter.load]
      split
      · exact ⟨old, hold⟩
      · split
        · exact ⟨old, hold⟩
        · exact ⟨old, hold⟩
    | run text =>
      obtain ⟨hreporter, hpath⟩ := i.reporter_runText text
      rw [hreporter, hpath]
      exact ⟨some text, Reporter.register_alone hold (some text)⟩

end Interpreter

/-- The reporter without colours. -/
def Reporter.plain (r : Reporter) : Reporter := { r with color := false }

/-- The report of a run that ended at `p` quotes the line that is there. -/
theorem Interpreter.Alone.render {i i' : Interpreter η} (hi : i.Alone) {text : String}
    {result : Except Fault Program} (hrun : i.runText text = (result, i')) {d : Diagnostic}
    {p : Location} (hd : d.location = some p) {line : List Char} (hrow : 1 ≤ p.row)
    (hline : (Lines.split text.toList)[(p.row - 1).toNat]? = some line) :
    i'.reporter.plain.render d false =
      i.path ++ ":" ++ p.text ++ ": " ++ d.kind ++ ": " ++ d.message ++ "\n  " ++
        String.ofList (Lines.trimEnd line) ++ "\n  " ++
        String.ofList (List.replicate (p.col - 1).toNat ' ') ++ "^" := by
  obtain ⟨old, hold⟩ := hi.sources
  obtain ⟨hreporter, -⟩ := i.reporter_runText text
  rw [hrun] at hreporter
  have hsources : i'.reporter.sources = [(i.path, some text)] := by
    rw [hreporter]
    exact Reporter.register_alone hold (some text)
  have hquoted : Lines.row? text p.row = some (String.ofList (Lines.trimEnd line)) := by
    rw [Lines.row?, if_pos hrow, hline]
    rfl
  have hbreak : "\n" ++ "  " = "\n  " := by decide
  simp only [Reporter.plain, Reporter.render, Reporter.bold, Reporter.alarm, Reporter.position,
    Reporter.excerpt, Reporter.path, Reporter.line?, Reporter.text?, Reporter.quote, hd, hsources,
    hquoted, List.getLast?_singleton, Option.map_some, Option.getD_some, Option.bind_some]
  simp only [Bool.false_eq_true, if_false, String.append_empty, ← String.append_assoc, hbreak]

/-! ## What ends a run -/

theorem EvalError.of_fault {err : EvalError} {d : Diagnostic} (h : err.fault = .diagnostic d) :
    d = ⟨.eval err.cause, err.location⟩ := by
  obtain ⟨cause, location⟩ := err
  cases cause with
  | onlyGlobal => cases h
  | alreadyBound | unbound | notCallable => exact (Fault.diagnostic.inj h).symm

namespace Interpreter

/-- Whether a run of `text` is ended by what stands at `p`: by the end of the text, or by what
starts there. -/
def EndedAt (i : Interpreter η) (text : String) (problem : Problem) (p : Location) : Prop :=
  (EndsEarly text problem p ∧ p = .ofLast text.toList) ∨
    ∃ done rest, text.toList = done ++ rest ∧ p = .ofNext done ∧ i.Offends text problem done rest

theorem endedAt_of_refused (i : Interpreter η) {text : String} {cause : ParseError.Cause}
    {p : Location} (hparse : parse text = .error (.refused cause p)) :
    i.EndedAt text (.syntactic cause.message) p := by
  obtain ⟨us, t, vs, g, htokens, htaken, hrefused, -⟩ := refused_of_parse hparse
  obtain rfl : p = t.location := by
    rcases Progress.feed_error hrefused with ⟨cause', heq⟩ | ⟨heq, -⟩
    · cases heq
      rfl
    · cases heq
  have hmem : t ∈ (tokenize text).1 := by simp [htokens]
  rcases (cuts_tokenize text).place_of_mem t hmem with
    ⟨hkind, hplace⟩ | ⟨done, rest, w, htext, hplace, hmunch⟩
  · obtain ⟨kind, location⟩ := t
    obtain rfl : kind = .eof := hkind
    have hstop : tokenize text = (us ++ ⟨.eof, location⟩ :: vs, (tokenize text).2) :=
      Prod.ext htokens rfl
    obtain ⟨rfl, -⟩ := eof_last_of_tokenize hstop rfl
    exact .inl ⟨⟨us, g, cause, htokens, htaken, hrefused, rfl⟩, hplace⟩
  · exact .inr ⟨done, rest, htext, hplace, .token htokens htaken hrefused hplace hmunch⟩

theorem endedAt_of_malformed (i : Interpreter η) {text : String} {e : LexError}
    (hparse : parse text = .error (.malformed e)) :
    i.EndedAt text (.malformed e.message) e.location := by
  obtain ⟨ts, g, htokens, -⟩ := exists_reading_of_malformed hparse
  have hcuts := cuts_tokenize text
  rw [htokens] at hcuts
  obtain ⟨done, rest, htext, hplace, hfaulty⟩ := hcuts.place_of_error
  obtain ⟨cause, location⟩ := e
  obtain rfl : location = .ofNext done := hplace
  exact .inr ⟨done, rest, htext, rfl, .lexeme (by rw [htokens]) hfaulty⟩

theorem endedAt_of_eval (hplaceless : Host.Placeless η) {i : Interpreter η} {text : String}
    {program : Program} (hparse : parse text = .ok program) {err : EvalError}
    (heval : (program.eval.run.run (i.prepare program)).1 = .error err) {p : Location}
    (hp : err.location = some p) : i.EndedAt text (.eval err.cause) p := by
  obtain ⟨z, e, y, hreaches, hz⟩ :=
    Program.eval_fails hplaceless heval (by simp [hp])
  obtain rfl : y.location = p := Option.some.inj (hz.location.symm.trans hp)
  obtain ⟨t, ht, hkind, hlocation, hstarts⟩ := exists_token_of_fails hparse hreaches hz
  rcases (cuts_tokenize text).place_of_mem t ht with
    ⟨heof, -⟩ | ⟨done, rest, w, htext, hplace, hmunch⟩
  · exact absurd heof hkind
  · rw [hlocation] at hplace hstarts
    exact .inr ⟨done, rest, htext, hplace, .expression hparse hreaches hz hplace hstarts hmunch⟩

theorem endedAt_of_runText (hplaceless : Host.Placeless η) {i i' : Interpreter η} {text : String}
    {d : Diagnostic} {p : Location} (hrun : i.runText text = (.error (.diagnostic d), i'))
    (hd : d.location = some p) : i.EndedAt text d.problem p := by
  rcases hparse : parse text with err | program
  · rw [runText_refused hparse] at hrun
    have hfault : err.fault = .diagnostic d := Except.error.inj (congrArg Prod.fst hrun)
    cases err with
    | refused cause location =>
      cases hfault
      cases hd
      exact i.endedAt_of_refused hparse
    | malformed e =>
      cases hfault
      cases hd
      exact i.endedAt_of_malformed hparse
    | tooDeep => cases hfault
    | notStarted => cases hfault
  · rw [runText_parsed hparse] at hrun
    rcases heval : program.eval.run.run (i.prepare program) with ⟨err | v, env⟩
    · rw [heval] at hrun
      have hfault : err.fault = .diagnostic d := Except.error.inj (congrArg Prod.fst hrun)
      obtain rfl := EvalError.of_fault hfault
      exact endedAt_of_eval hplaceless hparse (congrArg Prod.fst heval) hd
    · rw [heval] at hrun
      cases hrun

theorem Offends.head_noBlank {i : Interpreter η} {text : String} {problem : Problem}
    {done rest : List Char} (h : i.Offends text problem done rest) :
    ∃ c cs, rest = c :: cs ∧ isBlank c = false := by
  cases h with
  | lexeme _ faulty => exact faulty.head_noBlank
  | token _ _ _ _ munch => exact munch.head_noBlank
  | expression _ _ _ _ _ munch => exact munch.head_noBlank

theorem EndedAt.row {i : Interpreter η} {text : String} {problem : Problem} {p : Location}
    (h : i.EndedAt text problem p) : 1 ≤ p.row ∧ p.row ≤ (Lines.split text.toList).length := by
  rcases h with ⟨-, rfl⟩ | ⟨done, rest, htext, rfl, hoffends⟩
  · exact Location.row_ofLast text.toList
  · obtain ⟨c, cs, rfl, hc⟩ := hoffends.head_noBlank
    rw [htext]
    exact (Location.marks_ofNext hc done cs).row

end Interpreter

/-- Reports always point at what they are about. While an interpreter has its reporter for itself
and the natives of the host raise no error with a place, an error with a place that ends a run is in
a row that the text has. The report names it and quotes this row of the text that was run, and puts
the mark below its column. Unless the text ends where it may not, the mark is below the first
character of what is wrong, which is also the one that the offset of the place picks. -/
theorem reports_point (hplaceless : Host.Placeless η) {i i' : Interpreter η} (hi : i.Alone)
    {text : String} {d : Diagnostic} {p : Location}
    (hrun : i.runText text = (.error (.diagnostic d), i')) (hd : d.location = some p) :
    (1 ≤ p.row ∧ p.row ≤ (Lines.split text.toList).length) ∧
    (∃ line, (Lines.split text.toList)[(p.row - 1).toNat]? = some line ∧
      i'.reporter.plain.render d false =
        i.path ++ ":" ++ p.text ++ ": " ++ d.kind ++ ": " ++ d.message ++ "\n  " ++
          String.ofList (Lines.trimEnd line) ++ "\n  " ++
          String.ofList (List.replicate (p.col - 1).toNat ' ') ++ "^") ∧
    ((EndsEarly text d.problem p ∧ p = .ofLast text.toList) ∨
      ∃ done c rest, text.toList = done ++ c :: rest ∧ p = .ofNext done ∧
        i.Offends text d.problem done (c :: rest) ∧ p.Marks text.toList c) := by
  have hended : i.EndedAt text d.problem p := Interpreter.endedAt_of_runText hplaceless hrun hd
  have hrow := hended.row
  refine ⟨hrow, ?_, ?_⟩
  · have hlt : (p.row - 1).toNat < (Lines.split text.toList).length := by omega
    have hline := List.getElem?_eq_getElem hlt
    exact ⟨_, hline, hi.render hrun hd hrow.1 hline⟩
  · rcases hended with hearly | ⟨done, rest, htext, hplace, hoffends⟩
    · exact .inl hearly
    · obtain ⟨c, cs, rfl, hc⟩ := hoffends.head_noBlank
      refine .inr ⟨done, c, cs, htext, hplace, hoffends, ?_⟩
      rw [htext, hplace]
      exact Location.marks_ofNext hc done cs

/-- A name that an earlier text has bound, in a line that ends with a carriage return. -/
theorem reports_point_rebound :
    let _ : Host Unit := ⟨fun _ _ _ => ⟨[], .error ⟨.unbound "x", none⟩⟩⟩
    let i₀ : Interpreter Unit := .create ⟨true, true, []⟩ "file" false false
    let i := (i₀.runText "(define a 1)").2
    let text := "(debug a)\n  (define a 2)\r\n"
    let p : Location := ⟨12, 2, 3⟩
    let d : Diagnostic := ⟨.eval (.alreadyBound "a"), some p⟩
    (i.runText text).2.reporter.plain.render d false =
      "file:2:3: AlreadyBound: 'a' is already bound in this scope\n    (define a 2)\n    ^" ∧
      p.Marks text.toList '(' := by
  intro host i₀ i text p d
  have hplaceless : Host.Placeless Unit := by
    intro function arguments e err h
    cases h
    rfl
  have hstart : Interpreter.start ⟨true, true, []⟩ "file" false false = .ok i₀ := rfl
  have hi : i.Alone := .step (.start hstart) (.run i₀ "(define a 1)")
  have hresult : (i.runText text).1 = .error (.diagnostic d) := by decide +kernel
  have hrun : i.runText text = (.error (.diagnostic d), (i.runText text).2) :=
    Prod.ext hresult rfl
  obtain ⟨-, ⟨line, hline, hreport⟩, hend⟩ := reports_point hplaceless hi hrun rfl
  refine ⟨?_, ?_⟩
  · have hsplit : (Lines.split text.toList)[(p.row - 1).toNat]? =
        some "  (define a 2)\r".toList := by
      decide +kernel
    obtain rfl := Option.some.inj (hline.symm.trans hsplit)
    rw [hreport]
    decide +kernel
  · rcases hend with ⟨⟨us, g, cause, -, -, -, hproblem⟩, -⟩ | ⟨done, c, rest, -, -, -, hmarks⟩
    · cases hproblem
    · have hc : text.toList[p.offset.toNat]? = some '(' := by decide +kernel
      obtain rfl : '(' = c := Option.some.inj (hc.symm.trans hmarks.offset.2)
      exact hmarks

end SmallLisp

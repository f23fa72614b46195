import Mathlib.Logic.Relation
import SmallLisp.Proofs.Reading

/-!
# Parsing by recursive descent

The parser keeps the forms that are open on a stack. Here a text is read by functions that call one
another instead: one for an expression, one for each kind of form, and a loop for each row of
expressions. Every request for a token is noted. How many calls may be open at once is bounded, but
the bound is never met where there are fewer tokens left: there the functions end as the parser
does.
-/
namespace SmallLisp.Parser

/-- A request for a token: the token that was current, and the answer. -/
structure Request where
  current : Option Token
  answer : Except ParseError Token

/-- A parser and the requests that were made with it, in order. -/
structure Machine where
  parser : Parser
  requests : List Request

/-- A descent over a machine. It may fail, and it is nothing if it is cut off. -/
abbrev Descent (α : Type) := ExceptT ParseError (StateT Machine Option) α

namespace Descent

def current : Descent Token := ExceptT.mk fun m =>
  match m.parser.current with
  | none => some (.error .notStarted, m)
  | some t => some (.ok t, m)

/-- Asks for a token and notes it. -/
def request (ask : Parser → Except ParseError Token × Parser) : Descent Token := ExceptT.mk fun m =>
  let (answer, p) := ask m.parser
  some (answer, ⟨p, m.requests ++ [⟨m.parser.current, answer⟩]⟩)

def cutOff {α : Type} : Descent α := ExceptT.mk fun _ => none

/-- Whether a token can start an expression. -/
def startsExpr (t : Token) : Bool := t.kind = .opening ∨ (leaf? t).isSome

mutual

/-- Reads an expression within `depth` open forms. A descent is cut off where more than `n` calls
for an expression or for the rest of a row would be open at once. -/
def readExpr : Nat → Nat → Descent Expr
  | 0, _ => cutOff
  | n + 1, depth => do
    let t ← current
    if t.kind = .opening then readForm n depth
    else match leaf? t with
      | some e => do
        let _ ← request nextToken
        return e
      | none => throw (.refused .expectedExpression t.location)
termination_by n => (n, 0)

/-- Reads a form, of which the opening parenthesis is current. -/
def readForm (n depth : Nat) : Descent Expr := do
  let opening ← current
  if depth < maxNesting then do
    let first ← request nextToken
    if first.kind = .symbol defineWord then readDefine n depth opening.location
    else if startsExpr first then readCall n depth opening.location
    else throw (.refused .expectedForm first.location)
  else throw .tooDeep
termination_by (n, 2)

/-- Reads a call from its callee on. -/
def readCall (n depth : Nat) (location : Location) : Descent Expr := do
  let callee ← readExpr n (depth + 1)
  let arguments ← readArguments n (depth + 1)
  let _ ← request nextToken
  return .call callee arguments location
termination_by (n, 1)

/-- Reads a definition from the word on that makes it one. -/
def readDefine (n depth : Nat) (location : Location) : Descent Expr := do
  let name ← request nextToken
  match name.kind with
  | .symbol target => do
    let _ ← request nextToken
    let value ← readExpr n (depth + 1)
    let last ← current
    if last.kind = .closing then do
      let _ ← request nextToken
      return .define ⟨target, name.location⟩ value location
    else throw (.refused .unclosedDefine last.location)
  | _ => throw (.refused .expectedSymbol name.location)
termination_by (n, 1)

/-- One turn of the loop over arguments: an argument, or nothing at the end of the call. -/
def argumentTurn (n depth : Nat) : Descent (Option Expr) := do
  let t ← current
  if t.kind = .closing then return none
  else if t.kind = .eof then throw (.refused .unclosedCall t.location)
  else do
    let e ← readExpr n depth
    return some e
termination_by (n, 1)

/-- Reads arguments up to the end of the call. -/
def readArguments : Nat → Nat → Descent (List Expr)
  | 0, _ => cutOff
  | n + 1, depth => do
    match ← argumentTurn n depth with
    | none => return []
    | some e => do
      let es ← readArguments n depth
      return e :: es
termination_by n => (n, 0)

end

/-- One turn of the loop over a text: an expression, or nothing at the end. -/
def textTurn (n : Nat) : Descent (Option Expr) := do
  let t ← current
  if t.kind = .eof then return none
  else do
    let e ← readExpr n 0
    return some e

/-- Reads expressions up to the end of a text. -/
def readExprs : Nat → Descent (List Expr)
  | 0 => cutOff
  | n + 1 => do
    match ← textTurn n with
    | none => return []
    | some e => do
      let es ← readExprs n
      return e :: es

/-- Reads a text from its first token on. -/
def readProgram (n : Nat) : Descent Program := do
  let _ ← request start
  let es ← readExprs n
  let last ← current
  return ⟨(es.head?.map Expr.location).getD last.location, es⟩

/-! ## Descents that end -/

/-- The outcome of a descent over a machine, and the machine as it is left. -/
def run {α : Type} (x : Descent α) (m : Machine) : Option (Except ParseError α × Machine) :=
  StateT.run (ExceptT.run x) m

/-- Whether a descent ends, with a result and a machine of which `ok` is true or with an error and a
machine of which `bad` is. -/
def Leads {α : Type} (x : Descent α) (m : Machine) (ok : α → Machine → Prop)
    (bad : ParseError → Machine → Prop) : Prop :=
  ∃ outcome m', run x m = some (outcome, m') ∧
    match outcome with
    | .ok a => ok a m'
    | .error err => bad err m'

variable {α β : Type} {ok : α → Machine → Prop} {bad : ParseError → Machine → Prop} {m : Machine}

theorem leads_pure {a : α} (h : ok a m) : Leads (pure a) m ok bad := ⟨.ok a, m, rfl, h⟩

theorem leads_throw {err : ParseError} (h : bad err m) :
    Leads (throw err : Descent α) m ok bad := ⟨.error err, m, rfl, h⟩

theorem run_bind (x : Descent β) (f : β → Descent α) (m : Machine) :
    run (x >>= f) m =
      (run x m).bind fun (outcome, m₁) => match outcome with
        | .ok b => run (f b) m₁
        | .error err => some (.error err, m₁) := by
  simp only [run, ExceptT.run_bind, StateT.run_bind]
  refine congrArg (Option.bind _) ?_
  funext ⟨outcome, m₁⟩
  cases outcome with
  | ok b => rfl
  | error err => rfl

theorem leads_bind {x : Descent β} {f : β → Descent α} {ok' : β → Machine → Prop}
    {bad' : ParseError → Machine → Prop} (hx : Leads x m ok' bad')
    (hok : ∀ b m', ok' b m' → Leads (f b) m' ok bad) (hbad : ∀ err m', bad' err m' → bad err m') :
    Leads (x >>= f) m ok bad := by
  obtain ⟨outcome, m₁, hrun, hpost⟩ := hx
  cases outcome with
  | ok b =>
    obtain ⟨outcome, m', hf, hpost⟩ := hok b m₁ hpost
    exact ⟨outcome, m', by rw [run_bind, hrun]; exact hf, hpost⟩
  | error err => exact ⟨.error err, m₁, by rw [run_bind, hrun]; rfl, hbad err m₁ hpost⟩

theorem leads_then {x : Descent β} {f : β → Descent α} {ok' : β → Machine → Prop}
    (hx : Leads x m ok' bad) (hok : ∀ b m', ok' b m' → Leads (f b) m' ok bad) :
    Leads (x >>= f) m ok bad := leads_bind hx hok fun _ _ hbad => hbad

theorem Leads.mono {x : Descent α} {ok' : α → Machine → Prop} {bad' : ParseError → Machine → Prop}
    (h : Leads x m ok bad) (hok : ∀ a m', ok a m' → ok' a m')
    (hbad : ∀ err m', bad err m' → bad' err m') : Leads x m ok' bad' := by
  obtain ⟨outcome, m', hx, hpost⟩ := h
  cases outcome with
  | ok a => exact ⟨.ok a, m', hx, hok a m' hpost⟩
  | error err => exact ⟨.error err, m', hx, hbad err m' hpost⟩

theorem leads_current {t : Token} {f : Token → Descent α} (hc : m.parser.current = some t)
    (h : Leads (f t) m ok bad) : Leads (current >>= f) m ok bad := by
  have hrun : run current m = some (.ok t, m) := by
    simp only [run, current, ExceptT.run_mk, StateT.run, hc]
  obtain ⟨outcome, m', hf, hpost⟩ := h
  exact ⟨outcome, m', by rw [run_bind, hrun]; exact hf, hpost⟩

end Descent

namespace Machine

/-! ## Requests -/

/-- Whether the token that is current is no end, and the one behind it is requested. -/
def Asks (m m' : Machine) : Prop :=
  ∃ t u, m.parser.current = some t ∧ t.kind ≠ .eof ∧ m.parser.nextToken = (.ok u, m'.parser) ∧
    m'.requests = m.requests ++ [⟨some t, .ok u⟩]

/-- Whether the token that is current is no end, and the one behind it is malformed. -/
def Starves (m m' : Machine) : Prop :=
  ∃ t err, m.parser.current = some t ∧ t.kind ≠ .eof ∧
    m.parser.nextToken = (.error err, m'.parser) ∧
    m'.requests = m.requests ++ [⟨some t, .error err⟩]

/-- How many tokens are left, the current one included. -/
def left (m : Machine) : Nat := m.parser.upcoming.1.length

/-- Whether tokens are requested one after another, of which the last may be malformed. -/
def Stops (m m' : Machine) : Prop :=
  ∃ m₁, Relation.ReflTransGen Asks m m₁ ∧ (m' = m₁ ∨ m₁.Starves m')

end Machine

open Relation Machine

theorem left_pos {m : Machine} {t : Token} (hc : m.parser.current = some t) : 0 < m.left := by
  obtain ⟨ts, hts⟩ := exists_upcoming_eq_cons hc
  rw [left, hts]
  exact Nat.succ_pos _

theorem left_lt {m m' : Machine} {n : Nat} (h : TransGen Asks m m') (hn : m.left ≤ n) :
    m'.left < n := by
  have hstep {m m' : Machine} (h : m.Asks m') : m'.left < m.left := by
    obtain ⟨t, u, hc, hinside, hn, -⟩ := h
    rw [left, left, upcoming_of_request hc hinside hn]
    exact Nat.lt_succ_self _
  induction h with
  | single hasks => exact Nat.lt_of_lt_of_le (hstep hasks) hn
  | tail _ hasks ih => exact Nat.lt_trans (hstep hasks) ih

/-- Goes on after a step. -/
def carry (p : Parser) : Step → Except ParseError Expr × Parser
  | .done e => (.ok e, p)
  | .goOn s => resume s p

theorem resume_eq {s : State} {p : Parser} {t : Token} (hc : p.current = some t) :
    resume s p =
      match s.feed t, p.nextToken with
      | .error err, _ => (.error err, p)
      | .ok _, (.error err, p') => (.error err, p')
      | .ok step, (.ok _, p') => carry p' step := by
  fun_cases resume s p with
  | case1 hnone =>
    rw [hc] at hnone
    cases hnone
  | case2 t' hc' err hf =>
    obtain rfl : t = t' := Option.some.inj (hc.symm.trans hc')
    rw [hf]
  | case3 t' hc' step hf err p' hn =>
    obtain rfl : t = t' := Option.some.inj (hc.symm.trans hc')
    rw [hf, hn]
  | case4 t' hc' u p' hn e hf =>
    obtain rfl : t = t' := Option.some.inj (hc.symm.trans hc')
    rw [hf, hn]
    rfl
  | case5 t' hc' u p' hn s' hf =>
    obtain rfl : t = t' := Option.some.inj (hc.symm.trans hc')
    rw [hf, hn]
    rfl

/-- The parser reads on from a state, over some tokens, to where it makes a step. -/
structure Yields (s : State) (m : Machine) (step : Step) (m' : Machine) : Prop where
  asks : TransGen Asks m m'
  resume : resume s m.parser = carry m'.parser step

/-- The parser reads on from a state and fails. -/
structure Breaks (s : State) (m : Machine) (err : ParseError) (m' : Machine) : Prop where
  stops : m.Stops m'
  resume : resume s m.parser = (.error err, m'.parser)

/-- The parser reads on from one state to another. -/
structure Reaches (s : State) (m : Machine) (s' : State) (m' : Machine) : Prop where
  asks : ReflTransGen Asks m m'
  resume : resume s m.parser = Parser.resume s' m'.parser

theorem Reaches.yields {s s₁ : State} {m m₁ m' : Machine} {step : Step}
    (h : Reaches s m s₁ m₁) (h' : Yields s₁ m₁ step m') : Yields s m step m' :=
  ⟨.trans_right h.asks h'.asks, h.resume.trans h'.resume⟩

theorem Reaches.breaks {s s₁ : State} {m m₁ m' : Machine} {err : ParseError}
    (h : Reaches s m s₁ m₁) (h' : Breaks s₁ m₁ err m') : Breaks s m err m' := by
  obtain ⟨m₂, hasks, hend⟩ := h'.stops
  exact ⟨⟨m₂, h.asks.trans hasks, hend⟩, h.resume.trans h'.resume⟩

theorem Yields.reaches {s s₁ : State} {m m₁ : Machine} (h : Yields s m (.goOn s₁) m₁) :
    Reaches s m s₁ m₁ := ⟨h.asks.to_reflTransGen, h.resume⟩

theorem Reaches.trans {s s₁ s' : State} {m m₁ m' : Machine} (h : Reaches s m s₁ m₁)
    (h' : Reaches s₁ m₁ s' m') : Reaches s m s' m' :=
  ⟨h.asks.trans h'.asks, h.resume.trans h'.resume⟩

theorem breaks_refused {s : State} {m : Machine} {t : Token} {err : ParseError}
    (hc : m.parser.current = some t) (hf : s.feed t = .error err) : Breaks s m err m := by
  refine ⟨⟨m, .refl, .inl rfl⟩, ?_⟩
  rw [resume_eq hc, hf]

namespace Descent

/-- A token that the parser takes is followed by a request. -/
theorem leads_request {s : State} {m : Machine} {t : Token} {step : Step}
    (hc : m.parser.current = some t) (hf : s.feed t = .ok step) :
    Leads (request nextToken) m
      (fun u m' => m'.parser.current = some u ∧ Yields s m step m') (Breaks s m) := by
  have hinside := (takes_of_feed hf).ne_eof
  rcases hn : m.parser.nextToken with ⟨err | u, p'⟩
  · refine ⟨.error err, ⟨p', m.requests ++ [⟨some t, .error err⟩]⟩, ?_, ⟨m, .refl, .inr ?_⟩, ?_⟩
    · simp only [run, request, ExceptT.run_mk, StateT.run, hn, hc]
    · exact ⟨t, err, hc, hinside, hn, rfl⟩
    · rw [resume_eq hc, hf, hn]
  · refine ⟨.ok u, ⟨p', m.requests ++ [⟨some t, .ok u⟩]⟩, ?_, (nextToken_ok hn).1, ?_, ?_⟩
    · simp only [run, request, ExceptT.run_mk, StateT.run, hn, hc]
    · exact .single ⟨t, u, hc, hinside, hn, rfl⟩
    · rw [resume_eq hc, hf, hn]

/-- Whether the descent reads an expression that starts with `t` where the parser expects one. -/
def Suits (t : Token) : List Waiting → Prop
  | .head _ :: _ => startsExpr t ∧ t.kind ≠ .symbol defineWord
  | .argument .. :: _ => t.kind ≠ .closing ∧ t.kind ≠ .eof
  | .value .. :: _ | [] => True

theorem feed_leaf {t : Token} {forms : List Waiting} {e : Expr} (hleaf : leaf? t = some e)
    (hsuits : Suits t forms) : (State.expression forms).feed t = .ok (deliver e forms) := by
  refine (Takes.leaf hleaf ?_).feed
  rintro hword location outer rfl
  rcases leaf?_cases hleaf with ⟨name, hk, rfl⟩ | ⟨value, hk, rfl⟩ | ⟨contents, hk, rfl⟩
  · obtain rfl : name = defineWord := hword
    exact hsuits.2 hk
  · exact hword
  · exact hword

theorem feed_noExpr {t : Token} {forms : List Waiting} (hopening : t.kind ≠ .opening)
    (hleaf : leaf? t = none) (hsuits : Suits t forms) :
    (State.expression forms).feed t = .error (.refused .expectedExpression t.location) := by
  have hrest : t.kind = .closing ∨ t.kind = .eof := by
    rw [leaf?] at hleaf
    rcases hk : t.kind with - | - | name | value | contents | -
    · exact absurd hk hopening
    · exact .inl rfl
    · simp only [hk] at hleaf
      cases hleaf
    · simp only [hk] at hleaf
      cases hleaf
    · simp only [hk] at hleaf
      cases hleaf
    · exact .inr rfl
  cases forms with
  | nil => rcases hrest with hk | hk <;> simp only [State.feed, feedExpression, hk, refusal]
  | cons form outer =>
    cases form with
    | head location =>
      have hstarts := hsuits.1
      simp [startsExpr, hopening, hleaf] at hstarts
    | argument location callee arguments => exact absurd hrest (not_or.mpr hsuits)
    | value location name =>
      rcases hrest with hk | hk <;> simp only [State.feed, feedExpression, hk, refusal]

theorem feed_noForm {t : Token} {location : Location} {outer : List Waiting}
    (h : ¬ startsExpr t = true) : (State.expression (.head location :: outer)).feed t =
      .error (.refused .expectedForm t.location) := by
  rcases hk : t.kind with - | - | name | value | contents | -
  · simp [startsExpr, hk] at h
  · simp only [State.feed, feedExpression, hk, refusal]
  · simp [startsExpr, leaf?, hk] at h
  · simp [startsExpr, leaf?, hk] at h
  · simp [startsExpr, leaf?, hk] at h
  · simp only [State.feed, feedExpression, hk, refusal]

/-! ## Reading as the parser does -/

/-- Whether a descent ends as the parser does that reads on from a state: with a result for which
the parser makes the step `f`, or with its error. -/
def Reads {α : Type} (x : Descent α) (s : State) (m : Machine) (f : α → Step) : Prop :=
  Leads x m (fun a m' => Yields s m (f a) m') (Breaks s m)

section

variable {α β : Type} {s s₁ : State} {m : Machine} {t : Token} {f : α → Step}

theorem Reads.behind {x : Descent α} {m₁ : Machine} (hx : Reads x s₁ m₁ f)
    (h : Reaches s m s₁ m₁) : Leads x m₁ (fun a m' => Yields s m (f a) m') (Breaks s m) :=
  hx.mono (fun _ _ hok => h.yields hok) fun _ _ hbad => h.breaks hbad

theorem reads_throw {err : ParseError} (hc : m.parser.current = some t)
    (hf : s.feed t = .error err) : Reads (throw err) s m f := leads_throw (breaks_refused hc hf)

theorem reads_request {k : Token → Descent α} (hc : m.parser.current = some t)
    (hf : s.feed t = .ok (.goOn s₁))
    (hk : ∀ u m₁, m₁.parser.current = some u → TransGen Asks m m₁ → Reads (k u) s₁ m₁ f) :
    Reads (request nextToken >>= k) s m f := by
  apply leads_then (leads_request hc hf)
  rintro u m₁ ⟨hu, hyields⟩
  exact (hk u m₁ hu hyields.asks).behind hyields.reaches

theorem reads_last {a : α} (hc : m.parser.current = some t) (hf : s.feed t = .ok (f a)) :
    Reads (do let _ ← request nextToken; return a) s m f := by
  apply leads_then (leads_request hc hf)
  rintro u m₁ ⟨-, hyields⟩
  exact leads_pure hyields

theorem exists_current {m' : Machine} (h : TransGen Asks m m') :
    ∃ u, m'.parser.current = some u := by
  cases h with
  | single hasks | tail _ hasks =>
    obtain ⟨t, u, -, -, hn, -⟩ := hasks
    exact ⟨u, (nextToken_ok hn).1⟩

theorem reads_bind {x : Descent β} {k : β → Descent α} (next : β → State)
    (hx : Reads x s m fun b => .goOn (next b))
    (hk : ∀ b m₁ u, m₁.parser.current = some u → TransGen Asks m m₁ → Reads (k b) (next b) m₁ f) :
    Reads (x >>= k) s m f := by
  apply leads_then hx
  intro b m₁ hyields
  obtain ⟨u, hu⟩ := exists_current hyields.asks
  exact (hk b m₁ u hu hyields.asks).behind hyields.reaches

end

/-- The descent reads an expression at `m` as the parser does. -/
def ReadsExpr (m : Machine) : Prop :=
  ∀ n forms t, m.left ≤ n → m.parser.current = some t → Suits t forms →
    Reads (readExpr n forms.length) (.expression forms) m fun e => deliver e forms

/-- The descent reads arguments at `m` as the parser does. -/
def ReadsArguments (m : Machine) : Prop :=
  ∀ n location callee arguments outer t, m.left < n → m.parser.current = some t →
    Leads (readArguments n (outer.length + 1)) m
      (fun es m' => (∃ u, m'.parser.current = some u ∧ u.kind = .closing) ∧
        Reaches (.expression (.argument location callee arguments :: outer)) m
          (.expression (.argument location callee (es.reverse ++ arguments) :: outer)) m')
      (Breaks (.expression (.argument location callee arguments :: outer)) m)

variable {m : Machine} {t : Token} {n : Nat}

theorem reads_define (hn : m.left ≤ n) (hthen : ∀ m', TransGen Asks m m' → ReadsExpr m')
    (location : Location) (forms : List Waiting) (hc : m.parser.current = some t)
    (hk : t.kind = .symbol defineWord) :
    Reads (readDefine n forms.length location) (.expression (.head location :: forms)) m
      fun e => deliver e forms := by
  rw [readDefine]
  refine reads_request hc (Takes.word hk).feed fun name m₁ hname hword => ?_
  split
  · rename_i target htarget
    refine reads_request hname (Takes.target htarget).feed fun first m₂ hfirst hnamed => ?_
    have hasks := hword.trans hnamed
    have hvalue := hthen m₂ hasks n (.value location ⟨target, name.location⟩ :: forms) first
      (Nat.le_of_lt (left_lt hasks hn)) hfirst trivial
    refine reads_bind (fun e => .finishing location ⟨target, name.location⟩ e forms) hvalue
      fun value m₃ last hlast _ => ?_
    refine leads_current hlast ?_
    by_cases hclosing : last.kind = .closing
    · rw [if_pos hclosing]
      exact reads_last hlast (Takes.define hclosing).feed
    · rw [if_neg hclosing]
      exact reads_throw hlast (by simp only [State.feed])
  · rename_i hnone
    exact reads_throw hname (by simp only [State.feed])

theorem reads_call (hn : m.left ≤ n) (hexpr : ReadsExpr m)
    (hthen : ∀ m', TransGen Asks m m' → ReadsArguments m') (location : Location)
    (forms : List Waiting) (hc : m.parser.current = some t) (hstarts : startsExpr t = true)
    (hword : t.kind ≠ .symbol defineWord) :
    Reads (readCall n forms.length location) (.expression (.head location :: forms)) m
      fun e => deliver e forms := by
  rw [readCall]
  have hcallee := hexpr n (.head location :: forms) t hn hc ⟨hstarts, hword⟩
  refine reads_bind (fun e => .expression (.argument location e [] :: forms)) hcallee
    fun callee m₁ u hu hasks => ?_
  have harguments := hthen m₁ hasks n location callee [] forms u (left_lt hasks hn) hu
  apply leads_then harguments
  rintro es m₂ ⟨⟨last, hlast, hclosing⟩, hreaches⟩
  rw [List.append_nil] at hreaches
  have hcall : (State.expression (.argument location callee es.reverse :: forms)).feed last =
      .ok (deliver (.call callee es location) forms) := by
    rw [(Takes.call hclosing).feed, List.reverse_reverse]
  exact (reads_last (f := fun e => deliver e forms) hlast hcall).behind hreaches

theorem reads_form (hn : m.left ≤ n + 1)
    (hthen : ∀ m', TransGen Asks m m' → ReadsExpr m' ∧ ReadsArguments m')
    (forms : List Waiting) (hc : m.parser.current = some t) (hk : t.kind = .opening) :
    Reads (readForm n forms.length) (.expression forms) m fun e => deliver e forms := by
  rw [readForm]
  refine leads_current hc ?_
  by_cases hroom : forms.length < maxNesting
  · rw [if_pos hroom]
    refine reads_request hc (Takes.opening hk hroom).feed fun first m₁ hfirst hasks => ?_
    have hlater {m' : Machine} (h : TransGen Asks m₁ m') : ReadsExpr m' ∧ ReadsArguments m' :=
      hthen m' (hasks.trans h)
    have hn₁ : m₁.left ≤ n := Nat.le_of_lt_succ (left_lt hasks hn)
    by_cases hword : first.kind = .symbol defineWord
    · rw [if_pos hword]
      exact reads_define hn₁ (fun m' h => (hlater h).1) t.location forms hfirst hword
    · rw [if_neg hword]
      by_cases hstarts : startsExpr first = true
      · rw [if_pos hstarts]
        exact reads_call hn₁ (hthen m₁ hasks).1 (fun m' h => (hlater h).2) t.location forms hfirst
          hstarts hword
      · rw [if_neg hstarts]
        exact reads_throw hfirst (feed_noForm hstarts)
  · rw [if_neg hroom]
    refine reads_throw hc ?_
    simp only [State.feed, feedExpression, hk, if_neg hroom]

theorem reads_expr (hthen : ∀ m', TransGen Asks m m' → ReadsExpr m' ∧ ReadsArguments m') :
    ReadsExpr m := by
  intro n forms t hn hc hsuits
  obtain ⟨n, rfl⟩ := Nat.exists_eq_add_one.mpr (Nat.lt_of_lt_of_le (left_pos hc) hn)
  rw [readExpr]
  refine leads_current hc ?_
  by_cases hk : t.kind = .opening
  · rw [if_pos hk]
    exact reads_form hn hthen forms hc hk
  · rw [if_neg hk]
    rcases hleaf : leaf? t with - | e
    · exact reads_throw hc (feed_noExpr hk hleaf hsuits)
    · exact reads_last hc (feed_leaf hleaf hsuits)

/-- A turn of the loop over arguments reads one, or it finds the end of the call. -/
theorem leads_argumentTurn {depth : Nat} {ok : Expr → Machine → Prop}
    {bad : ParseError → Machine → Prop} (hc : m.parser.current = some t)
    (hread : t.kind ≠ .closing → t.kind ≠ .eof → Leads (readExpr n depth) m ok bad)
    (hend : t.kind = .eof → bad (.refused .unclosedCall t.location) m) :
    Leads (argumentTurn n depth) m
      (fun
        | none, m' => m' = m ∧ t.kind = .closing
        | some e, m' => ok e m') bad := by
  rw [argumentTurn]
  refine leads_current hc ?_
  by_cases hclosing : t.kind = .closing
  · rw [if_pos hclosing]
    exact leads_pure ⟨rfl, hclosing⟩
  · rw [if_neg hclosing]
    by_cases heof : t.kind = .eof
    · rw [if_pos heof]
      exact leads_throw (hend heof)
    · rw [if_neg heof]
      apply leads_then (hread hclosing heof)
      intro e m' hok
      exact leads_pure hok

theorem reads_arguments (h : ReadsExpr m)
    (hthen : ∀ m', TransGen Asks m m' → ReadsArguments m') : ReadsArguments m := by
  intro n location callee arguments outer t hn hc
  obtain ⟨n, rfl⟩ := Nat.exists_eq_add_one.mpr (Nat.zero_lt_of_lt hn)
  have hread (hclosing : t.kind ≠ .closing) (heof : t.kind ≠ .eof) :=
    h n (.argument location callee arguments :: outer) t (Nat.le_of_lt_succ hn) hc
      ⟨hclosing, heof⟩
  rw [readArguments]
  refine leads_then (leads_argumentTurn hc hread fun heof => ?_) ?_
  · apply breaks_refused hc
    simp only [State.feed, feedExpression, heof, refusal, if_true]
  · rintro (- | e) m₁ hturn
    · obtain ⟨rfl, hclosing⟩ := hturn
      exact leads_pure ⟨⟨t, hc, hclosing⟩, .refl, rfl⟩
    · have hturn : Yields _ m (deliver e (.argument location callee arguments :: outer)) m₁ := hturn
      obtain ⟨u, hu⟩ := exists_current hturn.asks
      have hrest := hthen m₁ hturn.asks n location callee (e :: arguments) outer u
        (left_lt hturn.asks (Nat.le_of_lt_succ hn)) hu
      refine leads_bind hrest ?_ fun _ _ hbad => hturn.reaches.breaks hbad
      rintro es m' ⟨hlast, hreaches⟩
      refine leads_pure ⟨hlast, ?_⟩
      rw [List.reverse_cons, List.append_assoc]
      exact hturn.reaches.trans hreaches

/-- The descent ends wherever it starts, as the parser does: each request leaves one token less, and
the bound on the calls goes down no faster. -/
theorem reads_all (m : Machine) : ReadsExpr m ∧ ReadsArguments m := by
  induction h : m.left using Nat.strongRecOn generalizing m with
  | ind k ih =>
    subst h
    have hthen : ∀ m', TransGen Asks m m' → ReadsExpr m' ∧ ReadsArguments m' :=
      fun m' hasks => ih _ (left_lt hasks (Nat.le_refl _)) m' rfl
    have hexpr := reads_expr hthen
    exact ⟨hexpr, reads_arguments hexpr fun m' hasks => (hthen m' hasks).2⟩

/-! ## Whole texts -/

/-- A turn of the loop over a text reads an expression, or it finds the end. -/
theorem leads_textTurn {ok : Expr → Machine → Prop} {bad : ParseError → Machine → Prop}
    (hc : m.parser.current = some t)
    (hread : t.kind ≠ .eof → Leads (readExpr n 0) m ok bad) :
    Leads (textTurn n) m
      (fun
        | none, m' => m' = m ∧ t.kind = .eof
        | some e, m' => t.kind ≠ .eof ∧ ok e m') bad := by
  rw [textTurn]
  refine leads_current hc ?_
  by_cases heof : t.kind = .eof
  · rw [if_pos heof]
    exact leads_pure ⟨rfl, heof⟩
  · rw [if_neg heof]
    apply leads_then (hread heof)
    intro e m' hok
    exact leads_pure ⟨heof, hok⟩

end Descent

theorem parseExprs_eq {p : Parser} {t : Token} (hc : p.current = some t) :
    p.parseExprs =
      if t.kind = .eof then (.ok [], p)
      else match p.parseExpr with
        | (.error err, p') => (.error err, p')
        | (.ok e, p') =>
          match p'.parseExprs with
          | (.error err, p'') => (.error err, p'')
          | (.ok es, p'') => (.ok (e :: es), p'') := by
  fun_cases parseExprs p with
  | case1 hnone =>
    rw [hc] at hnone
    cases hnone
  | case2 t' hc' ht =>
    obtain rfl : t = t' := Option.some.inj (hc.symm.trans hc')
    rw [if_pos ht]
  | case3 t' hc' ht err p' hp =>
    obtain rfl : t = t' := Option.some.inj (hc.symm.trans hc')
    rw [if_neg ht, hp]
  | case4 t' hc' ht e p' hp hlt err p'' hps =>
    obtain rfl : t = t' := Option.some.inj (hc.symm.trans hc')
    simp only [if_neg ht, hp, hps]
  | case5 t' hc' ht e p' hp hlt es p'' hps =>
    obtain rfl : t = t' := Option.some.inj (hc.symm.trans hc')
    simp only [if_neg ht, hp, hps]

namespace Descent

theorem leads_readExprs {n : Nat} (m : Machine) {t : Token} (hn : m.left < n)
    (hc : m.parser.current = some t) :
    Leads (readExprs n) m
      (fun es m' => ReflTransGen Asks m m' ∧ (∃ u, m'.parser.current = some u ∧ u.kind = .eof) ∧
        m.parser.parseExprs = (.ok es, m'.parser))
      (fun err m' => m.Stops m' ∧ m.parser.parseExprs = (.error err, m'.parser)) := by
  induction n generalizing m t with
  | zero => cases hn
  | succ n ih =>
    have hread (heof : t.kind ≠ .eof) : Leads (readExpr n 0) m
        (fun e m' => TransGen Asks m m' ∧ m.parser.parseExpr = (.ok e, m'.parser))
        (fun err m' => m.Stops m' ∧ m.parser.parseExprs = (.error err, m'.parser)) := by
      refine ((reads_all m).1 n [] t (Nat.le_of_lt_succ hn) hc trivial).mono ?_ ?_
      · rintro e m' ⟨hasks, hresume⟩
        exact ⟨hasks, hresume⟩
      · rintro err m' ⟨hstops, hresume⟩
        refine ⟨hstops, ?_⟩
        rw [parseExprs_eq hc, if_neg heof, parseExpr, hresume]
    rw [readExprs]
    apply leads_then (leads_textTurn hc hread)
    rintro (- | e) m₁ hturn
    · obtain ⟨rfl, heof⟩ := hturn
      exact leads_pure ⟨.refl, ⟨t, hc, heof⟩, by rw [parseExprs_eq hc, if_pos heof]⟩
    · obtain ⟨heof, hasks, hparse⟩ := hturn
      obtain ⟨u, hu⟩ := exists_current hasks
      have hn₁ : m₁.left < n := left_lt hasks (Nat.le_of_lt_succ hn)
      refine leads_bind (ih m₁ hn₁ hu) ?_ ?_
      · rintro es m' ⟨hrest, hlast, hparses⟩
        refine leads_pure ⟨hasks.to_reflTransGen.trans hrest, hlast, ?_⟩
        simp only [parseExprs_eq hc, if_neg heof, hparse, hparses]
      · rintro err m' ⟨⟨m₂, hrest, hend⟩, hparses⟩
        refine ⟨⟨m₂, hasks.to_reflTransGen.trans hrest, hend⟩, ?_⟩
        simp only [parseExprs_eq hc, if_neg heof, hparse, hparses]

end Descent

end SmallLisp.Parser

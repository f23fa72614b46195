import SmallLisp.Proofs.Descent

/-!
# Requests for tokens

A text is parsed with one request for each of its tokens, and none is made behind the end. So there
are as many requests as tokens where the text parses, and no more than that, with one more for a
malformed token, where it does not.
-/
namespace SmallLisp.Parser

open Relation Machine

/-- What a scanner would answer to requests for all tokens of a text. -/
def answersOf (ts : List Token) (stop : Option LexError) : List (Except ParseError Token) :=
  ts.map .ok ++ stop.toList.map fun e => .error (.malformed e)

namespace Machine

/-- Whether no request was made when the end was current. -/
def NoneAtEnd (m : Machine) : Prop := ∀ r ∈ m.requests, ∀ t, r.current = some t → t.kind ≠ .eof

/-- Whether the requests so far were answered by the tokens of a text up to the current one. -/
structure Follows (m : Machine) (ts : List Token) (stop : Option LexError) : Prop where
  answered : ∃ us t, m.parser.current = some t ∧
    m.requests.map Request.answer = (us ++ [t]).map .ok ∧
    (ts, stop) = (us ++ m.parser.upcoming.1, m.parser.upcoming.2)
  inside : m.NoneAtEnd

/-- Whether the requests were answered by the first tokens of a text, or by all of them and the
malformed one behind them. -/
structure Requested (m : Machine) (ts : List Token) (stop : Option LexError) : Prop where
  answered : m.requests.map Request.answer <+: answersOf ts stop
  inside : m.NoneAtEnd

variable {m m' : Machine} {ts : List Token} {stop : Option LexError}

theorem NoneAtEnd.concat (h : m.NoneAtEnd) {t : Token} (hinside : t.kind ≠ .eof)
    {answer : Except ParseError Token} (hlog : m'.requests = m.requests ++ [⟨some t, answer⟩]) :
    m'.NoneAtEnd := by
  rw [NoneAtEnd, hlog]
  intro r hr t' ht'
  rcases List.mem_append.mp hr with hr | hr
  · exact h r hr t' ht'
  · obtain rfl := List.mem_singleton.mp hr
    obtain rfl := Option.some.inj ht'
    exact hinside

theorem Follows.asks (h : m.Follows ts stop) (hasks : m.Asks m') : m'.Follows ts stop := by
  obtain ⟨us, t, hc, hrequests, hstream⟩ := h.answered
  obtain ⟨t', u, hc', hinside, hn, hlog⟩ := hasks
  obtain rfl : t = t' := Option.some.inj (hc.symm.trans hc')
  refine ⟨⟨us ++ [t], u, (nextToken_ok hn).1, ?_, ?_⟩, h.inside.concat hinside hlog⟩
  · simp [hlog, hrequests]
  · rw [hstream, upcoming_of_request hc hinside hn]
    simp

theorem Follows.asksAll (h : m.Follows ts stop) (hasks : ReflTransGen Asks m m') :
    m'.Follows ts stop := by
  induction hasks with
  | refl => exact h
  | tail _ hasks ih => exact ih.asks hasks

theorem Follows.requested (h : m.Follows ts stop) : m.Requested ts stop := by
  obtain ⟨us, t, hc, hrequests, hstream⟩ := h.answered
  obtain ⟨vs, hvs⟩ := exists_upcoming_eq_cons hc
  obtain ⟨rfl, rfl⟩ := Prod.mk.inj hstream
  refine ⟨⟨answersOf vs m.parser.upcoming.2, ?_⟩, h.inside⟩
  rw [hrequests, hvs, answersOf, answersOf]
  simp

theorem Follows.starves (h : m.Follows ts stop) (hstarves : m.Starves m') :
    m'.Requested ts stop := by
  obtain ⟨us, t, hc, hrequests, hstream⟩ := h.answered
  obtain ⟨t', err, hc', hinside, hn, hlog⟩ := hstarves
  obtain rfl : t = t' := Option.some.inj (hc.symm.trans hc')
  obtain ⟨e, rfl, hupcoming⟩ := upcoming_of_starved hc hinside hn
  rw [hupcoming] at hstream
  obtain ⟨rfl, rfl⟩ := Prod.mk.inj hstream
  refine ⟨?_, h.inside.concat hinside hlog⟩
  rw [hlog, List.map_append, hrequests]
  exact List.prefix_rfl

theorem Follows.complete (h : m.Follows ts stop) {u : Token} (hc : m.parser.current = some u)
    (hu : u.kind = .eof) : stop = none ∧ m.requests.map Request.answer = ts.map .ok := by
  obtain ⟨us, t, hc', hrequests, hstream⟩ := h.answered
  obtain rfl : t = u := Option.some.inj (hc'.symm.trans hc)
  rw [upcoming_of_eof hc hu] at hstream
  obtain ⟨rfl, rfl⟩ := Prod.mk.inj hstream
  exact ⟨rfl, hrequests⟩

theorem Follows.stops (h : m.Follows ts stop) (hstops : m.Stops m') : m'.Requested ts stop := by
  obtain ⟨m₁, hasks, rfl | hstarves⟩ := hstops
  · exact (h.asksAll hasks).requested
  · exact (h.asksAll hasks).starves hstarves

end Machine

namespace Descent

theorem noneAtEnd_start (p : Parser) (answer : Except ParseError Token) :
    NoneAtEnd ⟨p, [⟨none, answer⟩]⟩ := by
  intro r hr t ht
  obtain rfl := List.mem_singleton.mp hr
  cases ht

theorem leads_start (text : String) :
    Leads (request start) ⟨ofText text, []⟩
      (fun t m => (ofText text).start = (.ok t, m.parser) ∧
        m.Follows (tokenize text).1 (tokenize text).2)
      (fun err m => (ofText text).start = (.error err, m.parser) ∧
        m.Requested (tokenize text).1 (tokenize text).2) := by
  rcases hstart : (ofText text).start with ⟨err | t, p⟩
  · refine ⟨.error err, ⟨p, [⟨none, .error err⟩]⟩, ?_, rfl, ?_, noneAtEnd_start p _⟩
    · simp only [run, request, ExceptT.run_mk, StateT.run, hstart]
      rfl
    · obtain ⟨e, rfl, htokens⟩ := tokenize_of_start_error hstart
      rw [htokens]
      exact List.prefix_rfl
  · obtain ⟨hc, hupcoming⟩ := upcoming_of_start_ok hstart
    refine ⟨.ok t, ⟨p, [⟨none, .ok t⟩]⟩, ?_, rfl, ⟨[], t, hc, rfl, ?_⟩,
      noneAtEnd_start p _⟩
    · simp only [run, request, ExceptT.run_mk, StateT.run, hstart]
      rfl
    · rw [hupcoming]
      rfl

end Descent

theorem eq_of_parseExprs_nil {p p' : Parser} {t : Token} (hc : p.current = some t)
    (h : p.parseExprs = (.ok [], p')) : p' = p := by
  rw [parseExprs_eq hc] at h
  split_ifs at h
  · cases h
    rfl
  · split at h
    · cases h
    · split at h
      · cases h
      · cases h

namespace Descent

/-- The descent ends on every text as the parser does. -/
theorem leads_readProgram (text : String) {n : Nat} (hn : (tokenize text).1.length < n) :
    Leads (readProgram n) ⟨ofText text, []⟩
      (fun p m => parse text = .ok p ∧ m.parser = afterParse text ∧
        m.Requested (tokenize text).1 (tokenize text).2 ∧
        (tokenize text).2 = none ∧
        m.requests.map Request.answer = (tokenize text).1.map .ok)
      (fun err m => parse text = .error err ∧ m.parser = afterParse text ∧
        m.Requested (tokenize text).1 (tokenize text).2) := by
  rw [readProgram]
  refine leads_bind (leads_start text) ?_ ?_
  · rintro t m₁ ⟨hstart, hfollows⟩
    obtain ⟨hc, hupcoming⟩ := upcoming_of_start_ok hstart
    have hn₁ : m₁.left < n := by rwa [Machine.left, hupcoming]
    refine leads_bind (leads_readExprs m₁ hn₁ hc) ?_ ?_
    · rintro es m' ⟨hasks, ⟨last, hlast, heof⟩, hexprs⟩
      have hdone := hfollows.asksAll hasks
      have hparse : parse text = .ok ⟨(es.head?.map Expr.location).getD t.location, es⟩ := by
        simp only [parse, hstart, parseProgram, hc, hexprs]
      refine leads_current hlast (leads_pure ⟨?_, ?_, hdone.requested, hdone.complete hlast heof⟩)
      · rw [hparse]
        cases es with
        | cons e es => rfl
        | nil =>
          rw [eq_of_parseExprs_nil hc hexprs, hc] at hlast
          cases hlast
          rfl
      · simp only [afterParse, hstart, parseProgram, hc, hexprs]
    · rintro err m' ⟨hstops, hexprs⟩
      refine ⟨?_, ?_, hfollows.stops hstops⟩
      · simp only [parse, hstart, parseProgram, hc, hexprs]
      · simp only [afterParse, hstart, parseProgram, hc, hexprs]
  · rintro err m' ⟨hstart, hrequested⟩
    refine ⟨?_, ?_, hrequested⟩
    · simp only [parse, hstart]
    · simp only [afterParse, hstart]

end Descent

/-- Whether tokens were consumed from `m` to `m'`, at least one, with a request for each. -/
def Machine.Consumes (m m' : Machine) : Prop :=
  ∃ t ts, m.parser.upcoming = (t :: ts ++ m'.parser.upcoming.1, m'.parser.upcoming.2) ∧
    m'.requests.length = m.requests.length + (t :: ts).length

theorem Machine.consumes_of_asks {m m' : Machine} (h : TransGen Asks m m') : m.Consumes m' := by
  induction h with
  | single hasks =>
    obtain ⟨t, u, hc, hinside, hn, hlog⟩ := hasks
    refine ⟨t, [], upcoming_of_request hc hinside hn, ?_⟩
    rw [hlog, List.length_append, List.length_singleton, List.length_singleton]
  | tail _ hasks ih =>
    obtain ⟨t, ts, hupcoming, hlength⟩ := ih
    obtain ⟨t', u, hc, hinside, hn, hlog⟩ := hasks
    refine ⟨t, ts ++ [t'], ?_, ?_⟩
    · rw [hupcoming, upcoming_of_request hc hinside hn]
      simp
    · rw [hlog, List.length_append, hlength]
      simp
      omega

theorem Descent.leads_parseExpr {m : Machine} {t : Token} {n : Nat} (hn : m.left ≤ n)
    (hc : m.parser.current = some t) :
    Leads (readExpr n 0) m (fun e m' => m.parser.parseExpr = (.ok e, m'.parser))
      fun err m' => m.parser.parseExpr = (.error err, m'.parser) :=
  ((reads_all m).1 n [] t hn hc trivial).mono (fun _ _ h => h.resume) fun _ _ h => h.resume

theorem Descent.consumes_readExpr {m : Machine} {t : Token} {n : Nat} (hn : m.left ≤ n)
    (hc : m.parser.current = some t) (depth : Nat) :
    Leads (readExpr n depth) m (fun _ m' => m.Consumes m') fun _ m' => m.Stops m' := by
  -- Definitions that wait for their values: within them any token may start an expression.
  let forms := List.replicate depth (Waiting.value default ⟨"", default⟩)
  have hsuits : Suits t forms := by
    cases depth with
    | zero => trivial
    | succ depth => trivial
  have hread := (reads_all m).1 n forms t hn hc hsuits
  rw [List.length_replicate] at hread
  exact hread.mono (fun _ _ h => Machine.consumes_of_asks h.asks) fun _ _ h => h.stops

end SmallLisp.Parser

namespace SmallLisp

open SmallLisp.Parser SmallLisp.Parser.Descent

/-- Parsing ends on every text, and its tokens bound the calls that are open at once. They are
requested one after another, and none when the end is current: there are no more requests than
tokens, with one more for a malformed one, and just as many if the text parses. Every expression
that is read uses up at least one token, so that each turn of the two loops moves on, leaves the
loop or fails. -/
theorem parsing_comes_to_an_end (text : String) :
    (∀ n, (tokenize text).1.length < n → ∃ m,
      run (readProgram n) ⟨ofText text, []⟩ = some (parse text, m) ∧ m.parser = afterParse text ∧
      m.Requested (tokenize text).1 (tokenize text).2 ∧
      m.requests.length ≤ (tokenize text).1.length + (tokenize text).2.toList.length ∧
      ∀ p, parse text = .ok p →
        (tokenize text).2 = none ∧ m.requests.length = (tokenize text).1.length) ∧
    ∀ (m : Machine) (t : Token), m.parser.current = some t → ∀ n, m.left ≤ n →
      Leads (readExpr n 0) m (fun e m' => m.parser.parseExpr = (.ok e, m'.parser))
        (fun err m' => m.parser.parseExpr = (.error err, m'.parser)) ∧
      (∀ depth, Leads (readExpr n depth) m (fun _ m' => m.Consumes m') fun _ m' => m.Stops m') ∧
      (∀ depth, Leads (argumentTurn n depth) m
        (fun
          | none, m' => m' = m ∧ t.kind = .closing
          | some _, m' => m.Consumes m') fun _ m' => m.Stops m') ∧
      Leads (textTurn n) m
        (fun
          | none, m' => m' = m ∧ t.kind = .eof
          | some _, m' => m.Consumes m') fun _ m' => m.Stops m' := by
  constructor
  · intro n hn
    have hlength {m : Machine} (h : m.Requested (tokenize text).1 (tokenize text).2) :
        m.requests.length ≤ (tokenize text).1.length + (tokenize text).2.toList.length := by
      simpa [answersOf] using h.answered.length_le
    obtain ⟨err | p, m, hrun, hend⟩ := leads_readProgram text hn
    · obtain ⟨hparse, hafter, hrequested⟩ := hend
      rw [hparse]
      refine ⟨m, hrun, hafter, hrequested, hlength hrequested, ?_⟩
      intro p hp
      cases hp
    · obtain ⟨hparse, hafter, hrequested, hstop, hanswers⟩ := hend
      rw [hparse]
      refine ⟨m, hrun, hafter, hrequested, hlength hrequested, fun _ _ => ⟨hstop, ?_⟩⟩
      simpa using congrArg List.length hanswers
  · intro m t hc n hn
    have hread := consumes_readExpr hn hc
    refine ⟨leads_parseExpr hn hc, hread, fun depth => ?_, ?_⟩
    · exact leads_argumentTurn hc (fun _ _ => hread depth) fun _ => ⟨m, .refl, .inl rfl⟩
    · refine (leads_textTurn hc fun _ => hread 0).mono ?_ fun _ _ h => h
      rintro (- | e) m' hturn
      · exact hturn
      · exact hturn.2

end SmallLisp

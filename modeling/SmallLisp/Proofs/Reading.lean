import SmallLisp.Parser
import SmallLisp.Proofs.Lexing

/-!
# Reading a list of tokens

The parser requests its tokens one at a time. What it makes of a text depends on the list of them
alone: a reading takes them one by one, and the parser comes to what the reading comes to.
-/
namespace SmallLisp.Parser

/-- Whether an expression is the word that makes a form a definition. -/
def IsDefineWord : Expr → Prop
  | .symbol s => s.name = defineWord
  | _ => False

/-- The expression that a token is by itself. -/
def leaf? (t : Token) : Option Expr :=
  match t.kind with
  | .symbol name => some (.symbol ⟨name, t.location⟩)
  | .integer value => some (.integer value t.location)
  | .text contents => some (.text contents t.location)
  | _ => none

theorem leaf?_cases {t : Token} {e : Expr} (h : leaf? t = some e) :
    (∃ name, t.kind = .symbol name ∧ e = .symbol ⟨name, t.location⟩) ∨
      (∃ value, t.kind = .integer value ∧ e = .integer value t.location) ∨
      ∃ contents, t.kind = .text contents ∧ e = .text contents t.location := by
  rw [leaf?] at h
  split at h
  · rename_i name hk
    exact .inl ⟨name, hk, (Option.some.inj h).symm⟩
  · rename_i value hk
    exact .inr (.inl ⟨value, hk, (Option.some.inj h).symm⟩)
  · rename_i contents hk
    exact .inr (.inr ⟨contents, hk, (Option.some.inj h).symm⟩)
  · cases h

/-- What a token can do: every way in which one is taken. -/
inductive Takes (t : Token) : State → Step → Prop
  | opening {forms} (kind : t.kind = .opening) (room : forms.length < maxNesting) :
      Takes t (.expression forms) (.goOn (.expression (.head t.location :: forms)))
  | word {location outer} (kind : t.kind = .symbol defineWord) :
      Takes t (.expression (.head location :: outer)) (.goOn (.naming location outer))
  | leaf {e forms} (leaf : leaf? t = some e)
      (noWord : IsDefineWord e → ∀ location outer, forms ≠ .head location :: outer) :
      Takes t (.expression forms) (deliver e forms)
  | call {location callee arguments outer} (kind : t.kind = .closing) :
      Takes t (.expression (.argument location callee arguments :: outer))
        (deliver (.call callee arguments.reverse location) outer)
  | target {location forms name} (kind : t.kind = .symbol name) :
      Takes t (.naming location forms)
        (.goOn (.expression (.value location ⟨name, t.location⟩ :: forms)))
  | define {location target value forms} (kind : t.kind = .closing) :
      Takes t (.finishing location target value forms)
        (deliver (.define target value location) forms)

private theorem takes_of_feedExpression {forms : List Waiting} {t : Token} {step : Step}
    (h : feedExpression forms t = .ok step) : Takes t (.expression forms) step := by
  rw [feedExpression.eq_def] at h
  split at h
  · rename_i hk
    split_ifs at h with hroom
    cases h
    exact .opening hk hroom
  · rename_i name location outer hk
    split_ifs at h with hword
    · cases h
      subst hword
      exact .word hk
    · cases h
      exact .leaf (by rw [leaf?, hk]) fun hd => absurd hd hword
  · rename_i name hk hhead
    cases h
    exact .leaf (by rw [leaf?, hk]) fun _ location outer hforms => hhead location outer hforms
  · rename_i hk
    cases h
    exact .leaf (by rw [leaf?, hk]) fun hd => hd.elim
  · rename_i hk
    cases h
    exact .leaf (by rw [leaf?, hk]) fun hd => hd.elim
  · rename_i hk
    cases h
    exact .call hk
  · cases h

theorem takes_of_feed {s : State} {t : Token} {step : Step} (h : s.feed t = .ok step) :
    Takes t s step := by
  cases s with
  | expression forms => exact takes_of_feedExpression h
  | naming location forms =>
    rw [State.feed] at h
    split at h
    · rename_i name hk
      cases h
      exact .target hk
    · cases h
  | finishing location target value forms =>
    rw [State.feed] at h
    split at h
    · rename_i hk
      cases h
      exact .define hk
    · cases h

private theorem feedExpression_leaf {forms : List Waiting} {t : Token} {e : Expr}
    (leaf : leaf? t = some e)
    (noWord : IsDefineWord e → ∀ location outer, forms ≠ .head location :: outer) :
    feedExpression forms t = .ok (deliver e forms) := by
  rcases leaf?_cases leaf with ⟨name, hk, rfl⟩ | ⟨value, hk, rfl⟩ | ⟨contents, hk, rfl⟩
  · match forms with
    | .head location :: outer =>
      have hword : name ≠ defineWord := fun hname => noWord hname location outer rfl
      simp only [feedExpression, hk, if_neg hword]
    | [] | .value .. :: _ | .argument .. :: _ => simp only [feedExpression, hk]
  · simp only [feedExpression, hk]
  · simp only [feedExpression, hk]

theorem Takes.feed {s : State} {t : Token} {step : Step} (h : Takes t s step) :
    s.feed t = .ok step := by
  cases h with
  | opening hk hroom => simp only [State.feed, feedExpression, hk, if_pos hroom]
  | word hk => simp only [State.feed, feedExpression, hk, if_true]
  | leaf hleaf hword => exact feedExpression_leaf hleaf hword
  | call hk => simp only [State.feed, feedExpression, hk]
  | target hk => simp only [State.feed, hk]
  | define hk => simp only [State.feed, hk]

theorem Takes.ne_eof {s : State} {t : Token} {step : Step} (h : Takes t s step) :
    t.kind ≠ .eof := by
  intro hk
  obtain ⟨e, he⟩ := s.feed_eof t hk
  rw [h.feed] at he
  cases he

/-- A token that is not taken is blamed, unless it opens a form too many. -/
theorem feed_error {s : State} {t : Token} {err : ParseError} (h : s.feed t = .error err) :
    (∃ cause, err = .refused cause t.location) ∨
      err = .tooDeep ∧ t.kind = .opening ∧
        ∃ forms, s = .expression forms ∧ maxNesting ≤ forms.length := by
  cases s with
  | expression forms =>
    rw [State.feed, feedExpression.eq_def] at h
    split at h
    · rename_i hk
      split_ifs at h with hroom
      cases h
      exact .inr ⟨rfl, hk, _, rfl, Nat.le_of_not_lt hroom⟩
    · split_ifs at h
    · cases h
    · cases h
    · cases h
    · cases h
    · cases h
      exact .inl ⟨_, rfl⟩
  | naming location forms =>
    rw [State.feed] at h
    split at h
    · cases h
    · cases h
      exact .inl ⟨_, rfl⟩
  | finishing location target value forms =>
    rw [State.feed] at h
    split at h
    · cases h
    · cases h
      exact .inl ⟨_, rfl⟩

/-- A reading between two tokens: the expressions that are complete, in order, and what is expected
next. -/
structure Progress where
  finished : List Expr
  state : State

namespace Progress

def start : Progress := ⟨[], .expression []⟩

def absorb (finished : List Expr) : Step → Progress
  | .goOn s => ⟨finished, s⟩
  | .done e => ⟨finished ++ [e], .expression []⟩

/-- Whether the end of the text may come now. -/
def mayEnd (g : Progress) : Bool :=
  match g.state with
  | .expression [] => true
  | _ => false

/-- Takes one token. The end leaves a reading that may end as it is. -/
def feed (g : Progress) (t : Token) : Except ParseError Progress :=
  if t.kind = .eof ∧ g.mayEnd then .ok g else (g.state.feed t).map (absorb g.finished)

def feedAll (g : Progress) : List Token → Except ParseError Progress
  | [] => .ok g
  | t :: ts =>
    match g.feed t with
    | .error e => .error e
    | .ok g' => g'.feedAll ts

theorem feedAll_cons_ok {g g' : Progress} {t : Token} (h : g.feed t = .ok g') (ts : List Token) :
    g.feedAll (t :: ts) = g'.feedAll ts := by
  rw [feedAll, h]

theorem feedAll_cons_error {g : Progress} {t : Token} {e : ParseError} (h : g.feed t = .error e)
    (ts : List Token) : g.feedAll (t :: ts) = .error e := by
  rw [feedAll, h]

theorem feedAll_append_ok {g g' : Progress} {us : List Token} (h : g.feedAll us = .ok g')
    (ts : List Token) : g.feedAll (us ++ ts) = g'.feedAll ts := by
  induction us generalizing g with
  | nil =>
    cases h
    rfl
  | cons u us ih =>
    rw [List.cons_append]
    rcases hu : g.feed u with e | g₁
    · rw [feedAll_cons_error hu] at h
      cases h
    · rw [feedAll_cons_ok hu] at h ⊢
      exact ih h

theorem feedAll_append_error {g : Progress} {us : List Token} {e : ParseError}
    (h : g.feedAll us = .error e) (ts : List Token) : g.feedAll (us ++ ts) = .error e := by
  induction us generalizing g with
  | nil => cases h
  | cons u us ih =>
    rw [List.cons_append]
    rcases hu : g.feed u with e' | g₁
    · rw [feedAll_cons_error hu] at h ⊢
      exact h
    · rw [feedAll_cons_ok hu] at h ⊢
      exact ih h

theorem feedAll_cons_inv {g g' : Progress} {t : Token} {ts : List Token}
    (h : g.feedAll (t :: ts) = .ok g') : ∃ g₁, g.feed t = .ok g₁ ∧ g₁.feedAll ts = .ok g' := by
  rcases ht : g.feed t with err | g₁
  · rw [feedAll_cons_error ht] at h
    cases h
  · rw [feedAll_cons_ok ht] at h
    exact ⟨g₁, rfl, h⟩

theorem feedAll_append_inv {g g' : Progress} {us ts : List Token}
    (h : g.feedAll (us ++ ts) = .ok g') : ∃ g₁, g.feedAll us = .ok g₁ ∧ g₁.feedAll ts = .ok g' := by
  rcases hus : g.feedAll us with err | g₁
  · rw [feedAll_append_error hus] at h
    cases h
  · rw [feedAll_append_ok hus] at h
    exact ⟨g₁, rfl, h⟩

/-- What is done to readings one token at a time is done to them over a list of tokens. -/
theorem feedAll_natural {move : Progress → Progress} {carry : Token → Token}
    {outcome : Except ParseError Progress → Except ParseError Progress}
    (hok : ∀ g, outcome (.ok g) = .ok (move g))
    (herror : ∀ err, ∃ err', outcome (.error err) = .error err')
    (hfeed : ∀ g t, (move g).feed (carry t) = outcome (g.feed t)) (g : Progress)
    (ts : List Token) : (move g).feedAll (ts.map carry) = outcome (g.feedAll ts) := by
  induction ts generalizing g with
  | nil => exact (hok g).symm
  | cons t ts ih =>
    have ht := hfeed g t
    rw [List.map_cons]
    rcases hg : g.feed t with err | g₁
    · obtain ⟨err', herr⟩ := herror err
      rw [hg, herr] at ht
      rw [feedAll_cons_error hg, feedAll_cons_error ht, herr]
    · rw [hg, hok] at ht
      rw [feedAll_cons_ok hg, feedAll_cons_ok ht, ih]

theorem feedAll_error {g : Progress} {ts : List Token} {e : ParseError}
    (h : g.feedAll ts = .error e) :
    ∃ us t vs g', ts = us ++ t :: vs ∧ g.feedAll us = .ok g' ∧ g'.feed t = .error e := by
  induction ts generalizing g with
  | nil => cases h
  | cons t ts ih =>
    rcases ht : g.feed t with e' | g₁
    · rw [feedAll_cons_error ht] at h
      cases h
      exact ⟨[], t, ts, g, rfl, rfl, ht⟩
    · rw [feedAll_cons_ok ht] at h
      obtain ⟨us, u, vs, g', rfl, hus, hu⟩ := ih h
      refine ⟨t :: us, u, vs, g', rfl, ?_, hu⟩
      rwa [feedAll_cons_ok ht]

theorem feed_eof {g : Progress} {t : Token} (ht : t.kind = .eof) (hg : g.mayEnd) :
    g.feed t = .ok g := by
  rw [feed, if_pos ⟨ht, hg⟩]

theorem feed_of_ne_eof {g : Progress} {t : Token} (ht : t.kind ≠ .eof) :
    g.feed t = (g.state.feed t).map (absorb g.finished) := by
  rw [feed, if_neg fun h => ht h.1]

theorem feed_of_not_mayEnd {g : Progress} {t : Token} (hg : g.mayEnd = false) :
    g.feed t = (g.state.feed t).map (absorb g.finished) := by
  rw [feed, if_neg fun h => by rw [hg] at h; exact absurd h.2 (by simp)]

theorem takes_of_feed_ok {g g' : Progress} {t : Token} (h : g.feed t = .ok g')
    (ht : t.kind ≠ .eof) : ∃ step, Takes t g.state step ∧ g' = absorb g.finished step := by
  rw [feed_of_ne_eof ht] at h
  rcases hs : g.state.feed t with err | step
  · rw [hs] at h
    cases h
  · rw [hs] at h
    cases h
    exact ⟨step, takes_of_feed hs, rfl⟩

theorem feed_of_takes {s : State} {t : Token} {step : Step} (h : Takes t s step)
    (finished : List Expr) : (⟨finished, s⟩ : Progress).feed t = .ok (absorb finished step) := by
  rw [feed_of_ne_eof h.ne_eof]
  simp only [h.feed]
  rfl

theorem feed_eof_ok {g g' : Progress} {t : Token} (h : g.feed t = .ok g') (ht : t.kind = .eof) :
    g' = g ∧ g.mayEnd := by
  by_cases hg : g.mayEnd
  · rw [feed_eof ht hg] at h
    exact ⟨(Except.ok.inj h).symm, hg⟩
  · rw [feed_of_not_mayEnd (by simpa using hg)] at h
    obtain ⟨e, he⟩ := g.state.feed_eof t ht
    rw [he] at h
    cases h

theorem state_of_mayEnd {g : Progress} (h : g.mayEnd) : g.state = .expression [] := by
  rw [mayEnd] at h
  split at h
  · assumption
  · cases h

end Progress

private theorem mayEnd_of_deliver_goOn {e : Expr} {forms : List Waiting} {s : State}
    (h : deliver e forms = .goOn s) (finished : List Expr) :
    (⟨finished, s⟩ : Progress).mayEnd = false := by
  match forms with
  | [] => cases h
  | .head _ :: _ | .value .. :: _ | .argument .. :: _ =>
    cases h
    rfl

theorem mayEnd_of_feed_goOn {s s' : State} {t : Token} (h : s.feed t = .ok (.goOn s'))
    (finished : List Expr) : (⟨finished, s'⟩ : Progress).mayEnd = false := by
  generalize hstep : Step.goOn s' = step at h
  cases takes_of_feed h with
  | opening | word | target =>
    cases hstep
    rfl
  | leaf | call | define => exact mayEnd_of_deliver_goOn hstep.symm finished

theorem nextToken_ok {p p' : Parser} {u : Token} (h : p.nextToken = (.ok u, p')) :
    p'.current = some u ∧ p.scanner.next = (.ok u, p'.scanner) := by
  rw [nextToken] at h
  rcases hn : p.scanner.next with ⟨e | v, s⟩
  · rw [hn, receive] at h
    cases h
  · rw [hn, receive] at h
    cases h
    exact ⟨rfl, rfl⟩

theorem nextToken_error {p p' : Parser} {err : ParseError} (h : p.nextToken = (.error err, p')) :
    ∃ e, err = .malformed e ∧ p.scanner.next = (.error e, p'.scanner) := by
  rw [nextToken] at h
  rcases hn : p.scanner.next with ⟨e | v, s⟩
  · rw [hn, receive] at h
    cases h
    exact ⟨e, rfl, rfl⟩
  · rw [hn, receive] at h
    cases h

/-- The parser at `p`, where the reading is at `g`, consumes the tokens `ts`, requesting the next
one after each, and comes to `p'` and `g'`. -/
inductive Runs : Progress → Parser → List Token → Progress → Parser → Prop
  | refl (g p) : Runs g p [] g p
  | step {g g₁ g' p p₁ p' t u ts} (current : p.current = some t) (inside : t.kind ≠ .eof)
      (fed : g.feed t = .ok g₁) (request : p.nextToken = (.ok u, p₁)) (rest : Runs g₁ p₁ ts g' p') :
      Runs g p (t :: ts) g' p'

/-- The parser at `p`, where the reading is at `g`, stops with the error `err` at `p'`: the reading
refuses the current token, or the token requested next is malformed. -/
inductive Fails : Progress → Parser → ParseError → Parser → Prop
  | refused {g p err t} (current : p.current = some t) (fed : g.feed t = .error err) :
      Fails g p err p
  | starved {g g₁ p p' err t} (current : p.current = some t) (inside : t.kind ≠ .eof)
      (fed : g.feed t = .ok g₁) (request : p.nextToken = (.error err, p')) : Fails g p err p'
  | step {g g₁ p p₁ p' err t u} (current : p.current = some t) (inside : t.kind ≠ .eof)
      (fed : g.feed t = .ok g₁) (request : p.nextToken = (.ok u, p₁)) (rest : Fails g₁ p₁ err p') :
      Fails g p err p'

theorem Runs.append {g g₁ g' : Progress} {p p₁ p' : Parser} {us ts : List Token}
    (h : Runs g p us g₁ p₁) (h' : Runs g₁ p₁ ts g' p') : Runs g p (us ++ ts) g' p' := by
  induction h with
  | refl => exact h'
  | step hc ht hf hn _ ih => exact .step hc ht hf hn (ih h')

theorem Runs.fails {g g₁ : Progress} {p p₁ p' : Parser} {us : List Token} {err : ParseError}
    (h : Runs g p us g₁ p₁) (h' : Fails g₁ p₁ err p') : Fails g p err p' := by
  induction h with
  | refl => exact h'
  | step hc ht hf hn _ ih => exact .step hc ht hf hn (ih h')

theorem Runs.feedAll {g g' : Progress} {p p' : Parser} {ts : List Token}
    (h : Runs g p ts g' p') : g.feedAll ts = .ok g' := by
  induction h with
  | refl => rfl
  | step _ _ hf _ _ ih => rw [Progress.feedAll_cons_ok hf, ih]

theorem Runs.inside {g g' : Progress} {p p' : Parser} {ts : List Token}
    (h : Runs g p ts g' p') : ∀ t ∈ ts, t.kind ≠ .eof := by
  induction h with
  | refl => simp
  | step _ ht _ _ _ ih =>
    intro t hmem
    rcases List.mem_cons.mp hmem with rfl | hmem
    · exact ht
    · exact ih t hmem

theorem resume_runs {s : State} {p p' : Parser} {e : Expr} (h : resume s p = (.ok e, p'))
    (finished : List Expr) :
    (∃ t ts, Runs ⟨finished, s⟩ p (t :: ts) ⟨finished ++ [e], .expression []⟩ p') ∧
      ∃ u, p'.current = some u := by
  fun_induction resume s p with
  | case1 p hc => cases h
  | case2 s p t hc e' hf => cases h
  | case3 s p t hc step hf e' p₁ hn => cases h
  | case4 s p t hc u p₁ hn e₁ hf =>
    cases h
    have htakes := takes_of_feed hf
    have hfed := Progress.feed_of_takes htakes
    have hruns := Runs.step hc htakes.ne_eof (hfed finished) hn (.refl _ _)
    exact ⟨⟨t, [], hruns⟩, u, (nextToken_ok hn).1⟩
  | case5 s p t hc u p₁ hn s' hf ht hlt hf' ih =>
    obtain ⟨⟨t', ts, hruns⟩, hu⟩ := ih h
    have hfed := Progress.feed_of_takes (takes_of_feed hf)
    have hall := Runs.step hc ht (hfed finished) hn hruns
    exact ⟨⟨t, t' :: ts, hall⟩, hu⟩

-- A reading that may end takes the end and `resume` does not: only there do the two differ.
theorem resume_fails {s : State} {p p' : Parser} {err : ParseError}
    (h : resume s p = (.error err, p')) {t : Token} (hc : p.current = some t)
    {finished : List Expr} (hg : t.kind = .eof → (⟨finished, s⟩ : Progress).mayEnd = false) :
    Fails ⟨finished, s⟩ p err p' := by
  fun_induction resume s p generalizing t with
  | case1 s p hc' => rw [hc] at hc'; cases hc'
  | case2 s p t' hc' e' hf =>
    cases h
    obtain rfl : t = t' := Option.some.inj (hc.symm.trans hc')
    refine .refused hc ?_
    by_cases hk : t.kind = .eof
    · rw [Progress.feed_of_not_mayEnd (hg hk)]
      simp only [hf]
      rfl
    · rw [Progress.feed_of_ne_eof hk]
      simp only [hf]
      rfl
  | case3 s p t' hc' step hf e' p₁ hn =>
    cases h
    have htakes := takes_of_feed hf
    have hfed := Progress.feed_of_takes htakes
    exact .starved hc' htakes.ne_eof (hfed finished) hn
  | case4 s p t' hc' u p₁ hn e₁ hf => cases h
  | case5 s p t' hc' u p₁ hn s' hf ht hlt hf' ih =>
    have hrest := ih h (nextToken_ok hn).1 fun _ => mayEnd_of_feed_goOn hf finished
    have hfed := Progress.feed_of_takes (takes_of_feed hf)
    exact .step hc' ht (hfed finished) hn hrest

theorem parseExprs_runs {p p' : Parser} {es : List Expr} (h : p.parseExprs = (.ok es, p'))
    (finished : List Expr) :
    (∃ ts, Runs ⟨finished, .expression []⟩ p ts ⟨finished ++ es, .expression []⟩ p') ∧
      ∃ u, p'.current = some u ∧ u.kind = .eof := by
  fun_induction parseExprs p generalizing es finished with
  | case1 p hc => cases h
  | case2 p t hc hk =>
    cases h
    refine ⟨⟨[], ?_⟩, t, hc, hk⟩
    rw [List.append_nil]
    exact .refl _ _
  | case3 p t hc hk e p₁ hp => cases h
  | case4 p t hc hk e p₁ hp hlt err p₂ hps ih => cases h
  | case5 p t hc hk e p₁ hp hlt es' p₂ hps ih =>
    cases h
    obtain ⟨⟨t₁, ts₁, hfirst⟩, -⟩ := resume_runs hp finished
    obtain ⟨⟨ts₂, hrest⟩, hend⟩ := ih hps (finished ++ [e])
    rw [List.append_assoc] at hrest
    exact ⟨⟨t₁ :: ts₁ ++ ts₂, hfirst.append hrest⟩, hend⟩

theorem parseExprs_fails {p p' : Parser} {err : ParseError} (h : p.parseExprs = (.error err, p'))
    {t : Token} (hc : p.current = some t) (finished : List Expr) :
    Fails ⟨finished, .expression []⟩ p err p' := by
  fun_induction parseExprs p generalizing t finished with
  | case1 p hc' => rw [hc] at hc'; cases hc'
  | case2 p t' hc' hk => cases h
  | case3 p t' hc' hk e p₁ hp =>
    cases h
    exact resume_fails hp hc' fun hk' => absurd hk' hk
  | case4 p t' hc' hk e p₁ hp hlt err' p₂ hps ih =>
    obtain ⟨⟨t₁, ts₁, hfirst⟩, u, hu⟩ := resume_runs hp finished
    cases h
    exact hfirst.fails (ih hps hu (finished ++ [e]))
  | case5 p t' hc' hk e p₁ hp hlt es' p₂ hps ih => cases h

/-- The tokens from the current one on, and the error behind them. -/
def upcoming (p : Parser) : List Token × Option LexError :=
  match p.current with
  | none => ([], none)
  | some t => if t.kind = .eof then ([t], none) else (t :: p.scanner.tokens.1, p.scanner.tokens.2)

theorem upcoming_of_eof {p : Parser} {t : Token} (hc : p.current = some t) (ht : t.kind = .eof) :
    p.upcoming = ([t], none) := by
  rw [upcoming, hc]
  exact if_pos ht

theorem upcoming_of_current {p : Parser} {t : Token} (hc : p.current = some t)
    (ht : t.kind ≠ .eof) : p.upcoming = (t :: p.scanner.tokens.1, p.scanner.tokens.2) := by
  rw [upcoming, hc]
  exact if_neg ht

theorem exists_upcoming_eq_cons {p : Parser} {t : Token} (hc : p.current = some t) :
    ∃ ts, p.upcoming.1 = t :: ts := by
  by_cases ht : t.kind = .eof
  · exact ⟨[], by rw [upcoming_of_eof hc ht]⟩
  · exact ⟨p.scanner.tokens.1, by rw [upcoming_of_current hc ht]⟩

theorem tokens_of_next_ok {s s' : Scanner} {u : Token} (h : s.next = (.ok u, s'))
    {p : Parser} (hc : p.current = some u) (hs : p.scanner = s') : s.tokens = p.upcoming := by
  have hn : s.next.1 = .ok u := by rw [h]
  by_cases hu : u.kind = .eof
  · rw [Scanner.tokens_of_eof hn hu, upcoming_of_eof hc hu]
  · rw [Scanner.tokens_of_token hn hu, upcoming_of_current hc hu, h, hs]

theorem upcoming_of_request {p p' : Parser} {t u : Token} (hc : p.current = some t)
    (ht : t.kind ≠ .eof) (hn : p.nextToken = (.ok u, p')) :
    p.upcoming = (t :: p'.upcoming.1, p'.upcoming.2) := by
  obtain ⟨hu, hs⟩ := nextToken_ok hn
  rw [upcoming_of_current hc ht, tokens_of_next_ok hs hu rfl]

theorem upcoming_of_starved {p p' : Parser} {t : Token} {err : ParseError}
    (hc : p.current = some t) (ht : t.kind ≠ .eof) (hn : p.nextToken = (.error err, p')) :
    ∃ e, err = .malformed e ∧ p.upcoming = ([t], some e) := by
  obtain ⟨e, rfl, hs⟩ := nextToken_error hn
  have he : p.scanner.next.1 = .error e := by rw [hs]
  exact ⟨e, rfl, by rw [upcoming_of_current hc ht, Scanner.tokens_of_error he]⟩

theorem Runs.upcoming {g g' : Progress} {p p' : Parser} {ts : List Token}
    (h : Runs g p ts g' p') : p.upcoming = (ts ++ p'.upcoming.1, p'.upcoming.2) := by
  induction h with
  | refl => rfl
  | step hc ht _ hn _ ih => rw [upcoming_of_request hc ht hn, ih, List.cons_append]

/-- A failure seen from the tokens: one of them is refused and still current, or all are taken and
the error behind them is met. -/
theorem Fails.upcoming {g : Progress} {p p' : Parser} {err : ParseError} (h : Fails g p err p') :
    (∃ us t vs g', p.upcoming.1 = us ++ t :: vs ∧ g.feedAll us = .ok g' ∧
      g'.feed t = .error err ∧ p'.current = some t) ∨
    ∃ e g', err = .malformed e ∧ p.upcoming.2 = some e ∧ g.feedAll p.upcoming.1 = .ok g' := by
  induction h with
  | @refused g p err t hc hf =>
    obtain ⟨ts, hts⟩ := exists_upcoming_eq_cons hc
    exact .inl ⟨[], t, ts, g, hts, rfl, hf, hc⟩
  | @starved g g₁ p p' err t hc ht hf hn =>
    obtain ⟨e, rfl, hup⟩ := upcoming_of_starved hc ht hn
    refine .inr ⟨e, g₁, rfl, by rw [hup], ?_⟩
    rw [hup, Progress.feedAll_cons_ok hf]
    rfl
  | @step g g₁ p p₁ p' err t u hc ht hf hn _ ih =>
    have hup := upcoming_of_request hc ht hn
    rcases ih with ⟨us, v, vs, g', hus, hall, hv, hcur⟩ | ⟨e, g', rfl, he, hall⟩
    · refine .inl ⟨t :: us, v, vs, g', ?_, ?_, hv, hcur⟩
      · rw [hup, hus, List.cons_append]
      · rw [Progress.feedAll_cons_ok hf, hall]
    · refine .inr ⟨e, g', rfl, by rw [hup, he], ?_⟩
      rw [hup, Progress.feedAll_cons_ok hf, hall]

theorem upcoming_of_start_ok {text : String} {p : Parser} {t : Token}
    (h : (ofText text).start = (.ok t, p)) : p.current = some t ∧ p.upcoming = tokenize text := by
  obtain ⟨hc, hs⟩ := nextToken_ok (p := ⟨(Scanner.fresh text.toList).advance, none⟩) h
  exact ⟨hc, (tokens_of_next_ok hs hc rfl).symm⟩

theorem tokenize_of_start_error {text : String} {p : Parser} {err : ParseError}
    (h : (ofText text).start = (.error err, p)) :
    ∃ e, err = .malformed e ∧ tokenize text = ([], some e) := by
  obtain ⟨e, rfl, hs⟩ := nextToken_error (p := ⟨(Scanner.fresh text.toList).advance, none⟩) h
  have he : (Scanner.fresh text.toList).advance.next.1 = .error e := by rw [hs]
  exact ⟨e, rfl, Scanner.tokens_of_error he⟩

def Progress.program (g : Progress) (ts : List Token) : Program :=
  ⟨((g.finished.head?.map Expr.location).or (ts.head?.map Token.location)).getD default, g.finished⟩

end SmallLisp.Parser

namespace SmallLisp

open SmallLisp.Parser

/-- A text is parsed as its list of tokens is read: the first refused token is the error, then the
malformed one behind the list. -/
theorem parse_eq (text : String) :
    parse text =
      match Progress.start.feedAll (tokenize text).1, (tokenize text).2 with
      | .error err, _ => .error err
      | .ok _, some e => .error (.malformed e)
      | .ok g, none => .ok (g.program (tokenize text).1) := by
  rw [parse]
  rcases hstart : (ofText text).start with ⟨err | t, p⟩
  · obtain ⟨e, rfl, ht⟩ := tokenize_of_start_error hstart
    rw [ht]
    rfl
  · obtain ⟨hc, hup⟩ := upcoming_of_start_ok hstart
    rw [← hup]
    simp only [parseProgram, hc]
    rcases hes : p.parseExprs with ⟨err | es, p'⟩
    · rcases (parseExprs_fails hes hc []).upcoming with
        ⟨us, u, vs, g, hus, hall, hu, -⟩ | ⟨e, g, rfl, he, hall⟩
      · have hfail : Progress.start.feedAll p.upcoming.1 = .error err := by
          rw [hus, Progress.start, Progress.feedAll_append_ok hall,
            Progress.feedAll_cons_error hu]
        rw [hfail]
      · have hok : Progress.start.feedAll p.upcoming.1 = .ok g := hall
        rw [hok, he]
    · obtain ⟨⟨ts, hruns⟩, u, hu, hk⟩ := parseExprs_runs hes []
      rw [hruns.upcoming, upcoming_of_eof hu hk]
      have hall : Progress.start.feedAll (ts ++ [u]) = .ok ⟨es, .expression []⟩ := by
        rw [Progress.start, Progress.feedAll_append_ok hruns.feedAll,
          Progress.feedAll_cons_ok (Progress.feed_eof hk rfl)]
        rfl
      rw [hall]
      obtain ⟨rest, hrest⟩ := exists_upcoming_eq_cons hc
      have hhead : (ts ++ [u]).head? = some t := by
        rw [hruns.upcoming, upcoming_of_eof hu hk] at hrest
        exact congrArg List.head? hrest
      rcases es with - | ⟨e, es⟩
      · simp only [Progress.program, hhead]
        rfl
      · rfl

theorem parse_ok_iff {text : String} {p : Program} :
    parse text = .ok p ↔ ∃ ts g, tokenize text = (ts, none) ∧ Progress.start.feedAll ts = .ok g ∧
      p = g.program ts := by
  rw [parse_eq]
  constructor
  · intro h
    rcases ht : tokenize text with ⟨ts, stop⟩
    rw [ht] at h
    rcases hg : Progress.start.feedAll ts with err | g
    · simp only [hg] at h
      cases h
    · rcases stop with - | e
      · simp only [hg, Except.ok.injEq] at h
        exact ⟨ts, g, rfl, hg, h.symm⟩
      · simp only [hg] at h
        cases h
  · rintro ⟨ts, g, ht, hg, rfl⟩
    simp only [ht, hg]

theorem exists_eof_of_tokenize {text : String} {ts : List Token} (h : tokenize text = (ts, none)) :
    ∃ us t, ts = us ++ [t] ∧ t.kind = .eof ∧ ∀ u ∈ us, u.kind ≠ .eof := by
  obtain ⟨us, hus, ⟨q, rfl, -⟩ | ⟨-, he⟩⟩ := (tokenize_eq_iff.mp h).eof_last
  · exact ⟨us, _, rfl, rfl, hus⟩
  · cases he

theorem eof_last_of_tokenize {text : String} {us vs : List Token} {t : Token}
    {stop : Option LexError} (h : tokenize text = (us ++ t :: vs, stop)) (ht : t.kind = .eof) :
    vs = [] ∧ stop = none := by
  obtain ⟨ws, hws, ⟨q, hts, hstop⟩ | ⟨hts, -⟩⟩ := (tokenize_eq_iff.mp h).eof_last
  · refine ⟨?_, hstop⟩
    rcases List.eq_nil_or_concat vs with hvs | ⟨vs', last, rfl⟩
    · exact hvs
    · rw [List.concat_eq_append, ← List.cons_append, ← List.append_assoc] at hts
      have hmem : t ∈ ws := by
        rw [← (List.append_inj' hts rfl).1]
        simp
      exact absurd ht (hws t hmem)
  · exact absurd ht (hws t (by rw [← hts]; simp))

/-- A text that parses is read to a place between two top-level expressions, and ends there. -/
theorem exists_reading_of_parse {text : String} {p : Program} (h : parse text = .ok p) :
    ∃ us t, tokenize text = (us ++ [t], none) ∧ t.kind = .eof ∧ (∀ u ∈ us, u.kind ≠ .eof) ∧
      Progress.start.feedAll us = .ok ⟨p.exprs, .expression []⟩ := by
  obtain ⟨ts, g, ht, hg, rfl⟩ := parse_ok_iff.mp h
  obtain ⟨us, t, rfl, hk, hus⟩ := exists_eof_of_tokenize ht
  refine ⟨us, t, ht, hk, hus, ?_⟩
  obtain ⟨g₁, hall, hlast⟩ := Progress.feedAll_append_inv hg
  obtain ⟨g₂, hf, hnil⟩ := Progress.feedAll_cons_inv hlast
  obtain ⟨rfl, hend⟩ := Progress.feed_eof_ok hf hk
  cases hnil
  rw [hall, ← Progress.state_of_mayEnd hend]
  rfl

/-- The parser as it is left when a text has been parsed, or has not. -/
def Parser.afterParse (text : String) : Parser :=
  match (ofText text).start with
  | (.error _, p) => p
  | (.ok _, p) => p.parseProgram.2

/-- A token that ends the parsing of a text is still the current one. -/
theorem refused_of_parse {text : String} {cause : ParseError.Cause} {location : Location}
    (h : parse text = .error (.refused cause location)) :
    ∃ us t vs g, (tokenize text).1 = us ++ t :: vs ∧ Progress.start.feedAll us = .ok g ∧
      g.feed t = .error (.refused cause location) ∧ (afterParse text).current = some t := by
  rw [parse] at h
  rcases hstart : (ofText text).start with ⟨err | t, p⟩
  · obtain ⟨e, rfl, -⟩ := tokenize_of_start_error hstart
    rw [hstart] at h
    cases h
  · rw [hstart] at h
    obtain ⟨hc, hup⟩ := upcoming_of_start_ok hstart
    simp only [parseProgram, hc] at h
    rcases hes : p.parseExprs with ⟨err | es, p'⟩
    · simp only [hes] at h
      cases h
      have hafter : afterParse text = p' := by
        simp only [afterParse, hstart, parseProgram, hc, hes]
      rw [hafter, ← hup]
      rcases (parseExprs_fails hes hc []).upcoming with hrefused | ⟨e, g, he, -⟩
      · exact hrefused
      · cases he
    · simp only [hes] at h
      cases h

end SmallLisp

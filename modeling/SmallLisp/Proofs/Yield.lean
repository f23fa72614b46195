import Mathlib.Data.List.Forall2
import SmallLisp.Proofs.Reading

/-!
# The yield of a tree

The tokens that a tree stands for, in source order. A tree records the places of its opening
parentheses and of its leaves; those of the word that makes a definition and of the closing
parentheses are lost. Parsing an expression consumes exactly the yield of the tree it gives.
-/
namespace SmallLisp

open SmallLisp.Parser

/-- A token as a tree records it. -/
structure Mark where
  kind : Token.Kind
  location : Option Location

/-- Whether the token `t` can be the one recorded as `m`. -/
def Token.Fits (t : Token) (m : Mark) : Prop :=
  t.kind = m.kind ∧ ∀ p ∈ m.location, t.location = p

/-- Whether the tokens `ts` can be those recorded as `ms`. -/
def Recorded (ts : List Token) (ms : List Mark) : Prop := List.Forall₂ Token.Fits ts ms

theorem Token.fits_at (t : Token) : t.Fits ⟨t.kind, some t.location⟩ :=
  ⟨rfl, fun _ hp => Option.some.inj hp⟩

theorem Token.fits_anywhere {t : Token} {kind : Token.Kind} (h : t.kind = kind) :
    t.Fits ⟨kind, none⟩ := ⟨h, by simp⟩

theorem Recorded.split {ts : List Token} {ms ms' : List Mark} (h : Recorded ts (ms ++ ms')) :
    ∃ us vs, ts = us ++ vs ∧ Recorded us ms ∧ Recorded vs ms' :=
  ⟨ts.take ms.length, ts.drop ms.length, (List.take_append_drop _ _).symm,
    List.forall₂_take_append ts ms ms' h, List.forall₂_drop_append ts ms ms' h⟩

theorem Recorded.single {ts : List Token} {m : Mark} (h : Recorded ts [m]) :
    ∃ t, ts = [t] ∧ t.Fits m := by
  obtain ⟨t, us, ht, hus, rfl⟩ := List.forall₂_cons_right_iff.mp h
  obtain rfl := List.forall₂_nil_right_iff.mp hus
  exact ⟨t, rfl, ht⟩

namespace Expr

def openingMark (location : Location) : Mark := ⟨.opening, some location⟩

def closingMark : Mark := ⟨.closing, none⟩

def defineMark : Mark := ⟨.symbol defineWord, none⟩

end Expr

def Symbol.mark (s : Symbol) : Mark := ⟨.symbol s.name, some s.location⟩

mutual

/-- The tokens of an expression in source order. -/
def Expr.yield : Expr → List Mark
  | .symbol s => [s.mark]
  | .integer value location => [⟨.integer value, some location⟩]
  | .text contents location => [⟨.text contents, some location⟩]
  | .define target value location =>
    [Expr.openingMark location, Expr.defineMark, target.mark] ++ value.yield ++ [Expr.closingMark]
  | .call callee arguments location =>
    [Expr.openingMark location] ++ callee.yield ++ Expr.yields arguments ++ [Expr.closingMark]

def Expr.yields : List Expr → List Mark
  | [] => []
  | e :: es => e.yield ++ Expr.yields es

end

namespace Expr

@[simp] theorem yields_nil : yields [] = [] := rfl

@[simp] theorem yields_cons (e : Expr) (es : List Expr) :
    yields (e :: es) = e.yield ++ yields es := rfl

theorem yields_append (es fs : List Expr) : yields (es ++ fs) = yields es ++ yields fs := by
  induction es with
  | nil => rfl
  | cons e es ih => rw [List.cons_append, yields_cons, ih, yields_cons, List.append_assoc]

end Expr

mutual

/-- No callee in the expression is the word that makes a form a definition. -/
def Expr.Proper : Expr → Prop
  | .symbol _ | .integer .. | .text .. => True
  | .define _ value _ => value.Proper
  | .call callee arguments _ => ¬ IsDefineWord callee ∧ callee.Proper ∧ Expr.AllProper arguments

def Expr.AllProper : List Expr → Prop
  | [] => True
  | e :: es => e.Proper ∧ Expr.AllProper es

end

/-- Whether two records can be of the same token. -/
def Mark.Agrees (m m' : Mark) : Prop :=
  m.kind = m'.kind ∧ ∀ p ∈ m.location, ∀ p' ∈ m'.location, p = p'

/-- Whether two yields can be of the same tokens. -/
def Agree (ms ms' : List Mark) : Prop := List.Forall₂ Mark.Agrees ms ms'

/-- Whether no expression starts where `ms` does. -/
def Closed (ms : List Mark) : Prop := ∀ m ∈ ms.head?, m.kind = .closing

theorem agree_cons {m m' : Mark} {ms ms' : List Mark} :
    Agree (m :: ms) (m' :: ms') ↔ m.Agrees m' ∧ Agree ms ms' := List.forall₂_cons

theorem Agree.symm {ms ms' : List Mark} (h : Agree ms ms') : Agree ms' ms := by
  refine List.Forall₂.flip (h.imp fun m m' hm => ?_)
  exact ⟨hm.1.symm, fun p hp p' hp' => (hm.2 p' hp' p hp).symm⟩

private theorem Mark.agrees_placed {kind kind' : Token.Kind} {p p' : Location} :
    Mark.Agrees ⟨kind, some p⟩ ⟨kind', some p'⟩ ↔ kind = kind' ∧ p = p' := by
  simp [Mark.Agrees]

private theorem Mark.agrees_unplaced {kind kind' : Token.Kind} {p : Option Location} :
    Mark.Agrees ⟨kind, none⟩ ⟨kind', p⟩ ↔ kind = kind' := by
  simp [Mark.Agrees]

private theorem isDefineWord_of_agree {e : Expr} {ms r : List Mark}
    (h : Agree (Expr.defineMark :: ms) (e.yield ++ r)) : IsDefineWord e := by
  cases e with
  | symbol s =>
    have hm : Expr.defineMark.Agrees s.mark := (List.forall₂_cons.mp h).1
    rw [Expr.defineMark, Symbol.mark, Mark.agrees_unplaced] at hm
    exact (Token.Kind.symbol.inj hm).symm
  | integer | text | define | call =>
    have hm := (List.forall₂_cons.mp h).1.1
    cases hm

private theorem closed_closing (r : List Mark) : Closed (Expr.closingMark :: r) := by
  intro m hm
  cases hm
  rfl

private theorem not_agree_closed {e : Expr} {es : List Expr} {r r' : List Mark} (hr : Closed r)
    (h : Agree r (Expr.yields (e :: es) ++ r')) : False := by
  rcases r with - | ⟨m, r⟩
  · cases e <;> cases h
  · have hm := hr m rfl
    cases e <;> rcases h with - | ⟨h, -⟩ <;> rw [h.1] at hm <;> cases hm

-- More may follow the two yields: a part of a tree is compared before it is known to end where its
-- counterpart does.
mutual

private theorem eq_of_agree : (e e' : Expr) → {r r' : List Mark} → e.Proper → e'.Proper →
    Agree (e.yield ++ r) (e'.yield ++ r') → e = e' ∧ Agree r r'
  | .symbol s, e', r, r', _, _, h => by
    cases e' with
    | symbol s' =>
      obtain ⟨hm, hr⟩ := agree_cons.mp h
      rw [Symbol.mark, Symbol.mark, Mark.agrees_placed] at hm
      obtain ⟨name, location⟩ := s
      obtain ⟨name', location'⟩ := s'
      obtain ⟨hk, rfl⟩ := hm
      cases hk
      exact ⟨rfl, hr⟩
    | integer | text | define | call => cases (agree_cons.mp h).1.1
  | .integer n p, e', r, r', _, _, h => by
    cases e' with
    | integer n' p' =>
      obtain ⟨hm, hr⟩ := agree_cons.mp h
      obtain ⟨hk, rfl⟩ := Mark.agrees_placed.mp hm
      cases hk
      exact ⟨rfl, hr⟩
    | symbol | text | define | call => cases (agree_cons.mp h).1.1
  | .text c p, e', r, r', _, _, h => by
    cases e' with
    | text c' p' =>
      obtain ⟨hm, hr⟩ := agree_cons.mp h
      obtain ⟨hk, rfl⟩ := Mark.agrees_placed.mp hm
      cases hk
      exact ⟨rfl, hr⟩
    | symbol | integer | define | call => cases (agree_cons.mp h).1.1
  | .define target value p, e', r, r', he, he', h => by
    cases e' with
    | define target' value' p' =>
      simp only [Expr.yield, List.append_assoc, List.cons_append, List.nil_append,
        agree_cons] at h
      obtain ⟨hp, -, ht, hv⟩ := h
      obtain ⟨hvalue, hr⟩ := eq_of_agree value value' he he' hv
      obtain ⟨-, rfl⟩ := Mark.agrees_placed.mp hp
      obtain ⟨hname, hplace⟩ := Mark.agrees_placed.mp ht
      obtain ⟨name, location⟩ := target
      obtain ⟨name', location'⟩ := target'
      cases hname
      cases hplace
      exact ⟨by rw [hvalue], (agree_cons.mp hr).2⟩
    | call callee arguments p' =>
      simp only [Expr.yield, List.append_assoc, List.cons_append, List.nil_append,
        agree_cons] at h
      exact absurd (isDefineWord_of_agree h.2) he'.1
    | symbol | integer | text => cases (agree_cons.mp h).1.1
  | .call callee arguments p, e', r, r', he, he', h => by
    cases e' with
    | define target' value' p' =>
      simp only [Expr.yield, List.append_assoc, List.cons_append, List.nil_append,
        agree_cons] at h
      exact absurd (isDefineWord_of_agree h.2.symm) he.1
    | call callee' arguments' p' =>
      simp only [Expr.yield, List.append_assoc, List.cons_append, List.nil_append,
        agree_cons] at h
      obtain ⟨hp, hc⟩ := h
      obtain ⟨hcallee, ha⟩ := eq_of_agree callee callee' he.2.1 he'.2.1 hc
      obtain ⟨harguments, hr⟩ := eq_of_agree_all arguments arguments' he.2.2 he'.2.2
        (closed_closing r) (closed_closing r') ha
      obtain ⟨-, rfl⟩ := Mark.agrees_placed.mp hp
      exact ⟨by rw [hcallee, harguments], (agree_cons.mp hr).2⟩
    | symbol | integer | text => cases (agree_cons.mp h).1.1

private theorem eq_of_agree_all : (es es' : List Expr) → {r r' : List Mark} →
    Expr.AllProper es → Expr.AllProper es' → Closed r → Closed r' →
    Agree (Expr.yields es ++ r) (Expr.yields es' ++ r') → es = es' ∧ Agree r r'
  | [], [], r, r', _, _, _, _, h => ⟨rfl, h⟩
  | [], e' :: es', r, r', _, _, hr, _, h => (not_agree_closed hr h).elim
  | e :: es, [], r, r', _, _, _, hr', h => (not_agree_closed hr' h.symm).elim
  | e :: es, e' :: es', r, r', hes, hes', hr, hr', h => by
    rw [Expr.yields_cons, Expr.yields_cons, List.append_assoc, List.append_assoc] at h
    obtain ⟨he, hrest⟩ := eq_of_agree e e' hes.1 hes'.1 h
    obtain ⟨hes, hr⟩ := eq_of_agree_all es es' hes.2 hes'.2 hr hr' hrest
    exact ⟨by rw [he, hes], hr⟩

end

namespace Parser

/-- The tokens of an open form that have been consumed. -/
def Waiting.yield : Waiting → List Mark
  | .head location => [Expr.openingMark location]
  | .value location target => [Expr.openingMark location, Expr.defineMark, target.mark]
  | .argument location callee arguments =>
    [Expr.openingMark location] ++ callee.yield ++ Expr.yields arguments.reverse

def Waiting.yields : List Waiting → List Mark
  | [] => []
  | w :: forms => Waiting.yields forms ++ w.yield

def State.yield : State → List Mark
  | .expression forms => Waiting.yields forms
  | .naming location forms =>
    Waiting.yields forms ++ [Expr.openingMark location, Expr.defineMark]
  | .finishing location target value forms =>
    Waiting.yields forms ++ [Expr.openingMark location, Expr.defineMark, target.mark] ++ value.yield

/-- The tokens that a reading has taken. -/
def Progress.yield (g : Progress) : List Mark := Expr.yields g.finished ++ g.state.yield

theorem yield_leaf {t : Token} {e : Expr} (h : leaf? t = some e) :
    e.yield = [⟨t.kind, some t.location⟩] := by
  rcases leaf?_cases h with ⟨name, hk, rfl⟩ | ⟨value, hk, rfl⟩ | ⟨contents, hk, rfl⟩
  · rw [hk]
    rfl
  · rw [hk]
    rfl
  · rw [hk]
    rfl

namespace Progress

theorem yield_deliver (finished : List Expr) (e : Expr) (forms : List Waiting) :
    (absorb finished (deliver e forms)).yield =
      Expr.yields finished ++ Waiting.yields forms ++ e.yield := by
  match forms with
  | [] => simp [deliver, absorb, yield, State.yield, Waiting.yields, Expr.yields_append]
  | .head _ :: _ => simp [deliver, absorb, yield, State.yield, Waiting.yields, Waiting.yield]
  | .value .. :: _ => simp [deliver, absorb, yield, State.yield, Waiting.yields, Waiting.yield]
  | .argument .. :: _ =>
    simp [deliver, absorb, yield, State.yield, Waiting.yields, Waiting.yield, Expr.yields_append]

theorem yield_feed {g g' : Progress} {t : Token} (h : g.feed t = .ok g') (ht : t.kind ≠ .eof) :
    ∃ m, t.Fits m ∧ g'.yield = g.yield ++ [m] := by
  obtain ⟨step, hstep, rfl⟩ := takes_of_feed_ok h ht
  obtain ⟨finished, s⟩ := g
  cases hstep with
  | opening hk =>
    refine ⟨⟨t.kind, some t.location⟩, t.fits_at, ?_⟩
    simp [hk, absorb, yield, State.yield, Waiting.yields, Waiting.yield, Expr.openingMark]
  | word hk =>
    refine ⟨Expr.defineMark, Token.fits_anywhere hk, ?_⟩
    simp [absorb, yield, State.yield, Waiting.yields, Waiting.yield]
  | leaf hleaf =>
    refine ⟨⟨t.kind, some t.location⟩, t.fits_at, ?_⟩
    rw [yield_deliver, yield_leaf hleaf]
    rfl
  | call hk =>
    refine ⟨Expr.closingMark, Token.fits_anywhere hk, ?_⟩
    rw [yield_deliver]
    simp [yield, State.yield, Waiting.yields, Waiting.yield, Expr.yield]
  | @target location forms name hk =>
    refine ⟨⟨t.kind, some t.location⟩, t.fits_at, ?_⟩
    simp [hk, absorb, yield, State.yield, Waiting.yields, Waiting.yield, Symbol.mark]
  | define hk =>
    refine ⟨Expr.closingMark, Token.fits_anywhere hk, ?_⟩
    rw [yield_deliver]
    simp [yield, State.yield, Expr.yield]

/-- A reading that has taken tokens without the end keeps a record of exactly these. -/
theorem yield_feedAll {g g' : Progress} {ts : List Token} (h : g.feedAll ts = .ok g')
    (hts : ∀ t ∈ ts, t.kind ≠ .eof) : ∃ ms, Recorded ts ms ∧ g'.yield = g.yield ++ ms := by
  induction ts generalizing g with
  | nil =>
    cases h
    exact ⟨[], .nil, by rw [List.append_nil]⟩
  | cons t ts ih =>
    obtain ⟨g₁, hf, hrest⟩ := feedAll_cons_inv h
    obtain ⟨m, hm, hy⟩ := yield_feed hf (hts t (by simp))
    obtain ⟨ms, hms, hy'⟩ := ih hrest fun u hu => hts u (by simp [hu])
    exact ⟨m :: ms, .cons hm hms, by rw [hy', hy, List.append_assoc]; rfl⟩

end Progress

/-- From `p` the parser consumes the tokens `ts`: each is the current one, and the next one is
requested after it. -/
inductive Consumes : Parser → List Token → Parser → Prop
  | refl (p) : Consumes p [] p
  | step {p p₁ p' t u ts} (current : p.current = some t) (request : p.nextToken = (.ok u, p₁))
      (rest : Consumes p₁ ts p') : Consumes p (t :: ts) p'

theorem Runs.consumes {g g' : Progress} {p p' : Parser} {ts : List Token}
    (h : Runs g p ts g' p') : Consumes p ts p' := by
  induction h with
  | refl => exact .refl _
  | step hc _ _ hn _ ih => exact .step hc hn ih

theorem parseExpr_consumes {p p' : Parser} {e : Expr} (h : p.parseExpr = (.ok e, p')) :
    ∃ ts u us, p.Consumes ts p' ∧ Recorded ts e.yield ∧ p'.current = some u ∧
      p.upcoming.1 = ts ++ u :: us := by
  obtain ⟨⟨t, ts, hruns⟩, u, hu⟩ := resume_runs h []
  obtain ⟨ms, hms, hy⟩ := Progress.yield_feedAll hruns.feedAll hruns.inside
  obtain rfl : e.yield = ms := by
    simpa [Progress.yield, State.yield, Waiting.yields] using hy
  obtain ⟨us, hus⟩ := exists_upcoming_eq_cons hu
  exact ⟨t :: ts, u, us, hruns.consumes, hms, hu, by rw [hruns.upcoming, hus]⟩

end Parser

theorem recorded_of_parse {text : String} {program : Program} (h : parse text = .ok program) :
    ∃ ts, tokenize text = (ts, none) ∧
      Recorded ts (Expr.yields program.exprs ++ [⟨.eof, none⟩]) := by
  obtain ⟨us, t, ht, hk, hus, hall⟩ := exists_reading_of_parse h
  obtain ⟨ms, hms, hy⟩ := Progress.yield_feedAll hall hus
  obtain rfl : Expr.yields program.exprs = ms := by
    simpa [Progress.start, Progress.yield, State.yield, Waiting.yields] using hy
  exact ⟨us ++ [t], ht, List.rel_append hms (.cons (Token.fits_anywhere hk) .nil)⟩

/-- A tree is a faithful record of tokens: parsing an expression consumes its yield and no more, a
text that parses is the yields of its expressions, and no two proper trees can have the same
tokens. -/
theorem tree_records_tokens :
    (∀ (p p' : Parser) (e : Expr), p.parseExpr = (.ok e, p') →
      ∃ ts u us, p.Consumes ts p' ∧ Recorded ts e.yield ∧ p'.current = some u ∧
        p.upcoming.1 = ts ++ u :: us) ∧
    (∀ (text : String) (program : Program), parse text = .ok program →
      ∃ ts, tokenize text = (ts, none) ∧
        Recorded ts (Expr.yields program.exprs ++ [⟨.eof, none⟩])) ∧
    (∀ e e' : Expr, e.Proper → e'.Proper → Agree e.yield e'.yield → e = e') ∧
    (∀ es es' : List Expr, Expr.AllProper es → Expr.AllProper es' →
      Agree (Expr.yields es) (Expr.yields es') → es = es') := by
  refine ⟨fun p p' e h => parseExpr_consumes h, fun text program h => recorded_of_parse h, ?_, ?_⟩
  · intro e e' he he' h
    have hnil : Agree (e.yield ++ []) (e'.yield ++ []) := by
      rwa [List.append_nil, List.append_nil]
    exact (eq_of_agree e e' he he' hnil).1
  · intro es es' hes hes' h
    have hnil : Agree (Expr.yields es ++ []) (Expr.yields es' ++ []) := by
      rwa [List.append_nil, List.append_nil]
    have hclosed : Closed [] := fun m hm => by cases hm
    exact (eq_of_agree_all es es' hes hes' hclosed hclosed hnil).1

/-- A call whose argument is a text that holds a parenthesis. -/
theorem tree_records_tokens_quoted :
    let e : Expr := .call (.symbol ⟨"f", ⟨1, 1, 2⟩⟩) [.text ")" ⟨3, 1, 4⟩] ⟨0, 1, 1⟩
    let p := (Parser.ofText "(f \")\")").start.2
    (∃ ts u us, p.Consumes ts p.parseExpr.2 ∧ Recorded ts e.yield ∧
      p.parseExpr.2.current = some u ∧ p.upcoming.1 = ts ++ u :: us) ∧
    (∃ ts, tokenize "(f \")\")" = (ts, none) ∧ Recorded ts (Expr.yields [e] ++ [⟨.eof, none⟩])) ∧
    e = e ∧ [e] = [e] := by
  intro e p
  have hexpr : p.parseExpr = (.ok e, p.parseExpr.2) := by decide +kernel
  have hparse : parse "(f \")\")" = .ok ⟨⟨0, 1, 1⟩, [e]⟩ := by decide +kernel
  have hname : "f" ≠ defineWord := by decide
  have hproper : e.Proper := ⟨hname, trivial, trivial, trivial⟩
  have hagree (ms : List Mark) : Agree ms ms :=
    List.forall₂_same.mpr fun m _ => ⟨rfl, fun q hq q' hq' => Option.some.inj (hq.symm.trans hq')⟩
  exact ⟨tree_records_tokens.1 p _ e hexpr, tree_records_tokens.2.1 _ _ hparse,
    tree_records_tokens.2.2.1 e e hproper hproper (hagree _),
    tree_records_tokens.2.2.2 [e] [e] ⟨hproper, trivial⟩ ⟨hproper, trivial⟩ (hagree _)⟩

end SmallLisp

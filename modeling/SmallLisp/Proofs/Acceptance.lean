import SmallLisp.Proofs.Grammar
import SmallLisp.Proofs.Nesting

/-!
# Acceptance

The parser accepts exactly the programs of the grammar, and refuses the first token behind which no
program can follow: a reading that has taken a list of tokens can always be completed, and what
begins a program is taken unless it nests too deeply.
-/
namespace SmallLisp

open SmallLisp.Parser

namespace Parser
namespace Progress

/-- Whether the reading at `g` comes to `g'` over the tokens `ts`, unless they nest too deeply. -/
def Reaches (g : Progress) (ts : List Token) (g' : Progress) : Prop :=
  g.feedAll ts = .ok g' ∨ g.feedAll ts = .error .tooDeep

theorem Reaches.append {g g₁ g' : Progress} {us ts : List Token} (h : g.Reaches us g₁)
    (h' : g₁.Reaches ts g') : g.Reaches (us ++ ts) g' := by
  rcases h with h | h
  · rw [Reaches, feedAll_append_ok h]
    exact h'
  · exact .inr (feedAll_append_error h ts)

theorem reaches_of_takes {finished : List Expr} {s : State} {t : Token} {step : Step}
    (h : Takes t s step) : (⟨finished, s⟩ : Progress).Reaches [t] (absorb finished step) :=
  .inl (feedAll_cons_ok (feed_of_takes h finished) [])

theorem reaches_opening {finished : List Expr} {forms : List Waiting} {t : Token}
    (h : t.kind = .opening) : (⟨finished, .expression forms⟩ : Progress).Reaches [t]
      ⟨finished, .expression (.head t.location :: forms)⟩ := by
  by_cases hroom : forms.length < maxNesting
  · exact reaches_of_takes (.opening h hroom)
  · right
    refine feedAll_cons_error ?_ []
    rw [feed_of_ne_eof (by rw [h]; exact Token.Kind.noConfusion)]
    simp only [State.feed, feedExpression, h, if_neg hroom]
    rfl

theorem reaches_leaf {finished : List Expr} {forms : List Waiting} {ts : List Token} {e : Expr}
    {kind : Token.Kind} {location : Location} (hts : Recorded ts [⟨kind, some location⟩])
    (hleaf : leaf? ⟨kind, location⟩ = some e)
    (hword : IsDefineWord e → ∀ location outer, forms ≠ .head location :: outer) :
    (⟨finished, .expression forms⟩ : Progress).Reaches ts (absorb finished (deliver e forms)) := by
  obtain ⟨⟨tkind, tlocation⟩, rfl, rfl, ht⟩ := hts.single
  obtain rfl : tlocation = location := ht location rfl
  exact reaches_of_takes (.leaf hleaf hword)

-- Over the tokens of a tree a reading hands the tree to the innermost open form. The open forms are
-- arbitrary, as the parts of the tree are read inside further ones.
mutual

theorem reaches_tree (finished : List Expr) : (e : Expr) → e.Proper → (ts : List Token) →
    Recorded ts e.yield → (forms : List Waiting) →
    (IsDefineWord e → ∀ location outer, forms ≠ .head location :: outer) →
    (⟨finished, .expression forms⟩ : Progress).Reaches ts (absorb finished (deliver e forms))
  | .symbol s, _, ts, hts, forms, hword => reaches_leaf hts rfl hword
  | .integer value location, _, ts, hts, forms, hword => reaches_leaf hts rfl hword
  | .text contents location, _, ts, hts, forms, hword => reaches_leaf hts rfl hword
  | .define target value location, h, ts, hts, forms, _ => by
    obtain ⟨us, cs, rfl, hus, hcs⟩ := hts.split
    obtain ⟨hs, vs, rfl, hhs, hvs⟩ := hus.split
    obtain ⟨o, ds, ⟨hok, ho⟩, hds, rfl⟩ := List.forall₂_cons_right_iff.mp hhs
    obtain ⟨d, ns, ⟨hdk, -⟩, hns, rfl⟩ := List.forall₂_cons_right_iff.mp hds
    obtain ⟨n, rfl, hnk, hn⟩ := Recorded.single hns
    obtain ⟨c, rfl, hck, -⟩ := hcs.single
    obtain rfl : o.location = location := ho location rfl
    have hname : (⟨target.name, n.location⟩ : Symbol) = target := by
      rw [hn target.location rfl]
    have hword : (⟨finished, .expression (.head o.location :: forms)⟩ : Progress).Reaches [d]
      ⟨finished, .naming o.location forms⟩ := reaches_of_takes (.word hdk)
    have htarget : (⟨finished, .naming o.location forms⟩ : Progress).Reaches [n]
        ⟨finished, .expression (.value o.location target :: forms)⟩ := by
      rw [← hname]
      exact reaches_of_takes (.target hnk)
    have hvalue := reaches_tree finished value h vs hvs (.value o.location target :: forms)
      fun _ _ _ hf => by cases hf
    have hclose : (⟨finished, .finishing o.location target value forms⟩ : Progress).Reaches [c]
      (absorb finished (deliver (.define target value o.location) forms)) :=
        reaches_of_takes (.define hck)
    exact ((((reaches_opening hok).append hword).append htarget).append hvalue).append hclose
  | .call callee arguments location, h, ts, hts, forms, _ => by
    obtain ⟨us, cs, rfl, hus, hcs⟩ := hts.split
    obtain ⟨ws, as, rfl, hws, has⟩ := hus.split
    obtain ⟨os, fs, rfl, hos, hfs⟩ := hws.split
    obtain ⟨o, rfl, hok, ho⟩ := hos.single
    obtain ⟨c, rfl, hck, -⟩ := hcs.single
    obtain rfl : o.location = location := ho location rfl
    have hcallee := reaches_tree finished callee h.2.1 fs hfs (.head o.location :: forms)
      fun hd => absurd hd h.1
    have harguments := reaches_arguments finished arguments h.2.2 as has forms o.location callee []
    have hclose : (⟨finished, .expression (.argument o.location callee arguments.reverse :: forms)⟩
        : Progress).Reaches [c]
          (absorb finished (deliver (.call callee arguments o.location) forms)) := by
      rw [← List.reverse_reverse arguments, List.reverse_reverse arguments.reverse]
      exact reaches_of_takes (.call hck)
    rw [List.append_nil] at harguments
    exact (((reaches_opening hok).append hcallee).append harguments).append hclose

theorem reaches_arguments (finished : List Expr) : (es : List Expr) → Expr.AllProper es →
    (ts : List Token) → Recorded ts (Expr.yields es) → (outer : List Waiting) →
    (location : Location) → (callee : Expr) → (arguments : List Expr) →
    (⟨finished, .expression (.argument location callee arguments :: outer)⟩ : Progress).Reaches ts
      ⟨finished, .expression (.argument location callee (es.reverse ++ arguments) :: outer)⟩
  | [], _, ts, hts, outer, location, callee, arguments => by
    obtain rfl := List.forall₂_nil_right_iff.mp hts
    exact .inl rfl
  | e :: es, h, ts, hts, outer, location, callee, arguments => by
    obtain ⟨us, vs, rfl, hus, hvs⟩ := hts.split
    have hfirst := reaches_tree finished e h.1 us hus (.argument location callee arguments :: outer)
      fun _ _ _ hf => by cases hf
    have hrest := reaches_arguments finished es h.2 vs hvs outer location callee (e :: arguments)
    rw [List.reverse_cons, List.append_assoc]
    exact hfirst.append hrest

end

theorem reaches_trees (es : List Expr) (hes : Expr.AllProper es) {ts : List Token}
    (hts : Recorded ts (Expr.yields es)) (finished : List Expr) :
    (⟨finished, .expression []⟩ : Progress).Reaches ts ⟨finished ++ es, .expression []⟩ := by
  induction es generalizing finished ts with
  | nil =>
    obtain rfl := List.forall₂_nil_right_iff.mp hts
    rw [List.append_nil]
    exact .inl rfl
  | cons e es ih =>
    obtain ⟨us, vs, rfl, hus, hvs⟩ := hts.split
    have hfirst := reaches_tree finished e hes.1 us hus [] fun _ _ _ hf => by cases hf
    have hrest := ih hes.2 hvs (finished ++ [e])
    rw [List.append_assoc] at hrest
    exact hfirst.append hrest

theorem reaches_program {ts : List Token} (h : Grammar.IsProgram (ts.map Token.kind)) :
    ∃ g, start.Reaches ts g := by
  obtain ⟨exprs, hexprs, hts⟩ := h
  obtain ⟨us, vs, rfl, hus, hvs⟩ := List.map_eq_append_iff.mp hts
  obtain ⟨t, rfl, ht⟩ := List.map_eq_singleton_iff.mp hvs
  obtain ⟨es, hes, hrecord⟩ :=
    Grammar.exists_trees (fun ks hks ts hts => Grammar.exists_tree (hexprs ks hks) hts) hus
  refine ⟨⟨es, .expression []⟩, (reaches_trees es hes hrecord []).append (.inl ?_)⟩
  exact feedAll_cons_ok (feed_eof ht rfl) []

theorem reaches_of_viable {ts : List Token} (h : Grammar.Viable ts) : ∃ g, start.Reaches ts g := by
  obtain ⟨more, hprogram⟩ := h
  -- The missing tokens may stand anywhere, since the grammar knows kinds only.
  have hkinds : ts.map Token.kind ++ more =
      (ts ++ more.map fun kind => (⟨kind, default⟩ : Token)).map Token.kind := by
    simp [Function.comp_def]
  rw [hkinds] at hprogram
  obtain ⟨g', hg' | hg'⟩ := reaches_program hprogram
  · obtain ⟨g, hts, -⟩ := feedAll_append_inv hg'
    exact ⟨g, .inl hts⟩
  · rcases hts : start.feedAll ts with err | g
    · rw [feedAll_append_error hts] at hg'
      cases hg'
      exact ⟨start, .inr hts⟩
    · exact ⟨g, .inl hts⟩

end Progress

/-! ## Every reading can be completed -/

/-- What an open form holds has come from proper expressions. -/
def Waiting.Proper : Waiting → Prop
  | .head _ | .value .. => True
  | .argument _ callee arguments =>
    ¬ IsDefineWord callee ∧ callee.Proper ∧ Expr.AllProper arguments

def State.Proper : State → Prop
  | .expression forms | .naming _ forms => ∀ w ∈ forms, w.Proper
  | .finishing _ _ value forms => value.Proper ∧ ∀ w ∈ forms, w.Proper

def Progress.Proper (g : Progress) : Prop := Expr.AllProper g.finished ∧ g.state.Proper

theorem proper_leaf {t : Token} {e : Expr} (h : leaf? t = some e) : e.Proper := by
  rcases leaf?_cases h with ⟨name, -, rfl⟩ | ⟨value, -, rfl⟩ | ⟨contents, -, rfl⟩
  · trivial
  · trivial
  · trivial

namespace Progress

private theorem proper_deliver {finished : List Expr} {e : Expr} {forms : List Waiting}
    (hfinished : Expr.AllProper finished) (he : e.Proper) (hforms : ∀ w ∈ forms, w.Proper)
    (hword : IsDefineWord e → ∀ location outer, forms ≠ .head location :: outer) :
    (absorb finished (deliver e forms)).Proper := by
  match forms with
  | [] =>
    have hall : Expr.AllProper (finished ++ [e]) :=
      Expr.allProper_append.mpr ⟨hfinished, he, trivial⟩
    exact ⟨hall, List.forall_mem_nil _⟩
  | .head location :: outer =>
    obtain ⟨-, houter⟩ := List.forall_mem_cons.mp hforms
    have hnoWord : ¬ IsDefineWord e := fun hd => hword hd location outer rfl
    exact ⟨hfinished, List.forall_mem_cons.mpr ⟨⟨hnoWord, he, trivial⟩, houter⟩⟩
  | .value location target :: outer =>
    obtain ⟨-, houter⟩ := List.forall_mem_cons.mp hforms
    exact ⟨hfinished, he, houter⟩
  | .argument location callee arguments :: outer =>
    obtain ⟨⟨hnoWord, hcallee, harguments⟩, houter⟩ := List.forall_mem_cons.mp hforms
    exact ⟨hfinished, List.forall_mem_cons.mpr ⟨⟨hnoWord, hcallee, he, harguments⟩, houter⟩⟩

theorem proper_feed {g g' : Progress} {t : Token} (hg : g.Proper) (h : g.feed t = .ok g') :
    g'.Proper := by
  by_cases hk : t.kind = .eof
  · rwa [(feed_eof_ok h hk).1]
  · obtain ⟨step, hstep, rfl⟩ := takes_of_feed_ok h hk
    obtain ⟨finished, s⟩ := g
    obtain ⟨hfinished, hs⟩ := hg
    cases hstep with
    | opening => exact ⟨hfinished, List.forall_mem_cons.mpr ⟨trivial, hs⟩⟩
    | word => exact ⟨hfinished, (List.forall_mem_cons.mp hs).2⟩
    | leaf hleaf hword => exact proper_deliver hfinished (proper_leaf hleaf) hs hword
    | call =>
      obtain ⟨⟨hnoWord, hcallee, harguments⟩, houter⟩ := List.forall_mem_cons.mp hs
      refine proper_deliver hfinished ⟨hnoWord, hcallee, ?_⟩ houter fun hd => hd.elim
      rw [Expr.allProper_iff] at harguments ⊢
      simpa using harguments
    | target => exact ⟨hfinished, List.forall_mem_cons.mpr ⟨trivial, hs⟩⟩
    | define => exact proper_deliver hfinished hs.1 hs.2 fun hd => hd.elim

theorem proper_feedAll {g g' : Progress} {ts : List Token} (hg : g.Proper)
    (h : g.feedAll ts = .ok g') : g'.Proper := by
  induction ts generalizing g with
  | nil =>
    cases h
    exact hg
  | cons t ts ih =>
    obtain ⟨g₁, hf, hrest⟩ := feedAll_cons_inv h
    exact ih (proper_feed hg hf) hrest

theorem proper_start : start.Proper := ⟨trivial, List.forall_mem_nil _⟩

/-- Whether some tokens bring the reading to a place between two top-level expressions. -/
def CanEnd (g : Progress) : Prop :=
  ∃ us g', (∀ u ∈ us, u.kind ≠ Token.Kind.eof) ∧ g.feedAll us = .ok g' ∧ g'.mayEnd

private theorem canEnd_of_takes {finished : List Expr} {s : State} {kind : Token.Kind} {step : Step}
    (h : Takes ⟨kind, default⟩ s step) (hstep : (absorb finished step).CanEnd) :
    (⟨finished, s⟩ : Progress).CanEnd := by
  obtain ⟨us, g, hus, hall, hend⟩ := hstep
  refine ⟨⟨kind, default⟩ :: us, g, List.forall_mem_cons.mpr ⟨h.ne_eof, hus⟩, ?_, hend⟩
  rwa [feedAll_cons_ok (feed_of_takes h finished)]

theorem canEnd_deliver (finished : List Expr) (e : Expr) (forms : List Waiting) :
    (absorb finished (deliver e forms)).CanEnd := by
  induction forms generalizing e with
  | nil => exact ⟨[], _, by simp, rfl, rfl⟩
  | cons w forms ih =>
    cases w with
    | head location => exact canEnd_of_takes (.call rfl) (ih _)
    | value location target => exact canEnd_of_takes (.define rfl) (ih _)
    | argument location callee arguments => exact canEnd_of_takes (.call rfl) (ih _)

theorem canEnd_expression (finished : List Expr) (forms : List Waiting) :
    (⟨finished, .expression forms⟩ : Progress).CanEnd := by
  have hleaf : Takes ⟨.integer 0, default⟩ (.expression forms)
    (deliver (.integer 0 default) forms) := .leaf rfl fun hd => hd.elim
  exact canEnd_of_takes hleaf (canEnd_deliver finished _ forms)

/-- No reading is stuck. -/
theorem canEnd (g : Progress) : g.CanEnd := by
  obtain ⟨finished, s⟩ := g
  cases s with
  | expression forms => exact canEnd_expression finished forms
  | naming location forms =>
    have htarget : Takes ⟨.symbol defineWord, default⟩ (.naming location forms) _ := .target rfl
    exact canEnd_of_takes htarget (canEnd_expression finished _)
  | finishing location target value forms =>
    exact canEnd_of_takes (.define rfl) (canEnd_deliver finished _ forms)

end Progress

end Parser

namespace Grammar

theorem isProgram_kinds {es : List Expr} (h : Expr.AllProper es) :
    IsProgram ((es.map kinds).flatten ++ [.eof]) :=
  ⟨es.map kinds, isExpr_of_mem_kinds es h, rfl⟩

theorem isProgram_of_feedAll {ts : List Token} {g : Progress}
    (h : Progress.start.feedAll ts = .ok g) (hg : g.mayEnd) (hts : ∀ t ∈ ts, t.kind ≠ .eof) :
    IsProgram (ts.map Token.kind ++ [.eof]) := by
  have hproper := Progress.proper_feedAll Progress.proper_start h
  obtain ⟨ms, hms, hy⟩ := Progress.yield_feedAll h hts
  obtain ⟨finished, s⟩ := g
  obtain rfl : s = .expression [] := Progress.state_of_mayEnd hg
  obtain rfl : Expr.yields finished = ms := by
    simpa [Progress.start, Progress.yield, State.yield, Waiting.yields] using hy
  rw [map_kind_of_recorded hms, map_kind_yields]
  exact isProgram_kinds hproper.1

theorem viable_of_feedAll {ts : List Token} {g : Progress}
    (h : Progress.start.feedAll ts = .ok g) (hts : ∀ t ∈ ts, t.kind ≠ .eof) : Viable ts := by
  obtain ⟨us, g', hus, hall, hend⟩ := g.canEnd
  have hprogram := isProgram_of_feedAll (by rwa [Progress.feedAll_append_ok h]) hend
    (List.forall_mem_append.mpr ⟨hts, hus⟩)
  refine ⟨us.map Token.kind ++ [.eof], ?_⟩
  rwa [List.map_append, List.append_assoc] at hprogram

theorem viable_of_feed {ts : List Token} {t : Token} {g g' : Progress}
    (h : Progress.start.feedAll ts = .ok g) (hts : ∀ t ∈ ts, t.kind ≠ .eof)
    (ht : g.feed t = .ok g') : Viable (ts ++ [t]) := by
  by_cases hk : t.kind = .eof
  · refine ⟨[], ?_⟩
    rw [List.append_nil, List.map_append, List.map_singleton, hk]
    exact isProgram_of_feedAll h (Progress.feed_eof_ok ht hk).2 hts
  · refine viable_of_feedAll (g := g') ?_ (List.forall_mem_append.mpr ⟨hts, by simpa using hk⟩)
    rw [Progress.feedAll_append_ok h, Progress.feedAll_cons_ok ht]
    rfl

theorem viable_nil : Viable [] := ⟨[.eof], [], by simp, rfl⟩

/-- Whether the token at `i` is the first behind which no program can follow. -/
def Misplaced (ts : List Token) (i : Nat) : Prop :=
  i < ts.length ∧ Viable (ts.take i) ∧ ¬ Viable (ts.take (i + 1))

theorem not_misplaced_of_viable {ts : List Token} (h : Viable ts) (i : Nat) : ¬ Misplaced ts i := by
  intro hi
  refine hi.2.2 ?_
  obtain ⟨more, hmore⟩ := h
  refine ⟨(ts.drop (i + 1)).map Token.kind ++ more, ?_⟩
  rwa [← List.append_assoc, ← List.map_append, List.take_append_drop]

theorem viable_of_not_misplaced {ts : List Token} (h : ∀ i, ¬ Misplaced ts i) : Viable ts := by
  have htake : ∀ i ≤ ts.length, Viable (ts.take i) := by
    intro i
    induction i with
    | zero => exact fun _ => viable_nil
    | succ i ih =>
      intro hi
      by_contra hviable
      exact h i ⟨hi, ih (Nat.le_of_succ_le hi), hviable⟩
  rw [← List.take_length (l := ts)]
  exact htake ts.length (Nat.le_refl _)

end Grammar

open Grammar

theorem feedAll_of_viable {ts : List Token} (h : Viable ts) (hts : NestsWithin maxNesting ts) :
    ∃ g, Progress.start.feedAll ts = .ok g := by
  obtain ⟨g, hg | hg⟩ := Progress.reaches_of_viable h
  · exact ⟨g, hg⟩
  · exact absurd hg (Progress.not_tooDeep_of_nestsWithin hts)

theorem parse_of_misplaced {text : String} {ts us vs : List Token} {t : Token}
    {stop : Option LexError} (htext : tokenize text = (ts, stop)) (hts : ts = us ++ t :: vs)
    (hus : Viable us) (ht : ¬ Viable (us ++ [t])) (hdepth : NestsWithin maxNesting (us ++ [t])) :
    ∃ cause, parse text = .error (.refused cause t.location) := by
  subst hts
  have hinside : ∀ u ∈ us, u.kind ≠ .eof := by
    intro u hu hk
    obtain ⟨xs, ys, rfl⟩ := List.append_of_mem hu
    rw [List.append_assoc, List.cons_append] at htext
    exact absurd (eof_last_of_tokenize htext hk).1 (by simp)
  -- All before `t` is taken, and `t` is not: it would begin a program with what is before it.
  obtain ⟨g, hg⟩ := feedAll_of_viable hus (hdepth.of_prefix (List.prefix_append us [t]))
  rcases hfeed : g.feed t with err | g'
  · have hall : Progress.start.feedAll (us ++ [t]) = .error err := by
      rw [Progress.feedAll_append_ok hg, Progress.feedAll_cons_error hfeed]
    obtain ⟨cause, rfl⟩ : ∃ cause, err = .refused cause t.location := by
      rcases Progress.feed_error hfeed with hcause | ⟨rfl, -⟩
      · exact hcause
      · exact absurd hall (Progress.not_tooDeep_of_nestsWithin hdepth)
    refine ⟨cause, ?_⟩
    have hwhole := Progress.feedAll_append_error hall vs
    rw [List.append_assoc, List.singleton_append] at hwhole
    rw [parse_eq, htext, hwhole]
  · exact absurd (viable_of_feed hg hinside hfeed) ht

/-- The parser accepts exactly the programs of the grammar and reports the earliest error. The first
token behind which no program can follow is blamed, whatever stands behind it. Without one a
malformed token is reported as it is, and a text without either is parsed. -/
theorem parse_reports_earliest {text : String} {ts : List Token} {stop : Option LexError}
    (htext : tokenize text = (ts, stop)) :
    (∀ i t, ts[i]? = some t → Misplaced ts i → NestsWithin maxNesting (ts.take (i + 1)) →
      ∃ cause, parse text = .error (.refused cause t.location)) ∧
    ((∀ i, ¬ Misplaced ts i) → NestsWithin maxNesting ts →
      (∀ e, stop = some e → parse text = .error (.malformed e)) ∧
      (stop = none → IsProgram (ts.map Token.kind) ∧ ∃ p, parse text = .ok p)) := by
  constructor
  · rintro i t hi ⟨-, hbefore, hafter⟩ hdepth
    obtain ⟨hlt, rfl⟩ := List.getElem?_eq_some_iff.mp hi
    have htake : ts.take (i + 1) = ts.take i ++ [ts[i]] := List.take_succ_eq_append_getElem hlt
    rw [htake] at hafter hdepth
    have hts : ts = ts.take i ++ ts[i] :: ts.drop (i + 1) := by
      rw [List.getElem_cons_drop, List.take_append_drop]
    exact parse_of_misplaced htext hts hbefore hafter hdepth
  · intro hall hdepth
    obtain ⟨g, hg⟩ := feedAll_of_viable (viable_of_not_misplaced hall) hdepth
    constructor
    · rintro e rfl
      rw [parse_eq, htext]
      simp only [hg]
    · rintro rfl
      have hparse : parse text = .ok (g.program ts) := parse_ok_iff.mpr ⟨ts, g, htext, hg, rfl⟩
      refine ⟨?_, _, hparse⟩
      obtain ⟨us, t, htokens, hk, hus, hread⟩ := exists_reading_of_parse hparse
      obtain ⟨rfl, -⟩ := Prod.mk.inj (htext.symm.trans htokens)
      rw [List.map_append, List.map_singleton, hk]
      exact isProgram_of_feedAll hread rfl hus

/-- A closing parenthesis too many before a text without an end, that text in its place, and a
program. -/
theorem parse_reports_earliest_texts :
    (∃ cause, parse "(a)) \"" = .error (.refused cause ⟨3, 1, 4⟩)) ∧
      parse "(a \"" = .error (.malformed ⟨.unterminatedText, ⟨3, 1, 4⟩⟩) ∧
      ∃ p, parse "(a)" = .ok p := by
  let opening : Token := ⟨.opening, ⟨0, 1, 1⟩⟩
  let symbol : Token := ⟨.symbol "a", ⟨1, 1, 2⟩⟩
  let closing : Token := ⟨.closing, ⟨2, 1, 3⟩⟩
  let surplus : Token := ⟨.closing, ⟨3, 1, 4⟩⟩
  let eof : Token := ⟨.eof, ⟨2, 1, 3⟩⟩
  have hsurplus : ¬ Viable [opening, symbol, closing, surplus] := by
    intro h
    obtain ⟨g, hg⟩ := feedAll_of_viable h (by decide)
    cases hg
  have hcall : Viable [opening, symbol, closing] := viable_of_feedAll rfl (by decide)
  have hopen : Viable [opening, symbol] := viable_of_feedAll rfl (by decide)
  have hprogram : Viable ([opening, symbol, closing] ++ [eof]) :=
    viable_of_feed rfl (by decide) rfl
  refine ⟨?_, ?_, ?_⟩
  · have htext : tokenize "(a)) \"" = ([opening, symbol, closing, surplus],
      some ⟨.unterminatedText, ⟨5, 1, 6⟩⟩) := by decide +kernel
    exact (parse_reports_earliest htext).1 3 surplus rfl ⟨by decide, hcall, hsurplus⟩ (by decide)
  · have htext : tokenize "(a \"" = ([opening, symbol], some ⟨.unterminatedText, ⟨3, 1, 4⟩⟩) := by
      decide +kernel
    exact ((parse_reports_earliest htext).2 (not_misplaced_of_viable hopen) (by decide)).1 _ rfl
  · have htext : tokenize "(a)" = ([opening, symbol, closing, eof], none) := by decide +kernel
    have hnone := not_misplaced_of_viable hprogram
    exact (((parse_reports_earliest htext).2 hnone (by decide)).2 rfl).2

end SmallLisp

import SmallLisp.Proofs.Continuation
import SmallLisp.Proofs.Relocation

/-!
# Composing texts

A blank behind a text ends its last token. A text that is followed by a blank and another text is
lexed, read and parsed as the one and then, with its places moved, the other.
-/
namespace SmallLisp

open SmallLisp.Parser

namespace Lexeme

theorem readText_escape {c d : Char} (h : unescape? c = some d) (cs : List Char) :
    readText ('\\' :: c :: cs) = (readText cs).cons 2 d := by
  simp only [readText, h]

theorem readText_plain {c : Char} (hquote : c ≠ '"') (hescape : c ≠ '\\') (cs : List Char) :
    readText (c :: cs) = (readText cs).cons 1 c := by
  rw [readText]
  · exact hquote
  · intro hc
    exact absurd hc hescape
  · intro d ds hc
    exact absurd hc hescape

theorem Reading.outcome_cons_ne {r : Reading (List Char)} {k : Nat} {c : Char}
    {cause : LexError.Cause} (h : (r.cons k c).outcome ≠ .error cause) :
    r.outcome ≠ .error cause := by
  intro hr
  apply h
  rw [cons, hr]
  rfl

theorem readText_append {cs : List Char} (h : (readText cs).outcome ≠ .error .unterminatedText)
    (ds : List Char) : readText (cs ++ ds) = readText cs := by
  fun_induction readText cs with
  | case1 => exact absurd rfl h
  | case2 cs => rfl
  | case3 => exact absurd rfl h
  | case4 c cs d hd ih =>
    have hrest := ih (Reading.outcome_cons_ne h)
    have happend := readText_escape hd (cs ++ ds)
    rwa [hrest] at happend
  | case5 c cs hd => simp only [List.cons_append, readText, hd]
  | case6 c cs hquote hend hescape ih =>
    have hrest := ih (Reading.outcome_cons_ne h)
    have happend := readText_plain hquote (ne_backslash hend hescape) (cs ++ ds)
    rwa [hrest] at happend

theorem used_readText_le (cs : List Char) : (readText cs).used ≤ cs.length := by
  fun_induction readText cs with
  | case1 => exact Nat.le_refl 0
  | case2 cs => exact Nat.succ_le_succ (Nat.zero_le _)
  | case3 => exact Nat.le_refl 1
  | case4 c cs d hd ih =>
    simp only [Reading.cons, List.length_cons]
    omega
  | case5 c cs hd => exact Nat.succ_le_succ (Nat.zero_le _)
  | case6 c cs hquote hend hescape ih =>
    simp only [Reading.cons, List.length_cons]
    omega

/-- Whether no symbol and no integer goes on with `ds`. -/
def Separate (ds : List Char) : Prop := ∀ c ∈ ds.head?, isSymbolChar c = false

theorem separate_blank {b : Char} (hb : isBlank b = true) (ds : List Char) :
    Separate (b :: ds) := by
  intro c hc
  obtain rfl : b = c := Option.some.inj hc
  simp only [isBlank, Bool.or_eq_true, beq_iff_eq] at hb
  rcases hb with ((rfl | rfl) | rfl) | rfl <;> rfl

theorem takeWhile_append_separate {p : Char → Bool} (hp : ∀ c, p c = true → isSymbolChar c = true)
    {ds : List Char} (hds : Separate ds) (cs : List Char) :
    (cs ++ ds).takeWhile p = cs.takeWhile p := by
  induction cs with
  | nil =>
    cases ds with
    | nil => rfl
    | cons d ds =>
      have hd : ¬ p d = true := by
        intro hpd
        have hsymbol := hds d rfl
        rw [hp d hpd] at hsymbol
        exact Bool.noConfusion hsymbol
      rw [List.nil_append, List.takeWhile_cons_of_neg hd, List.takeWhile_nil]
  | cons c cs ih =>
    by_cases hc : p c = true
    · rw [List.cons_append, List.takeWhile_cons_of_pos hc, List.takeWhile_cons_of_pos hc, ih]
    · rw [List.cons_append, List.takeWhile_cons_of_neg hc, List.takeWhile_cons_of_neg hc]

theorem isSymbolChar_of_isDigit {c : Char} (h : isDigit c = true) : isSymbolChar c = true := by
  rw [isSymbolChar, h, Bool.or_true, Bool.true_or]

theorem read_append {cs ds : List Char} (hcs : cs ≠ []) (hds : Separate ds)
    (h : (read cs).outcome ≠ .error .unterminatedText) : read (cs ++ ds) = read cs := by
  obtain ⟨c, cs, rfl⟩ := List.exists_cons_of_ne_nil hcs
  rw [List.cons_append]
  cases start_of c with
  | opening hc | closing hc =>
    subst hc
    rfl
  | letter hc =>
    have htake := takeWhile_append_separate (fun _ hd => hd) hds cs
    rw [read_letter hc, read_letter hc, htake]
  | digit hc =>
    have htake := takeWhile_append_separate (fun _ => isSymbolChar_of_isDigit) hds cs
    rw [read_digit hc, read_digit hc, htake]
  | quote hc =>
    subst hc
    rw [read_quote] at h ⊢
    rw [readText_append, read_quote]
    intro htext
    apply h
    rw [htext]
    rfl
  | other hopening hclosing hletter hdigit hquote =>
    rw [read_other hopening hclosing hletter hdigit hquote,
      read_other hopening hclosing hletter hdigit hquote]

theorem used_read_le (cs : List Char) : (read cs).used ≤ cs.length := by
  have htake (p : Char → Bool) (c : Char) (cs : List Char) :
      (c :: cs.takeWhile p).length ≤ (c :: cs).length :=
    Nat.succ_le_succ (List.takeWhile_prefix p).length_le
  have hbody {cs : List Char} {n : Nat} {outcome} (h : readText cs = ⟨n, outcome⟩) :
      1 + n ≤ ('"' :: cs).length := by
    have hused := used_readText_le cs
    rw [h] at hused
    rw [Nat.add_comm]
    exact Nat.succ_le_succ hused
  have hreads := reads cs
  generalize read cs = r at hreads
  cases hreads with
  | eof | other => exact Nat.zero_le _
  | opening | closing => exact Nat.succ_le_succ (Nat.zero_le _)
  | symbol => exact htake isSymbolChar _ _
  | integer | tooLarge => exact htake isDigit _ _
  | text hr => exact hbody hr
  | malformed hr => exact hbody hr

theorem takeWhile_append {p : Char → Bool} {cs : List Char} (h : cs.dropWhile p ≠ [])
    (ds : List Char) : (cs ++ ds).takeWhile p = cs.takeWhile p := by
  induction cs with
  | nil => exact absurd rfl h
  | cons c cs ih =>
    by_cases hc : p c = true
    · rw [List.dropWhile_cons_of_pos hc] at h
      rw [List.cons_append, List.takeWhile_cons_of_pos hc, List.takeWhile_cons_of_pos hc, ih h]
    · rw [List.cons_append, List.takeWhile_cons_of_neg hc, List.takeWhile_cons_of_neg hc]

theorem dropWhile_append {p : Char → Bool} {cs : List Char} (h : cs.dropWhile p ≠ [])
    (ds : List Char) : (cs ++ ds).dropWhile p = cs.dropWhile p ++ ds := by
  induction cs with
  | nil => exact absurd rfl h
  | cons c cs ih =>
    by_cases hc : p c = true
    · rw [List.dropWhile_cons_of_pos hc] at h ⊢
      rw [List.cons_append, List.dropWhile_cons_of_pos hc, ih h]
    · rw [List.cons_append, List.dropWhile_cons_of_neg hc, List.dropWhile_cons_of_neg hc]
      rfl

end Lexeme

namespace Scanner

open Lexeme

theorem place_append_blanks {bs : List Char} (hbs : ∀ b ∈ bs, isBlank b = true) (q : Location)
    (ds : List Char) : place q (bs ++ ds) = place (q.after bs) ds := by
  rw [place, place, List.takeWhile_append_of_pos hbs, List.dropWhile_append_of_pos hbs,
    Location.after_append]

theorem place_append {cs : List Char} (hcs : cs.dropWhile isBlank ≠ []) (q : Location)
    (ds : List Char) : place q (cs ++ ds) = place q cs := by
  obtain ⟨c, rest, hrest⟩ := List.exists_cons_of_ne_nil hcs
  rw [place, place, takeWhile_append hcs, dropWhile_append hcs, hrest]
  rfl

theorem Lexes.blanks {bs ds : List Char} (hbs : ∀ b ∈ bs, isBlank b = true) {q : Location}
    {ts : List Token} {e : Option LexError} (h : Lexes (q.after bs) ds ts e) :
    Lexes q (bs ++ ds) ts e := by
  have hdrop : (bs ++ ds).dropWhile isBlank = ds.dropWhile isBlank :=
    List.dropWhile_append_of_pos hbs
  cases h with
  | finish blank =>
    rw [← place_append_blanks hbs]
    exact .finish (hdrop.trans blank)
  | stop hr =>
    rw [← place_append_blanks hbs]
    exact .stop (by rwa [hdrop])
  | token hr hk tail =>
    rw [← place_append_blanks hbs]
    refine .token (by rwa [hdrop]) hk ?_
    rwa [hdrop, List.takeWhile_append_of_pos hbs, Location.after_append]

theorem dropWhile_ne_nil {cs : List Char} {n : Nat} {kind : Token.Kind}
    (h : read (cs.dropWhile isBlank) = ⟨n, .ok kind⟩) (hk : kind ≠ .eof) :
    cs.dropWhile isBlank ≠ [] := (used_pos_of_read h hk).2

theorem Lexes.token_append {cs ds : List Char} (hds : Separate ds) {q : Location} {n : Nat}
    {kind : Token.Kind} {ts : List Token} {e : Option LexError}
    (h : read (cs.dropWhile isBlank) = ⟨n, .ok kind⟩) (hk : kind ≠ .eof)
    (tail : Lexes ((q.after (cs.takeWhile isBlank)).after ((cs.dropWhile isBlank).take n))
      ((cs.dropWhile isBlank).drop n ++ ds) ts e) :
    Lexes q (cs ++ ds) (⟨kind, place q cs⟩ :: ts) e := by
  have hne := dropWhile_ne_nil h hk
  have hused : n ≤ (cs.dropWhile isBlank).length := by
    have hle := used_read_le (cs.dropWhile isBlank)
    rwa [h] at hle
  have hread : read ((cs ++ ds).dropWhile isBlank) = ⟨n, .ok kind⟩ := by
    rw [dropWhile_append hne, read_append hne hds, h]
    rw [h]
    exact fun hc => by cases hc
  rw [← place_append hne q ds]
  refine .token hread hk ?_
  rwa [takeWhile_append hne, dropWhile_append hne, List.take_append_of_le_length hused,
    List.drop_append_of_le_length hused]

/-- Behind a text whose tokens end, a blank and another text are lexed on their own. -/
theorem Lexes.append {b : Char} (hb : isBlank b = true) {ds : List Char} {q : Location}
    {cs : List Char} {ts : List Token} {e : Option LexError} (h : Lexes q cs ts e) (he : e = none) :
    ∃ us t, ts = us ++ [t] ∧ ∀ vs stop, Lexes (q.after (cs ++ [b])) ds vs stop →
      Lexes q (cs ++ b :: ds) (us ++ vs) stop := by
  induction h with
  | @finish q cs blank =>
    refine ⟨[], _, rfl, fun vs stop hds => ?_⟩
    have hblanks : ∀ c ∈ cs ++ [b], isBlank c = true := by
      have hcs := takeWhile_blank_append cs
      rw [blank, List.append_nil] at hcs
      intro c hc
      rcases List.mem_append.mp hc with hc | hc
      · rw [← hcs] at hc
        exact isBlank_of_mem_takeWhile hc
      · rwa [List.mem_singleton.mp hc]
    have happend := hds.blanks hblanks
    rwa [List.append_assoc] at happend
  | stop => cases he
  | @token q cs n kind ts e hr hk tail ih =>
    obtain ⟨us, t, rfl, hall⟩ := ih he
    refine ⟨⟨kind, place q cs⟩ :: us, t, rfl, fun vs stop hds => ?_⟩
    -- The blank ends the token, so it is the same with more text behind it.
    refine token_append (separate_blank hb ds) hr hk (hall vs stop ?_)
    rwa [← Location.after_append, ← Location.after_append, ← List.append_assoc _ _ [b],
      List.take_append_drop, ← List.append_assoc, takeWhile_blank_append]

theorem Lexes.append_error {ds : List Char} (hds : Separate ds) {q : Location} {cs : List Char}
    {ts : List Token} {e : Option LexError} (h : Lexes q cs ts e) {err : LexError}
    (he : e = some err) (hcause : err.cause ≠ .unterminatedText) : Lexes q (cs ++ ds) ts e := by
  induction h with
  | finish => cases he
  | @stop q cs n cause hr =>
    cases he
    have hne : cs.dropWhile isBlank ≠ [] := by
      intro hnil
      rw [hnil] at hr
      cases hr
    rw [← place_append hne q ds]
    refine .stop (n := n) ?_
    rw [dropWhile_append hne, read_append hne hds, hr]
    rw [hr]
    exact fun hc => hcause (Except.error.inj hc)
  | token hr hk tail ih => exact token_append hds hr hk (ih he)

end Scanner

/-- The place in the text `a`, a line feed and the text `b` of the place `p` in `b`. -/
def Location.below (a : String) (p : Location) : Location :=
  (Location.start.after (a.toList ++ ['\n'])).shift p

theorem Location.below_start (a : String) :
    Location.below a .start = Location.start.after (a.toList ++ ['\n']) := by
  apply Location.shift_start
  rw [Location.after_append]
  rfl

theorem Location.below_next (a : String) (p : Location) (c : Char) :
    Location.below a (p.next c) = (Location.below a p).next c := Location.shift_next _ p c

private theorem toList_lines (a b : String) :
    (a ++ "\n" ++ b).toList = a.toList ++ '\n' :: b.toList := by
  rw [String.toList_append, String.toList_append, List.append_assoc]
  rfl

theorem tokenize_append {a b : String} {us vs : List Token} {t : Token} {stop : Option LexError}
    (ha : tokenize a = (us ++ [t], none)) (hb : tokenize b = (vs, stop)) :
    tokenize (a ++ "\n" ++ b) = (us ++ vs.map (Token.relocate (Location.below a)),
      stop.map (LexError.relocate (Location.below a))) := by
  have hlines := (tokenize_eq_iff.mp hb).relocate (Location.below_next a)
  rw [Location.below_start] at hlines
  have hcut := @Scanner.Lexes.append '\n' rfl b.toList _ _ _ _ (tokenize_eq_iff.mp ha) rfl
  obtain ⟨us', t', hsplit, hall⟩ := hcut
  obtain ⟨rfl, -⟩ := List.append_inj' hsplit rfl
  rw [tokenize_eq_iff, toList_lines]
  exact hall _ _ hlines

theorem tokenize_append_error {a b : String} {ts : List Token} {err : LexError}
    (ha : tokenize a = (ts, some err)) (hcause : err.cause ≠ .unterminatedText) :
    tokenize (a ++ "\n" ++ b) = (ts, some err) := by
  rw [tokenize_eq_iff] at ha ⊢
  rw [toList_lines]
  exact ha.append_error (Lexeme.separate_blank rfl _) rfl hcause

namespace Parser.Progress

/-- The reading with the expressions `es` finished before it. -/
def resting (es : List Expr) (g : Progress) : Progress := ⟨es ++ g.finished, g.state⟩

theorem feed_resting (es : List Expr) (g : Progress) (t : Token) :
    (g.resting es).feed t = (g.feed t).map (resting es) := by
  rw [feed, feed]
  by_cases hend : t.kind = .eof ∧ g.mayEnd
  · rw [if_pos hend, if_pos (show t.kind = .eof ∧ (g.resting es).mayEnd from hend)]
    rfl
  · rw [if_neg hend, if_neg (show ¬ (t.kind = .eof ∧ (g.resting es).mayEnd) from hend)]
    rw [resting]
    rcases g.state.feed t with err | s | e
    · rfl
    · rfl
    · simp only [Except.map, absorb, resting, List.append_assoc]

theorem feedAll_resting (es : List Expr) (g : Progress) (ts : List Token) :
    (g.resting es).feedAll ts = (g.feedAll ts).map (resting es) := by
  have hnatural := feedAll_natural (fun _ => rfl) (fun _ => ⟨_, rfl⟩) (feed_resting es) g ts
  rwa [List.map_id''] at hnatural
  exact fun _ => rfl

/-- Behind the expressions `es`, a moved list of tokens is read as it is from the start. -/
theorem feedAll_behind (f : Location → Location) (es : List Expr) (vs : List Token) :
    (⟨es, .expression []⟩ : Progress).feedAll (vs.map (Token.relocate f)) =
      (relocated f (relocate f) (start.feedAll vs)).map (resting es) := by
  have hstart : (⟨es, .expression []⟩ : Progress) = (start.relocate f).resting es := by
    rw [resting]
    simp only [relocate, start, List.map_nil, List.append_nil]
    rfl
  rw [hstart, feedAll_resting, feedAll_relocate]

theorem feedAll_resting_relocate {f : Location → Location} {es : List Expr} {vs : List Token}
    {g : Progress}
    (h : (⟨es, .expression []⟩ : Progress).feedAll (vs.map (Token.relocate f)) = .ok g) :
    ∃ g', start.feedAll vs = .ok g' ∧ g.finished = es ++ g'.finished.map (Expr.relocate f) := by
  rw [feedAll_behind] at h
  rcases hvs : start.feedAll vs with err | g'
  · rw [hvs] at h
    cases h
  · rw [hvs] at h
    cases h
    exact ⟨g', rfl, rfl⟩

theorem state_of_balance {a : String} {us : List Token} {t : Token} {g : Progress}
    (ha : tokenize a = (us ++ [t], none)) (ht : t.kind = .eof)
    (hopen : (Balance.of a).isOpen = false) (h : start.feedAll us = .ok g) :
    g.state = .expression [] := by
  apply state_of_depth
  have hdepth := depth_of_start h
  rw [Balance.of_tokenize ha, Balance.isOpen, Bool.or_eq_false_iff] at hopen
  have hle : ¬ 0 < Token.depth (us ++ [t]) := of_decide_eq_false hopen.1
  rw [Token.depth_append, Token.depth_cons, ht, Token.depth_nil, Token.Kind.weight_eof] at hle
  omega

end Parser.Progress

theorem tokenize_of_balance {a b : String} {ts : List Token}
    (htext : tokenize (a ++ "\n" ++ b) = (ts, none)) (hopen : (Balance.of a).isOpen = false) :
    ∃ us t, tokenize a = (us ++ [t], none) ∧ t.kind = .eof := by
  rcases ha : tokenize a with ⟨us, - | err⟩
  · obtain ⟨us, t, rfl, ht, -⟩ := exists_eof_of_tokenize ha
    exact ⟨us, t, rfl, ht⟩
  · by_cases hcause : err.cause = .unterminatedText
    · obtain ⟨cause, p⟩ := err
      obtain rfl : cause = .unterminatedText := hcause
      have htext := Balance.inText_of_tokenize ha
      rw [Balance.isOpen, htext, Bool.or_true] at hopen
      cases hopen
    · rw [tokenize_append_error ha hcause] at htext
      cases htext

/-- A text that parses may be cut at each end of a line up to which it is not judged to be open. -/
theorem parse_cut {a b : String} {p : Program} (h : parse (a ++ "\n" ++ b) = .ok p)
    (hopen : (Balance.of a).isOpen = false) :
    ∃ pa pb, parse a = .ok pa ∧ parse b = .ok pb ∧
      p.exprs = pa.exprs ++ pb.exprs.map (Expr.relocate (Location.below a)) := by
  obtain ⟨ts, g, htext, hg, rfl⟩ := parse_ok_iff.mp h
  obtain ⟨us, t, ha, ht⟩ := tokenize_of_balance htext hopen
  rcases hb : tokenize b with ⟨vs, stop⟩
  rw [tokenize_append ha hb] at htext
  obtain ⟨rfl, hstop⟩ := Prod.mk.inj htext
  obtain rfl : stop = none := Option.map_eq_none_iff.mp hstop
  obtain ⟨⟨es, s⟩, hus, hrest⟩ := Progress.feedAll_append_inv hg
  obtain rfl : s = .expression [] := Progress.state_of_balance ha ht hopen hus
  obtain ⟨g₂, hvs, hexprs⟩ := Progress.feedAll_resting_relocate hrest
  have hend : Progress.start.feedAll (us ++ [t]) = .ok ⟨es, .expression []⟩ := by
    rw [Progress.feedAll_append_ok hus, Progress.feedAll_cons_ok (Progress.feed_eof ht rfl)]
    rfl
  have hpa : parse a = .ok (Progress.program ⟨es, .expression []⟩ (us ++ [t])) :=
    parse_ok_iff.mpr ⟨_, _, ha, hend, rfl⟩
  have hpb : parse b = .ok (g₂.program vs) := parse_ok_iff.mpr ⟨_, _, hb, hvs, rfl⟩
  exact ⟨_, _, hpa, hpb, hexprs⟩

end SmallLisp

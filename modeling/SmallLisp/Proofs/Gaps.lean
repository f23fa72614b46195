import SmallLisp.Proofs.Source

/-!
# Gaps between tokens

Where a token of a text ends there may be any blanks. Other blanks move what is behind them, but
nothing else: the text is cut into tokens of the same kinds, and if an error stops it, it has the
same message.
-/
namespace SmallLisp

open SmallLisp.Lexeme

/-- Whether two texts are cut into tokens of the same kinds and end alike. -/
structure SameTokens (a b : String) : Prop where
  kinds : (tokenize b).1.map Token.kind = (tokenize a).1.map Token.kind
  stop : (tokenize b).2.map LexError.message = (tokenize a).2.map LexError.message

/-- Whether `cs`, with `rest` behind it, is cut into tokens of the kinds `ks`, and ends where the last
of them does. -/
inductive CutsInto (rest : List Char) : List Char → List Token.Kind → Prop
  | nil : CutsInto rest [] []
  | lexeme {blanks w cs kind ks} (blank : ∀ b ∈ blanks, isBlank b = true)
      (munch : Munch (w ++ (cs ++ rest)) w kind) (fits : kind.Fits) (tail : CutsInto rest cs ks) :
      CutsInto rest (blanks ++ (w ++ cs)) (kind :: ks)

theorem Lexeme.Ends.of_head {kind : Token.Kind} {rest rest' : List Char} (h : Ends kind rest)
    (hhead : rest'.head? = rest.head?) : Ends kind rest' := by
  cases kind with
  | symbol | integer => exact fun c hc => h c (hhead ▸ hc)
  | opening | closing | text | eof => trivial

namespace Cuts

/-- What is cut is cut alike wherever it stands. -/
theorem anywhere {done cs : List Char} {ts : List Token} {e : Option LexError}
    (h : Cuts done cs ts e) (done' : List Char) :
    ∃ ts' e', Cuts done' cs ts' e' ∧ ts'.map Token.kind = ts.map Token.kind ∧
      e'.map LexError.message = e.map LexError.message := by
  induction h generalizing done' with
  | finish blank => exact ⟨_, _, .finish blank, rfl, rfl⟩
  | @lexeme done blanks w rest kind ts e blank munch fits tail ih =>
    obtain ⟨ts', e', hcuts, hkinds, hstop⟩ := ih (done' ++ blanks ++ w)
    refine ⟨_, e', .lexeme blank munch fits hcuts, ?_, hstop⟩
    simp [hkinds]
  | tooLarge blank munch large => exact ⟨_, _, .tooLarge blank munch large, rfl, rfl⟩
  | malformed blank noLexeme malformed =>
    exact ⟨_, _, .malformed blank noLexeme malformed, rfl, rfl⟩

/-- Blanks in front of what is cut are skipped with those that it starts with. -/
theorem gap {done gap cs : List Char} {ts : List Token} {e : Option LexError}
    (hgap : ∀ c ∈ gap, isBlank c = true) (h : Cuts (done ++ gap) cs ts e) :
    Cuts done (gap ++ cs) ts e := by
  have hblanks {blanks : List Char} (blank : ∀ b ∈ blanks, isBlank b = true) :
      ∀ b ∈ gap ++ blanks, isBlank b = true := by
    simpa [or_imp, forall_and] using ⟨hgap, blank⟩
  cases h with
  | finish blank =>
    rw [List.append_assoc]
    exact .finish (hblanks blank)
  | lexeme blank munch fits tail =>
    rw [List.append_assoc done] at tail ⊢
    rw [← List.append_assoc gap]
    exact .lexeme (hblanks blank) munch fits tail
  | tooLarge blank munch large =>
    rw [List.append_assoc, ← List.append_assoc gap]
    exact .tooLarge (hblanks blank) munch large
  | malformed blank noLexeme malformed =>
    rw [List.append_assoc, ← List.append_assoc gap]
    exact .malformed (hblanks blank) noLexeme malformed

/-- In front of each token, and of what stops a text, the tokens before it have their end. -/
theorem exists_end {done cs : List Char} {ts : List Token} {e : Option LexError}
    (h : Cuts done cs ts e) {before after : List Token} (hts : ts = before ++ after)
    (hbefore : ∀ t ∈ before, t.kind ≠ .eof) :
    ∃ us rest, cs = us ++ rest ∧ CutsInto rest us (before.map Token.kind) ∧
      Cuts (done ++ us) rest after e := by
  induction before generalizing done cs ts with
  | nil =>
    obtain rfl : ts = after := hts
    exact ⟨[], cs, rfl, .nil, by simpa using h⟩
  | cons t before ih =>
    cases h with
    | finish =>
      obtain ⟨rfl, -⟩ := List.cons.inj hts
      exact absurd rfl (hbefore _ List.mem_cons_self)
    | @lexeme _ blanks w rest kind ts _ blank munch fits tail =>
      obtain ⟨rfl, hrest⟩ := List.cons.inj hts
      obtain ⟨us, behind, rfl, hinto, hcuts⟩ :=
        ih tail hrest fun t ht => hbefore t (List.mem_cons_of_mem _ ht)
      refine ⟨blanks ++ (w ++ us), behind, by simp, .lexeme blank munch fits hinto, ?_⟩
      simpa using hcuts
    | tooLarge => cases hts
    | malformed => cases hts

end Cuts

namespace CutsInto

/-- Behind the end of a token there may also be blanks. -/
theorem separate {rest rest' cs : List Char} {ks : List Token.Kind} (h : CutsInto rest cs ks)
    (hrest : Separate rest') : CutsInto rest' cs ks := by
  induction h with
  | nil => exact .nil
  | @lexeme blanks w cs kind ks blank munch fits tail ih =>
    refine .lexeme blank (munch_of_writes munch.writes ?_) fits ih
    cases cs with
    | nil => exact ends_of_separate hrest kind
    | cons c cs => exact (ends_of_munch munch).of_head rfl

theorem cuts {rest cs : List Char} {ks : List Token.Kind} (h : CutsInto rest cs ks)
    {done : List Char} {ts : List Token} {e : Option LexError} (hrest : Cuts (done ++ cs) rest ts e) :
    ∃ us, us.map Token.kind = ks ∧ Cuts done (cs ++ rest) (us ++ ts) e := by
  induction h generalizing done with
  | nil => exact ⟨[], rfl, by simpa using hrest⟩
  | @lexeme blanks w cs kind ks blank munch fits tail ih =>
    have hrest' : Cuts (done ++ blanks ++ w ++ cs) rest ts e := by simpa using hrest
    obtain ⟨us, hus, hcuts⟩ := ih hrest'
    refine ⟨⟨kind, .ofNext (done ++ blanks)⟩ :: us, by simp [hus], ?_⟩
    simpa using Cuts.lexeme blank munch fits hcuts

/-- Other blanks at the end of a token. -/
theorem sameTokens {us gap gap' rest : List Char} {ks : List Token.Kind}
    (h : CutsInto (gap ++ rest) us ks) (hgap : ∀ c ∈ gap, isBlank c = true) (hgap' : IsGap gap') :
    SameTokens (String.ofList (us ++ (gap ++ rest))) (String.ofList (us ++ (gap' ++ rest))) := by
  obtain ⟨ts, e, hrest⟩ := exists_cuts (us ++ gap) rest
  obtain ⟨ts', e', hrest', hkinds, hstop⟩ := hrest.anywhere (us ++ gap')
  have hcuts : Cuts ([] ++ us) (gap ++ rest) ts e := hrest.gap hgap
  have hcuts' : Cuts ([] ++ us) (gap' ++ rest) ts' e' := hrest'.gap hgap'.2
  obtain ⟨vs, hvs, hfirst⟩ := h.cuts hcuts
  obtain ⟨vs', hvs', hsecond⟩ := (h.separate (separate_gap hgap' rest)).cuts hcuts'
  rw [← String.toList_ofList (l := us ++ (gap ++ rest))] at hfirst
  rw [← String.toList_ofList (l := us ++ (gap' ++ rest))] at hsecond
  constructor
  · rw [tokenize_of_cuts hfirst, tokenize_of_cuts hsecond]
    simp [hvs, hvs', hkinds]
  · rw [tokenize_of_cuts hfirst, tokenize_of_cuts hsecond]
    exact hstop

end CutsInto

/-- The blanks behind any token of a text, and those in front of the first one, may be others. -/
theorem exists_gap (text : String) {before after : List Token}
    (htext : (tokenize text).1 = before ++ after) (hbefore : ∀ t ∈ before, t.kind ≠ .eof) :
    ∃ us gap rest, text.toList = us ++ (gap ++ rest) ∧
      CutsInto (gap ++ rest) us (before.map Token.kind) ∧
      Cuts us (gap ++ rest) after (tokenize text).2 ∧
      (∀ c ∈ gap, isBlank c = true) ∧ (∀ c ∈ rest.head?, isBlank c = false) ∧
      ∀ gap', IsGap gap' → SameTokens text (String.ofList (us ++ (gap' ++ rest))) := by
  obtain ⟨us, behind, hcs, hinto, hcuts⟩ := (cuts_tokenize text).exists_end htext hbefore
  obtain ⟨gap, rest, rfl, hgap, hrest⟩ := takeWhile_split isBlank behind
  refine ⟨us, gap, rest, hcs, hinto, hcuts, hgap, hrest, fun gap' hgap' => ?_⟩
  have hsame := hinto.sameTokens hgap hgap'
  rwa [← hcs, String.ofList_toList] at hsame

end SmallLisp

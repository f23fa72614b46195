import SmallLisp.Proofs.Acceptance
import SmallLisp.Proofs.Munch
import SmallLisp.Text.Escape

/-!
# Source text

The texts that write a program, which differ in their blanks only. Programs that come from a text
can be written, and all that can be written are parsed from each of their texts, but for places.
-/
namespace SmallLisp

open SmallLisp.Parser

namespace Lexeme

/-- Whether a name can be written. -/
def IsName (name : String) : Prop :=
  ∃ c cs, name.toList = c :: cs ∧ isLetter c = true ∧ ∀ d ∈ cs, isSymbolChar d = true

/-- Whether `cs` keeps apart what stands on its sides. -/
def IsGap (cs : List Char) : Prop := cs ≠ [] ∧ ∀ c ∈ cs, isBlank c = true

theorem isGap_singleton {c : Char} (h : isBlank c = true) : IsGap [c] :=
  ⟨List.cons_ne_nil c [], List.forall_mem_singleton.mpr h⟩

end Lexeme

open Lexeme

mutual

/-- Whether an expression can be written. -/
def Expr.WellFormed : Expr → Prop
  | .symbol s => IsName s.name
  | .integer value _ => value ≤ maxInteger
  | .text contents _ => '\\' ∉ contents.toList
  | .define target value _ => IsName target.name ∧ value.WellFormed
  | .call callee arguments _ =>
    ¬ IsDefineWord callee ∧ callee.WellFormed ∧ Expr.AllWellFormed arguments

def Expr.AllWellFormed : List Expr → Prop
  | [] => True
  | e :: es => e.WellFormed ∧ Expr.AllWellFormed es

end

mutual

/-- Whether the characters `cs` write an expression. -/
def Expr.Written : Expr → List Char → Prop
  | .symbol s, cs => cs = s.name.toList
  | .integer value _, cs => cs = (toString value).toList
  | .text contents _, cs => cs = (Escape.quote contents).toList
  | .define target value _, cs => ∃ gap gap' vs, IsGap gap ∧ IsGap gap' ∧ value.Written vs ∧
    cs = '(' :: (defineWord.toList ++ gap ++ target.name.toList ++ gap' ++ vs) ++ [')']
  | .call callee arguments _, cs => ∃ us vs, callee.Written us ∧ Expr.AllWritten arguments vs ∧
    cs = '(' :: (us ++ vs) ++ [')']

/-- Whether `cs` write expressions, with a gap before each of them. -/
def Expr.AllWritten : List Expr → List Char → Prop
  | [], cs => cs = []
  | e :: es, cs => ∃ gap us vs, IsGap gap ∧ e.Written us ∧ Expr.AllWritten es vs ∧
    cs = gap ++ us ++ vs

end

mutual

/-- How many forms an expression has inside one another. -/
def Expr.nesting : Expr → Nat
  | .symbol _ | .integer .. | .text .. => 0
  | .define _ value _ => value.nesting + 1
  | .call callee arguments _ => max callee.nesting (Expr.nestings arguments) + 1

def Expr.nestings : List Expr → Nat
  | [] => 0
  | e :: es => max e.nesting (Expr.nestings es)

end

namespace Program

def WellFormed (p : Program) : Prop := Expr.AllWellFormed p.exprs

/-- Whether `text` writes a program, with gaps between the top-level expressions. -/
def Written (p : Program) (text : String) : Prop :=
  match p.exprs with
  | [] => text = ""
  | e :: es => ∃ us vs, e.Written us ∧ Expr.AllWritten es vs ∧ text.toList = us ++ vs

def nesting (p : Program) : Nat := Expr.nestings p.exprs

end Program

/-! ## What comes from a text can be written -/

/-- Whether a token can come from a text. -/
def Token.Kind.Sound : Token.Kind → Prop
  | symbol name => IsName name
  | integer value => value ≤ maxInteger
  | text contents => '\\' ∉ contents.toList
  | opening | closing | eof => True

namespace Lexeme

theorem noBackslash_of_body {cs ds : List Char} (h : Body cs ds) : '\\' ∉ ds := by
  induction h with
  | nil => simp
  | plain _ hescape _ ih => simp [ih, Ne.symm hescape]
  | escape h _ ih => cases h <;> simp [ih]

theorem sound_of_writes {w : List Char} {kind : Token.Kind} (h : Writes w kind)
    (fits : kind.Fits) : kind.Sound := by
  cases h with
  | opening | closing => trivial
  | @symbol c cs letter hcs => exact ⟨c, cs, by simp, letter, hcs⟩
  | integer => exact fits
  | @text cs ds body =>
    have hds := noBackslash_of_body body
    simpa [Token.Kind.Sound] using hds

end Lexeme

theorem sound_of_cuts {done cs : List Char} {ts : List Token} {e : Option LexError}
    (h : Cuts done cs ts e) : ∀ t ∈ ts, t.kind.Sound := by
  induction h with
  | finish => simp [Token.Kind.Sound]
  | lexeme _ munch fits _ ih =>
    intro t ht
    rcases List.mem_cons.mp ht with rfl | ht
    · exact sound_of_writes munch.writes fits
    · exact ih t ht
  | tooLarge | malformed => simp

mutual

theorem wellFormed_of_sound : (e : Expr) → e.Proper → (∀ m ∈ e.yield, m.kind.Sound) → e.WellFormed
  | .symbol s, _, h => h s.mark (by simp [Expr.yield])
  | .integer value location, _, h => h ⟨.integer value, some location⟩ (by simp [Expr.yield])
  | .text contents location, _, h => h ⟨.text contents, some location⟩ (by simp [Expr.yield])
  | .define target value location, he, h => by
    have htarget : target.mark.kind.Sound := h target.mark (by simp [Expr.yield])
    have hvalue : ∀ m ∈ value.yield, m.kind.Sound := fun m hm => h m (by simp [Expr.yield, hm])
    exact ⟨htarget, wellFormed_of_sound value he hvalue⟩
  | .call callee arguments location, he, h => by
    have hcallee : ∀ m ∈ callee.yield, m.kind.Sound := fun m hm => h m (by simp [Expr.yield, hm])
    have harguments : ∀ m ∈ Expr.yields arguments, m.kind.Sound :=
      fun m hm => h m (by simp [Expr.yield, hm])
    exact ⟨he.1, wellFormed_of_sound callee he.2.1 hcallee,
      allWellFormed_of_sound arguments he.2.2 harguments⟩

theorem allWellFormed_of_sound : (es : List Expr) → Expr.AllProper es →
    (∀ m ∈ Expr.yields es, m.kind.Sound) → Expr.AllWellFormed es
  | [], _, _ => trivial
  | e :: es, hes, h => by
    have hfirst : ∀ m ∈ e.yield, m.kind.Sound := fun m hm => h m (by simp [hm])
    have hrest : ∀ m ∈ Expr.yields es, m.kind.Sound := fun m hm => h m (by simp [hm])
    exact ⟨wellFormed_of_sound e hes.1 hfirst, allWellFormed_of_sound es hes.2 hrest⟩

end

theorem allProper_of_parse {text : String} {p : Program} (h : parse text = .ok p) :
    Expr.AllProper p.exprs := by
  obtain ⟨us, t, -, -, -, hall⟩ := exists_reading_of_parse h
  exact (Progress.proper_feedAll Progress.proper_start hall).1

theorem wellFormed_of_parse {text : String} {p : Program} (h : parse text = .ok p) :
    p.WellFormed := by
  obtain ⟨ts, ht, hrecord⟩ := recorded_of_parse h
  have hcuts := cuts_tokenize text
  rw [ht] at hcuts
  apply allWellFormed_of_sound p.exprs (allProper_of_parse h)
  intro m hm
  have hmem : m ∈ Expr.yields p.exprs ++ [⟨.eof, none⟩] := List.mem_append_left _ hm
  obtain ⟨i, hi, rfl⟩ := List.mem_iff_getElem.mp hmem
  have hlength := hrecord.length_eq
  have hfits := List.Forall₂.get hrecord (i := i) (by omega) hi
  rw [List.get_eq_getElem] at hfits
  have hsound := sound_of_cuts hcuts ts[i] (List.getElem_mem _)
  rw [hfits.1] at hsound
  exact hsound

/-! ## What is written is lexed -/

namespace Lexeme

theorem separate_gap {gap : List Char} (h : IsGap gap) (cs : List Char) :
    Separate (gap ++ cs) := by
  obtain ⟨b, bs, rfl⟩ := List.exists_cons_of_ne_nil h.1
  exact separate_blank (h.2 b List.mem_cons_self) _

theorem ends_of_separate {rest : List Char} (h : Separate rest) (kind : Token.Kind) :
    Ends kind rest := by
  cases kind with
  | symbol => exact h
  | integer =>
    intro c hc
    by_contra hdigit
    have hsymbol := isSymbolChar_of_isDigit (by simpa using hdigit)
    rw [h c hc] at hsymbol
    cases hsymbol
  | opening | closing | text | eof => trivial

theorem writes_symbol {name : String} (h : IsName name) :
    Writes name.toList (.symbol name) := by
  obtain ⟨c, cs, hname, letter, hcs⟩ := h
  have hwrites := Writes.symbol letter hcs
  rwa [← hname, String.ofList_toList] at hwrites

theorem isDigit_of_mem_toDigits {n : Nat} {c : Char} (h : c ∈ Nat.toDigits 10 n) :
    isDigit c = true := by
  have hdigit := Nat.isDigit_of_mem_toDigits (by decide) (by decide) h
  simpa [isDigit, Char.isDigit, Char.le_def] using hdigit

theorem writes_integer (value : Nat) : Writes (toString value).toList (.integer value) := by
  have hdigits : (toString value).toList = Nat.toDigits 10 value := Nat.toList_repr
  have hvalue := Nat.ofDigitChars_toDigits (n := value) (b := 10) (by decide) (by decide)
  rw [hdigits]
  rcases hds : Nat.toDigits 10 value with - | ⟨d, ds⟩
  · exact absurd hds Nat.toDigits_ne_nil
  · rw [hds] at hvalue
    have hall : ∀ c ∈ d :: ds, isDigit c = true := by
      intro c hc
      rw [← hds] at hc
      exact isDigit_of_mem_toDigits hc
    have hwrites := Writes.integer hall
    rwa [hvalue] at hwrites

theorem body_escape {cs : List Char} (h : '\\' ∉ cs) : Body (cs.flatMap Escape.char) cs := by
  induction cs with
  | nil => exact .nil
  | cons c cs ih =>
    have hrest := ih fun hc => h (List.mem_cons_of_mem c hc)
    have hescape : c ≠ '\\' := fun hc => h (by simp [hc])
    rw [List.flatMap_cons, Escape.char.eq_def]
    split
    · exact absurd rfl hescape
    · exact .escape .quote hrest
    · exact .escape .lineFeed hrest
    · exact .escape .carriageReturn hrest
    · exact .escape .tab hrest
    · rename_i hquote _ _ _
      exact .plain hquote hescape hrest

theorem writes_text {contents : String} (h : '\\' ∉ contents.toList) :
    Writes (Escape.quote contents).toList (.text contents) := by
  have hwrites := Writes.text (body_escape h)
  rwa [String.ofList_toList, ← String.toList_ofList (l := '"' :: _ ++ ['"'])] at hwrites

end Lexeme

namespace Scanner

/-- Whether `cs` with `rest` behind it is lexed as tokens of the kinds `ks` and then as `rest`. -/
def LexedAs (cs : List Char) (ks : List Token.Kind) (rest : List Char) : Prop :=
  ∀ done ts e, Lexes (.ofLast (done ++ cs)) rest ts e →
    ∃ us, us.map Token.kind = ks ∧ Lexes (.ofLast done) (cs ++ rest) (us ++ ts) e

theorem LexedAs.append {cs cs' rest : List Char} {ks ks' : List Token.Kind}
    (h : LexedAs cs ks (cs' ++ rest)) (h' : LexedAs cs' ks' rest) :
    LexedAs (cs ++ cs') (ks ++ ks') rest := by
  intro done ts e hrest
  rw [← List.append_assoc] at hrest
  obtain ⟨vs, hvs, hsecond⟩ := h' _ _ _ hrest
  obtain ⟨us, hus, hfirst⟩ := h _ _ _ hsecond
  refine ⟨us ++ vs, by rw [List.map_append, hus, hvs], ?_⟩
  rwa [List.append_assoc, List.append_assoc]

theorem lexedAs_writes {w : List Char} {kind : Token.Kind} (h : Writes w kind) (fits : kind.Fits)
    {rest : List Char} (hrest : Ends kind rest) : LexedAs w [kind] rest :=
  fun _ _ _ tail => ⟨[_], rfl, tail.lexeme h fits hrest⟩

theorem lexedAs_gap {gap : List Char} (h : IsGap gap) (rest : List Char) :
    LexedAs gap [] rest := by
  intro done ts e hrest
  rw [← Location.after_ofLast] at hrest
  exact ⟨[], rfl, hrest.blanks h.2⟩

theorem lexedAs_opening (rest : List Char) : LexedAs ['('] [.opening] rest :=
  lexedAs_writes .opening trivial trivial

theorem lexedAs_closing (rest : List Char) : LexedAs [')'] [.closing] rest :=
  lexedAs_writes .closing trivial trivial

theorem lexedAs_symbol {name : String} (h : IsName name) {rest : List Char}
    (hrest : Separate rest) : LexedAs name.toList [.symbol name] rest :=
  lexedAs_writes (writes_symbol h) trivial (ends_of_separate hrest _)

theorem isName_defineWord : IsName defineWord :=
  ⟨'d', ['e', 'f', 'i', 'n', 'e'], by decide, by decide, List.all_eq_true.mp rfl⟩

theorem separate_allWritten {es : List Expr} {cs rest : List Char} (h : Expr.AllWritten es cs)
    (hrest : Separate rest) : Separate (cs ++ rest) := by
  cases es with
  | nil =>
    obtain rfl : cs = [] := h
    exact hrest
  | cons e es =>
    obtain ⟨gap, us, vs, hgap, -, -, rfl⟩ := h
    rw [List.append_assoc, List.append_assoc]
    exact separate_gap hgap _

-- The characters behind an expression must only keep its last symbol or integer from going on.
mutual

theorem lexedAs_written : (e : Expr) → e.WellFormed → {cs rest : List Char} → e.Written cs →
    Separate rest → LexedAs cs (Grammar.kinds e) rest
  | .symbol s, he, cs, rest, hcs, hrest => by
    obtain rfl : cs = s.name.toList := hcs
    exact lexedAs_symbol he hrest
  | .integer value location, he, cs, rest, hcs, hrest => by
    obtain rfl : cs = (toString value).toList := hcs
    exact lexedAs_writes (writes_integer value) he (ends_of_separate hrest _)
  | .text contents location, he, cs, rest, hcs, hrest => by
    obtain rfl : cs = (Escape.quote contents).toList := hcs
    exact lexedAs_writes (writes_text he) trivial trivial
  | .define target value location, he, cs, rest, hcs, hrest => by
    obtain ⟨gap, gap', vs, hgap, hgap', hvs, rfl⟩ := hcs
    have hkinds : Grammar.kinds (.define target value location) = [.opening] ++
        ([.symbol defineWord] ++ [] ++ [.symbol target.name] ++ [] ++ Grammar.kinds value) ++
          [.closing] := by
      simp [Grammar.kinds, Expr.yield, Expr.openingMark, Expr.defineMark, Expr.closingMark,
        Symbol.mark]
    have hclose : Separate ([')'] ++ rest) := fun c hc => by cases hc; rfl
    have hword := lexedAs_symbol isName_defineWord (separate_gap hgap
      (target.name.toList ++ (gap' ++ (vs ++ ([')'] ++ rest)))))
    have htarget := lexedAs_symbol he.1 (separate_gap hgap' (vs ++ ([')'] ++ rest)))
    have hvalue := lexedAs_written value he.2 hvs hclose
    have hbody := (((hword.append (lexedAs_gap hgap _)).append htarget).append
      (lexedAs_gap hgap' _)).append hvalue
    rw [hkinds]
    exact ((lexedAs_opening _).append hbody).append (lexedAs_closing rest)
  | .call callee arguments location, he, cs, rest, hcs, hrest => by
    obtain ⟨us, vs, hus, hvs, rfl⟩ := hcs
    have hkinds : Grammar.kinds (.call callee arguments location) = [.opening] ++
        (Grammar.kinds callee ++ (Expr.yields arguments).map Mark.kind) ++ [.closing] := by
      simp [Grammar.kinds, Expr.yield, Expr.openingMark, Expr.closingMark]
    have hclose : Separate ([')'] ++ rest) := fun c hc => by cases hc; rfl
    have hcallee := lexedAs_written callee he.2.1 hus (separate_allWritten hvs hclose)
    have harguments := lexedAs_allWritten arguments he.2.2 hvs hclose
    rw [hkinds]
    exact ((lexedAs_opening _).append (hcallee.append harguments)).append (lexedAs_closing rest)

theorem lexedAs_allWritten : (es : List Expr) → Expr.AllWellFormed es → {cs rest : List Char} →
    Expr.AllWritten es cs → Separate rest → LexedAs cs ((Expr.yields es).map Mark.kind) rest
  | [], _, cs, rest, hcs, _ => by
    obtain rfl : cs = [] := hcs
    exact fun done ts e h => ⟨[], rfl, by rwa [List.append_nil] at h⟩
  | e :: es, hes, cs, rest, hcs, hrest => by
    obtain ⟨gap, us, vs, hgap, hus, hvs, rfl⟩ := hcs
    have hfirst := lexedAs_written e hes.1 hus (separate_allWritten hvs hrest)
    have hall := lexedAs_allWritten es hes.2 hvs hrest
    rw [Expr.yields_cons, List.map_append]
    exact ((lexedAs_gap hgap _).append hfirst).append hall

end

end Scanner

theorem lexedAs_program {p : Program} (hp : p.WellFormed) {text : String} (h : p.Written text) :
    Scanner.LexedAs text.toList ((Expr.yields p.exprs).map Mark.kind) [] := by
  obtain ⟨location, es⟩ := p
  have hnil : Separate [] := fun c hc => by cases hc
  cases es with
  | nil =>
    obtain rfl : text = "" := h
    exact fun done ts e hrest => ⟨[], rfl, by rwa [String.toList_empty, List.append_nil] at hrest⟩
  | cons e es =>
    obtain ⟨us, vs, hus, hvs, htext⟩ := h
    have hfirst := Scanner.lexedAs_written e hp.1 hus (Scanner.separate_allWritten hvs hnil)
    rw [htext, Expr.yields_cons, List.map_append]
    exact hfirst.append (Scanner.lexedAs_allWritten es hp.2 hvs hnil)

/-- A text that writes a program has the tokens of the program. -/
theorem tokenize_written {p : Program} (hp : p.WellFormed) {text : String} (h : p.Written text) :
    ∃ us t, tokenize text = (us ++ [t], none) ∧ t.kind = .eof ∧
      us.map Token.kind = (Expr.yields p.exprs).map Mark.kind := by
  obtain ⟨us, hus, hlexes⟩ := lexedAs_program hp h [] [_] none (.finish rfl)
  rw [List.append_nil] at hlexes
  exact ⟨us, _, tokenize_eq_iff.mpr hlexes, rfl, hus⟩

/-! ## What is written is parsed -/

/-- A record without its place. -/
def Mark.bare (m : Mark) : Mark := ⟨m.kind, m.location.map fun _ => default⟩

/-- A token without its place. -/
def Token.bare : Token → Token := Token.relocate fun _ => default

namespace Expr

theorem map_bare (es : List Expr) : es.map bare = relocateAll (fun _ => default) es :=
  (relocateAll_eq_map _ es).symm

theorem mark_bare (s : Symbol) : (s.relocate fun _ => default).mark = s.mark.bare := rfl

mutual

theorem yield_bare : (e : Expr) → e.bare.yield = e.yield.map Mark.bare
  | .symbol _ | .integer .. | .text .. => rfl
  | .define target value location => by
    have hvalue := yield_bare value
    simp only [bare] at hvalue
    simp [bare, relocate, yield, mark_bare, hvalue, openingMark, defineMark, closingMark,
      Mark.bare]
  | .call callee arguments location => by
    have hcallee := yield_bare callee
    have harguments := yields_bare arguments
    simp only [bare] at hcallee harguments
    simp [bare, relocate, yield, relocateAll_eq_map, hcallee, harguments, openingMark,
      closingMark, Mark.bare]

theorem yields_bare : (es : List Expr) → yields (es.map bare) = (yields es).map Mark.bare
  | [] => rfl
  | e :: es => by
    rw [List.map_cons, yields_cons, yields_cons, List.map_append, yield_bare e, yields_bare es]

end

theorem isDefineWord_bare {e : Expr} : IsDefineWord e.bare ↔ IsDefineWord e := by
  cases e with
  | symbol | integer | text | define | call => exact Iff.rfl

mutual

theorem proper_bare : (e : Expr) → e.WellFormed → e.bare.Proper
  | .symbol _, _ | .integer .., _ | .text .., _ => trivial
  | .define _ value _, h => proper_bare value h.2
  | .call callee arguments _, h => by
    have harguments := allProper_bare arguments h.2.2
    rw [map_bare] at harguments
    exact ⟨fun hd => h.1 (isDefineWord_bare.mp hd), proper_bare callee h.2.1, harguments⟩

theorem allProper_bare : (es : List Expr) → AllWellFormed es → AllProper (es.map bare)
  | [], _ => trivial
  | e :: es, h => ⟨proper_bare e h.1, allProper_bare es h.2⟩

end

mutual

theorem nesting_bare : (e : Expr) → e.bare.nesting = e.nesting
  | .symbol _ | .integer .. | .text .. => rfl
  | .define _ value _ => congrArg (· + 1) (nesting_bare value)
  | .call callee arguments _ => by
    have harguments := nestings_bare arguments
    rw [map_bare] at harguments
    exact congrArg₂ (max · · + 1) (nesting_bare callee) harguments

theorem nestings_bare : (es : List Expr) → nestings (es.map bare) = nestings es
  | [] => rfl
  | e :: es => congrArg₂ max (nesting_bare e) (nestings_bare es)

end

end Expr

theorem recorded_bare {us : List Token} {ms : List Mark}
    (h : us.map Token.kind = ms.map Mark.kind) :
    Recorded (us.map Token.bare) (ms.map Mark.bare) := by
  induction us generalizing ms with
  | nil =>
    have hms : ms = [] := List.map_eq_nil_iff.mp h.symm
    rw [hms]
    exact .nil
  | cons u us ih =>
    obtain ⟨m, ms, rfl, hm, hms⟩ := List.map_eq_cons_iff.mp h.symm
    have hfits : u.bare.Fits m.bare := by
      refine ⟨hm.symm, fun p hp => ?_⟩
      obtain ⟨_, -, rfl⟩ := Option.map_eq_some_iff.mp hp
      rfl
    exact .cons hfits (ih hms.symm)

mutual

theorem balanced_of_recorded : (e : Expr) → {ts : List Token} → Recorded ts e.yield →
    Balanced e.nesting ts
  | .symbol s, ts, h => by
    obtain ⟨t, rfl, hk, -⟩ := h.single
    exact .single (by rw [hk]; rfl) _
  | .integer value location, ts, h => by
    obtain ⟨t, rfl, hk, -⟩ := h.single
    exact .single (by rw [hk]; rfl) _
  | .text contents location, ts, h => by
    obtain ⟨t, rfl, hk, -⟩ := h.single
    exact .single (by rw [hk]; rfl) _
  | .define target value location, ts, h => by
    obtain ⟨us, cs, rfl, hus, hcs⟩ := h.split
    obtain ⟨hs, vs, rfl, hhs, hvs⟩ := hus.split
    obtain ⟨o, ds, ⟨ho, -⟩, hds, rfl⟩ := List.forall₂_cons_right_iff.mp hhs
    obtain ⟨d, ns, ⟨hd, -⟩, hns, rfl⟩ := List.forall₂_cons_right_iff.mp hds
    obtain ⟨n, rfl, hn, -⟩ := Recorded.single hns
    obtain ⟨c, rfl, hc, -⟩ := hcs.single
    have hword : Balanced value.nesting [d] := .single (by rw [hd]; rfl) _
    have htarget : Balanced value.nesting [n] := .single (by rw [hn]; rfl) _
    have hvalue := balanced_of_recorded value hvs
    exact .form ho hc ((hword.append htarget).append hvalue)
  | .call callee arguments location, ts, h => by
    obtain ⟨us, cs, rfl, hus, hcs⟩ := h.split
    obtain ⟨ws, vs, rfl, hws, hvs⟩ := hus.split
    obtain ⟨os, xs, rfl, hos, hxs⟩ := hws.split
    obtain ⟨o, rfl, ho, -⟩ := hos.single
    obtain ⟨c, rfl, hc, -⟩ := hcs.single
    have hcallee := (balanced_of_recorded callee hxs).mono
      (Nat.le_max_left _ (Expr.nestings arguments))
    have harguments := (balanced_of_recordeds arguments hvs).mono
      (Nat.le_max_right callee.nesting _)
    exact .form ho hc (hcallee.append harguments)

theorem balanced_of_recordeds : (es : List Expr) → {ts : List Token} →
    Recorded ts (Expr.yields es) → Balanced (Expr.nestings es) ts
  | [], ts, h => by
    obtain rfl := List.forall₂_nil_right_iff.mp h
    exact .nil _
  | e :: es, ts, h => by
    obtain ⟨us, vs, rfl, hus, hvs⟩ := h.split
    have hfirst := (balanced_of_recorded e hus).mono (Nat.le_max_left _ (Expr.nestings es))
    have hrest := (balanced_of_recordeds es hvs).mono (Nat.le_max_right e.nesting _)
    exact hfirst.append hrest

end

/-- Over the tokens of a program, wherever they stand, a reading comes to its expressions. -/
theorem feedAll_of_kinds {es : List Expr} (hes : Expr.AllWellFormed es)
    (hnesting : Expr.nestings es ≤ maxNesting) {us : List Token}
    (hus : us.map Token.kind = (Expr.yields es).map Mark.kind) :
    ∃ g, Progress.start.feedAll us = .ok g ∧ g.mayEnd ∧
      g.finished.map Expr.bare = es.map Expr.bare := by
  have hrecord := recorded_bare hus
  rw [← Expr.yields_bare] at hrecord
  have hbalanced := balanced_of_recordeds _ hrecord
  rw [Expr.nestings_bare] at hbalanced
  have hshallow := Progress.not_tooDeep_of_nestsWithin (hbalanced.mono hnesting).2
  have hmoved : Progress.start.feedAll (us.map Token.bare) = _ :=
    Progress.feedAll_relocate (fun _ => default) Progress.start us
  rcases Progress.reaches_trees _ (Expr.allProper_bare es hes) hrecord [] with hok | hdeep
  · rw [Progress.start, hok] at hmoved
    rcases hread : Progress.start.feedAll us with err | g
    · rw [← Progress.start, hread] at hmoved
      cases hmoved
    · rw [← Progress.start, hread] at hmoved
      have hg : (⟨es.map Expr.bare, .expression []⟩ : Progress) = g.relocate fun _ => default :=
        Except.ok.inj hmoved
      refine ⟨g, rfl, ?_, ?_⟩
      · rw [← Progress.mayEnd_relocate fun _ => default, ← hg]
        rfl
      · exact (congrArg Progress.finished hg).symm
  · exact absurd hdeep hshallow

theorem parse_of_written {p : Program} (hp : p.WellFormed) (hnesting : p.nesting ≤ maxNesting)
    {text : String} (h : p.Written text) :
    ∃ q, parse text = .ok q ∧ q.exprs.map Expr.bare = p.exprs.map Expr.bare := by
  obtain ⟨us, t, htext, ht, hus⟩ := tokenize_written hp h
  obtain ⟨g, hread, hend, hexprs⟩ := feedAll_of_kinds hp hnesting hus
  have hall : Progress.start.feedAll (us ++ [t]) = .ok g := by
    rw [Progress.feedAll_append_ok hread, Progress.feedAll_cons_ok (Progress.feed_eof ht hend)]
    rfl
  exact ⟨_, parse_ok_iff.mpr ⟨_, g, htext, hall, rfl⟩, hexprs⟩

mutual

theorem exists_written : (e : Expr) → ∃ cs, e.Written cs
  | .symbol s => ⟨s.name.toList, rfl⟩
  | .integer value _ => ⟨(toString value).toList, rfl⟩
  | .text contents _ => ⟨(Escape.quote contents).toList, rfl⟩
  | .define _ value _ => by
    obtain ⟨vs, hvs⟩ := exists_written value
    exact ⟨_, [' '], [' '], vs, isGap_singleton rfl, isGap_singleton rfl, hvs, rfl⟩
  | .call callee arguments _ => by
    obtain ⟨us, hus⟩ := exists_written callee
    obtain ⟨vs, hvs⟩ := exists_allWritten arguments
    exact ⟨_, us, vs, hus, hvs, rfl⟩

theorem exists_allWritten : (es : List Expr) → ∃ cs, Expr.AllWritten es cs
  | [] => ⟨[], rfl⟩
  | e :: es => by
    obtain ⟨us, hus⟩ := exists_written e
    obtain ⟨vs, hvs⟩ := exists_allWritten es
    exact ⟨_, [' '], us, vs, isGap_singleton rfl, hus, hvs, rfl⟩

end

theorem Program.exists_written (p : Program) : ∃ text, p.Written text := by
  obtain ⟨location, es⟩ := p
  cases es with
  | nil => exact ⟨"", rfl⟩
  | cons e es =>
    obtain ⟨us, hus⟩ := SmallLisp.exists_written e
    obtain ⟨vs, hvs⟩ := exists_allWritten es
    exact ⟨String.ofList (us ++ vs), us, vs, hus, hvs, by simp⟩

/-- Programs that are parsed can be written, and those that can be written have source texts, each
of which is parsed as the program, but for places. -/
theorem written_is_parsed :
    (∀ text p, parse text = .ok p → p.WellFormed) ∧
    (∀ p : Program, ∃ text, p.Written text) ∧
    (∀ (p : Program) (text : String), p.WellFormed → p.nesting ≤ maxNesting → p.Written text →
      ∃ q, parse text = .ok q ∧ q.exprs.map Expr.bare = p.exprs.map Expr.bare) := by
  refine ⟨?_, Program.exists_written, ?_⟩
  · intro text p h
    exact wellFormed_of_parse h
  · intro p text hp hnesting htext
    exact parse_of_written hp hnesting htext

/-- A definition of a text with a quote and a line feed, and a call of a call, on two lines. -/
theorem written_is_parsed_quoted :
    let e : Expr := .define ⟨"x-1", default⟩ (.text "a\"\n" default) default
    let e' : Expr := .call (.call (.symbol ⟨"f", default⟩) [] default)
      [.symbol ⟨"define", default⟩, .integer 70 default] default
    let p : Program := ⟨default, [e, e']⟩
    let text := "(define\tx-1  \"a\\\"\\n\")\n((f) define 70)"
    p.WellFormed ∧ p.Written text ∧ (∃ q, parse text = .ok q ∧ q.WellFormed) ∧
      ∃ q, parse text = .ok q ∧ q.exprs.map Expr.bare = p.exprs.map Expr.bare := by
  intro e e' p text
  have hname (c : Char) (cs : List Char) (h : isLetter c = true)
      (hcs : cs.all isSymbolChar = true) : IsName (String.ofList (c :: cs)) :=
    ⟨c, cs, String.toList_ofList, h, List.all_eq_true.mp hcs⟩
  have hcontents : '\\' ∉ "a\"\n".toList := by decide
  have hvalue : 70 ≤ maxInteger := by decide
  have hcallee : "f" ≠ defineWord := by decide
  have hp : p.WellFormed :=
    ⟨⟨hname 'x' ['-', '1'] rfl rfl, hcontents⟩,
      ⟨id, ⟨hcallee, hname 'f' [] rfl rfl, trivial⟩,
        hname 'd' ['e', 'f', 'i', 'n', 'e'] rfl rfl, hvalue, trivial⟩, trivial⟩
  have hdefine : e.Written "(define\tx-1  \"a\\\"\\n\")".toList :=
    ⟨['\t'], [' ', ' '], _, isGap_singleton rfl, ⟨by simp, List.all_eq_true.mp rfl⟩, rfl,
      by decide +kernel⟩
  have hcall : e'.Written "((f) define 70)".toList :=
    ⟨"(f)".toList, _, ⟨"f".toList, [], rfl, rfl, rfl⟩,
      ⟨[' '], _, _, isGap_singleton rfl, rfl,
        ⟨[' '], _, [], isGap_singleton rfl, rfl, rfl, rfl⟩, rfl⟩,
      by decide +kernel⟩
  have htext : p.Written text :=
    ⟨_, _, hdefine, ⟨['\n'], _, [], isGap_singleton rfl, hcall, rfl, rfl⟩, by decide +kernel⟩
  have hparse := written_is_parsed.2.2 p text hp (by decide) htext
  refine ⟨hp, htext, ?_, hparse⟩
  obtain ⟨q, hq, -⟩ := hparse
  exact ⟨q, hq, written_is_parsed.1 text q hq⟩

end SmallLisp

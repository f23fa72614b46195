import Mathlib.Algebra.Group.Nat.Defs
import SmallLisp.Proofs.Composition

/-!
# Maximal munch

The lexemes of the language by their grammar alone, and how they cut a text: blanks are skipped, the
longest lexeme is taken, and so on to the end or to a place where there is none. Every text is cut
in one way, and the scanner cuts it so.
-/
namespace SmallLisp

/-- The place of the last of the characters `cs` of a text, which are its first ones. -/
def Location.ofLast (cs : List Char) : Location :=
  ⟨cs.length - 1, cs.count '\n' + 1, (cs.reverse.takeWhile (· ≠ '\n')).length⟩

/-- The place of the character behind `cs`, if that is no line feed. -/
def Location.ofNext (cs : List Char) : Location :=
  ⟨cs.length, cs.count '\n' + 1, (cs.reverse.takeWhile (· ≠ '\n')).length + 1⟩

namespace Lexeme

/-- Which character a backslash and a character stand for. -/
inductive Escapes : Char → Char → Prop
  | lineFeed : Escapes 'n' '\n'
  | carriageReturn : Escapes 'r' '\r'
  | tab : Escapes 't' '\t'
  | quote : Escapes '"' '"'

/-- What may stand between quotes, and the contents that it stands for. -/
inductive Body : List Char → List Char → Prop
  | nil : Body [] []
  | plain {c cs ds} (noQuote : c ≠ '"') (noEscape : c ≠ '\\') (rest : Body cs ds) :
      Body (c :: cs) (c :: ds)
  | escape {c d cs ds} (escapes : Escapes c d) (rest : Body cs ds) :
      Body ('\\' :: c :: cs) (d :: ds)

/-- The lexemes, each with the token that it writes. An integer may have any size. -/
inductive Writes : List Char → Token.Kind → Prop
  | opening : Writes ['('] .opening
  | closing : Writes [')'] .closing
  | symbol {c cs} (letter : isLetter c = true) (rest : ∀ d ∈ cs, isSymbolChar d = true) :
      Writes (c :: cs) (.symbol (String.ofList (c :: cs)))
  | integer {c cs} (digits : ∀ d ∈ c :: cs, isDigit d = true) :
      Writes (c :: cs) (.integer (Nat.ofDigitChars 10 (c :: cs) 0))
  | text {cs ds} (body : Body cs ds) : Writes ('"' :: cs ++ ['"']) (.text (String.ofList ds))

/-- Whether `w` is the longest lexeme that `cs` starts with. -/
structure Munch (cs w : List Char) (kind : Token.Kind) : Prop where
  starts : w <+: cs
  writes : Writes w kind
  longest : ∀ v kind', v <+: cs → Writes v kind' → v.length ≤ w.length

/-- What is wrong where no lexeme starts. The first thing that is wrong counts: a quoted text may
end too early, before or behind a backslash, or have an unknown escape. -/
inductive Malformed : List Char → LexError.Cause → Prop
  | unexpected {c} (noBlank : isBlank c = false) (noOpening : c ≠ '(') (noClosing : c ≠ ')')
      (noLetter : isLetter c = false) (noDigit : isDigit c = false) (noQuote : c ≠ '"') (cs) :
      Malformed (c :: cs) (.unexpectedCharacter c)
  | unterminated {cs ds} (body : Body cs ds) : Malformed ('"' :: cs) .unterminatedText
  | cutEscape {cs ds} (body : Body cs ds) : Malformed ('"' :: cs ++ ['\\']) .unterminatedText
  | escape {cs ds c} (body : Body cs ds) (unknown : ∀ d, ¬ Escapes c d) (rest) :
      Malformed ('"' :: cs ++ '\\' :: c :: rest) .unknownEscape

end Lexeme

/-- Whether an integer is small enough to be a token. -/
def Token.Kind.Fits : Token.Kind → Prop
  | integer value => value ≤ Lexeme.maxInteger
  | _ => True

open Lexeme in
/-- Behind the characters `done` of a text the rest of it is cut into the tokens `ts`, up to the end
or to the error `e`. -/
inductive Cuts : List Char → List Char → List Token → Option LexError → Prop
  | finish {done blanks} (blank : ∀ b ∈ blanks, isBlank b = true) :
      Cuts done blanks [⟨.eof, .ofLast (done ++ blanks)⟩] none
  | lexeme {done blanks w rest kind ts e} (blank : ∀ b ∈ blanks, isBlank b = true)
      (munch : Munch (w ++ rest) w kind) (fits : kind.Fits)
      (tail : Cuts (done ++ blanks ++ w) rest ts e) :
      Cuts done (blanks ++ (w ++ rest)) (⟨kind, .ofNext (done ++ blanks)⟩ :: ts) e
  | tooLarge {done blanks w rest value} (blank : ∀ b ∈ blanks, isBlank b = true)
      (munch : Munch (w ++ rest) w (.integer value)) (large : maxInteger < value) :
      Cuts done (blanks ++ (w ++ rest)) []
        (some ⟨.integerTooLarge, .ofNext (done ++ blanks)⟩)
  | malformed {done blanks rest cause} (blank : ∀ b ∈ blanks, isBlank b = true)
      (noLexeme : ∀ w kind, w <+: rest → ¬ Writes w kind) (malformed : Malformed rest cause) :
      Cuts done (blanks ++ rest) [] (some ⟨cause, .ofNext (done ++ blanks)⟩)

namespace Location

theorem ofLast_append_newline (cs : List Char) :
    ofLast (cs ++ ['\n']) = (ofLast cs).next '\n' := by
  simp [ofLast, next]

theorem ofLast_append_of_ne {c : Char} (hc : c ≠ '\n') (cs : List Char) :
    ofLast (cs ++ [c]) = ofNext cs := by
  simp [ofLast, ofNext, hc]

theorem next_ofLast {c : Char} (hc : c ≠ '\n') (cs : List Char) :
    (ofLast cs).next c = ofNext cs := by
  simp [ofLast, ofNext, next, hc]

theorem after_start (cs : List Char) : start.after cs = ofLast cs := by
  induction cs using List.reverseRecOn with
  | nil => rfl
  | append_singleton cs c ih =>
    rw [after_append, ih, after_cons, after_nil]
    by_cases hc : c = '\n'
    · subst hc
      exact (ofLast_append_newline cs).symm
    · rw [next_ofLast hc, ofLast_append_of_ne hc]

theorem after_ofLast (cs ds : List Char) : (ofLast cs).after ds = ofLast (cs ++ ds) := by
  rw [← after_start, ← after_append, after_start]

end Location

namespace Lexeme

/-! ## Reading a lexeme -/

theorem ofDigitChars_dropWhile_zero (ds : List Char) :
    Nat.ofDigitChars 10 (ds.dropWhile (· == '0')) 0 = Nat.ofDigitChars 10 ds 0 := by
  induction ds with
  | nil => rfl
  | cons d ds ih =>
    by_cases hd : d = '0'
    · subst hd
      have hdrop : ('0' :: ds).dropWhile (· == '0') = ds.dropWhile (· == '0') := rfl
      rw [hdrop, ih, Nat.ofDigitChars_cons]
      rfl
    · have hdrop : (d :: ds).dropWhile (· == '0') = d :: ds := by simp [hd]
      rw [hdrop]

theorem pow_le_ofDigitChars {d : Char} (hd : isDigit d = true) (hzero : d ≠ '0')
    (ds : List Char) : 10 ^ ds.length ≤ Nat.ofDigitChars 10 (d :: ds) 0 := by
  have hle : '0'.toNat ≤ d.toNat := by
    simp only [isDigit, Bool.and_eq_true, decide_eq_true_eq] at hd
    exact hd.1
  have hne : d.toNat ≠ '0'.toNat := fun h => hzero (Char.toNat_inj.mp h)
  have hpos : 1 ≤ 10 * 0 + (d.toNat - '0'.toNat) := by omega
  rw [Nat.ofDigitChars_cons, Nat.ofDigitChars_eq_ofDigitChars_zero]
  calc
    10 ^ ds.length = 10 ^ ds.length * 1 := (Nat.mul_one _).symm
    _ ≤ 10 ^ ds.length * (10 * 0 + (d.toNat - '0'.toNat)) := Nat.mul_le_mul_left _ hpos
    _ ≤ _ := Nat.le_add_right _ _

/-- The bound on the digits that are converted rules out no integer that fits. -/
theorem integer?_eq {ds : List Char} (hds : ∀ d ∈ ds, isDigit d = true) :
    integer? ds =
      if Nat.ofDigitChars 10 ds 0 ≤ maxInteger then some (Nat.ofDigitChars 10 ds 0) else none := by
  have hvalue := ofDigitChars_dropWhile_zero ds
  rw [integer?]
  by_cases hlength : (ds.dropWhile (· == '0')).length ≤ 10
  · rw [if_pos hlength, hvalue]
  · rw [if_neg hlength]
    symm
    apply if_neg
    rcases hsig : ds.dropWhile (· == '0') with - | ⟨d, sig⟩
    · simp [hsig] at hlength
    · have hmem : d ∈ ds := (List.dropWhile_suffix (· == '0')).subset (by simp [hsig])
      have hzero : d ≠ '0' := by
        have hhead := List.head?_dropWhile_not (· == '0') ds
        simpa [hsig] using hhead
      have hpow := pow_le_ofDigitChars (hds d hmem) hzero sig
      have hten : 10 ^ 10 ≤ 10 ^ sig.length := by
        apply Nat.pow_le_pow_right (by decide)
        simp [hsig] at hlength
        omega
      rw [hsig] at hvalue
      rw [hvalue] at hpow
      have hmax : maxInteger < 10 ^ 10 := by decide
      omega

theorem unescape?_of_escapes {c d : Char} (h : Escapes c d) : unescape? c = some d := by
  cases h <;> rfl

theorem escapes_of_unescape? {c d : Char} (h : unescape? c = some d) : Escapes c d := by
  rw [unescape?.eq_def] at h
  split at h
  · cases h
    exact .lineFeed
  · cases h
    exact .carriageReturn
  · cases h
    exact .tab
  · cases h
    exact .quote
  · cases h

theorem readText_body {cs ds : List Char} (h : Body cs ds) (rest : List Char) :
    readText (cs ++ rest) =
      ⟨cs.length + (readText rest).used, (readText rest).outcome.map (ds ++ ·)⟩ := by
  have hcons {r : Reading (List Char)} {n m : Nat} {c : Char} {es : List Char} :
      Reading.cons n c ⟨m + r.used, r.outcome.map (es ++ ·)⟩ =
        ⟨m + n + r.used, r.outcome.map (c :: es ++ ·)⟩ := by
    rcases r with ⟨k, cause | fs⟩ <;> simp [Reading.cons, Except.map] <;> omega
  induction h with
  | nil => rcases hr : readText rest with ⟨n, cause | fs⟩ <;> simp [hr, Except.map]
  | plain hquote hescape _ ih =>
    rw [List.cons_append, readText_plain hquote hescape, ih, hcons]
    rfl
  | escape h _ ih =>
    rw [List.cons_append, List.cons_append, readText_escape (unescape?_of_escapes h), ih, hcons]
    rfl

/-- Whether a lexeme of this kind ends where `rest` follows it. -/
def Ends : Token.Kind → List Char → Prop
  | .symbol _, rest => ∀ c ∈ rest.head?, isSymbolChar c = false
  | .integer _, rest => ∀ c ∈ rest.head?, isDigit c = false
  | _, _ => True

/-- The token of a lexeme, unless that is too large an integer. -/
def token? : Token.Kind → Except LexError.Cause Token.Kind
  | .integer value =>
    if value ≤ maxInteger then .ok (.integer value) else .error .integerTooLarge
  | kind => .ok kind

theorem token?_of_fits {kind : Token.Kind} (h : kind.Fits) : token? kind = .ok kind := by
  cases kind with
  | integer value => exact if_pos h
  | opening | closing | symbol | text | eof => rfl

theorem takeWhile_append_of_head {p : Char → Bool} {cs rest : List Char}
    (hcs : ∀ c ∈ cs, p c = true) (hrest : ∀ c ∈ rest.head?, p c = false) :
    (cs ++ rest).takeWhile p = cs := by
  have hnil : rest.takeWhile p = [] := by
    cases rest with
    | nil => rfl
    | cons c rest => exact List.takeWhile_cons_of_neg (by simp [hrest c rfl])
  rw [List.takeWhile_append_of_pos hcs, hnil, List.append_nil]

/-- A lexeme that ends is read to its end. -/
theorem read_of_writes {w : List Char} {kind : Token.Kind} (h : Writes w kind) {rest : List Char}
    (hrest : Ends kind rest) : read (w ++ rest) = ⟨w.length, token? kind⟩ := by
  cases h with
  | opening => rfl
  | closing => rfl
  | @symbol c cs letter hcs =>
    rw [List.cons_append, read_letter letter, takeWhile_append_of_head hcs hrest]
    rfl
  | @integer c cs digits =>
    have hc := digits c List.mem_cons_self
    have hcs : ∀ d ∈ cs, isDigit d = true := fun d hd => digits d (List.mem_cons_of_mem c hd)
    rw [List.cons_append, read_digit hc, takeWhile_append_of_head hcs hrest, integer?_eq digits,
      token?]
    split_ifs <;> rfl
  | @text cs ds body =>
    have happend : '"' :: cs ++ ['"'] ++ rest = '"' :: (cs ++ '"' :: rest) := by simp
    have hclose : readText ('"' :: rest) = ⟨1, .ok []⟩ := by rw [readText]
    rw [happend, read_quote, readText_body body, hclose]
    simp [Except.map, token?]
    omega

theorem outcome_of_malformed {cs : List Char} {cause : LexError.Cause} (h : Malformed cs cause) :
    (read cs).outcome = .error cause := by
  cases h with
  | unexpected _ hopening hclosing hletter hdigit hquote cs =>
    rw [read_other hopening hclosing hletter hdigit hquote]
  | @unterminated cs ds body =>
    have hbody := readText_body body []
    rw [List.append_nil] at hbody
    rw [read_quote, hbody]
    rfl
  | @cutEscape cs ds body =>
    rw [List.cons_append, read_quote, readText_body body]
    rfl
  | @escape cs ds c body unknown rest =>
    have hnone : unescape? c = none := by
      rcases hc : unescape? c with - | d
      · rfl
      · exact absurd (escapes_of_unescape? hc) (unknown d)
    rw [List.cons_append, read_quote, readText_body body]
    simp only [readText, hnone]
    rfl

theorem Ends.of_prefix {kind : Token.Kind} {us rest : List Char} (h : Ends kind rest)
    (hus : us <+: rest) : Ends kind us := by
  have hhead : ∀ c ∈ us.head?, c ∈ rest.head? := by
    intro c hc
    obtain ⟨vs, rfl⟩ := hus
    simp_all
  cases kind with
  | symbol | integer => exact fun c hc => h c (hhead c hc)
  | opening | closing | text | eof => trivial

theorem ends_nil (kind : Token.Kind) : Ends kind [] := by cases kind <;> simp [Ends]

theorem munch_of_writes {w : List Char} {kind : Token.Kind} (h : Writes w kind) {rest : List Char}
    (hrest : Ends kind rest) : Munch (w ++ rest) w kind := by
  refine ⟨List.prefix_append w rest, h, ?_⟩
  intro v kind' hv h'
  by_contra hlt
  have hwv : w <+: v :=
    List.prefix_of_prefix_length_le (List.prefix_append w rest) hv (Nat.le_of_not_le hlt)
  obtain ⟨us, rfl⟩ := hwv
  have hus : us <+: rest := (List.prefix_append_right_inj w).mp hv
  -- Read as what `w` writes, `w ++ us` is used up to the end of `w`; as a lexeme, to its own end.
  have hshort := read_of_writes h (hrest.of_prefix hus)
  have hlong := read_of_writes h' (ends_nil kind')
  rw [List.append_nil, hshort] at hlong
  have hlength := congrArg Reading.used hlong
  simp only at hlength
  omega

theorem ends_of_munch {w rest : List Char} {kind : Token.Kind} (h : Munch (w ++ rest) w kind) :
    Ends kind rest := by
  -- A character that could go on with the lexeme would make a longer one.
  have hstop (c : Char) (hc : c ∈ rest.head?) (kind' : Token.Kind) : ¬ Writes (w ++ [c]) kind' := by
    intro hlong
    obtain ⟨r, rfl⟩ := List.head?_eq_some_iff.mp hc
    have hle := h.longest (w ++ [c]) kind' ⟨r, by simp⟩ hlong
    simp only [List.length_append, List.length_singleton] at hle
    omega
  cases h.writes with
  | opening | closing | text => trivial
  | @symbol a cs letter hcs =>
    intro c hc
    by_contra hsymbol
    have hall : ∀ d ∈ cs ++ [c], isSymbolChar d = true := by
      intro d hd
      rcases List.mem_append.mp hd with hd | hd
      · exact hcs d hd
      · simpa [List.mem_singleton.mp hd] using hsymbol
    exact hstop c hc _ (.symbol letter hall)
  | @integer a cs digits =>
    intro c hc
    by_contra hdigit
    have hall : ∀ d ∈ a :: (cs ++ [c]), isDigit d = true := by
      intro d hd
      rcases List.mem_append.mp (show d ∈ (a :: cs) ++ [c] from hd) with hd | hd
      · exact digits d hd
      · simpa [List.mem_singleton.mp hd] using hdigit
    exact hstop c hc _ (.integer hall)

theorem read_of_munch {w rest : List Char} {kind : Token.Kind} (h : Munch (w ++ rest) w kind) :
    read (w ++ rest) = ⟨w.length, token? kind⟩ := read_of_writes h.writes (ends_of_munch h)

/-! ## Every place starts a lexeme or is malformed -/

/-- Where the contents of a quoted text end. -/
inductive Stops : List Char → Prop
  | nothing : Stops []
  | quote (rest) : Stops ('"' :: rest)
  | backslash : Stops ['\\']
  | escape {c} (unknown : ∀ d, ¬ Escapes c d) (rest) : Stops ('\\' :: c :: rest)

theorem exists_body (cs : List Char) :
    ∃ us ds rest, cs = us ++ rest ∧ Body us ds ∧ Stops rest := by
  fun_induction readText cs with
  | case1 => exact ⟨[], [], [], rfl, .nil, .nothing⟩
  | case2 cs => exact ⟨[], [], '"' :: cs, rfl, .nil, .quote cs⟩
  | case3 => exact ⟨[], [], ['\\'], rfl, .nil, .backslash⟩
  | case4 c cs d hd ih =>
    obtain ⟨us, ds, rest, rfl, hus, hrest⟩ := ih
    exact ⟨'\\' :: c :: us, d :: ds, rest, rfl, .escape (escapes_of_unescape? hd) hus, hrest⟩
  | case5 c cs hc =>
    have hunknown : ∀ d, ¬ Escapes c d := by
      intro d hd
      rw [unescape?_of_escapes hd] at hc
      cases hc
    exact ⟨[], [], '\\' :: c :: cs, rfl, .nil, .escape hunknown cs⟩
  | case6 c cs hquote hend hescape ih =>
    obtain ⟨us, ds, rest, rfl, hus, hrest⟩ := ih
    exact ⟨c :: us, c :: ds, rest, rfl, .plain hquote (ne_backslash hend hescape) hus, hrest⟩

theorem takeWhile_split (p : Char → Bool) (cs : List Char) :
    ∃ us rest, cs = us ++ rest ∧ (∀ c ∈ us, p c = true) ∧ ∀ c ∈ rest.head?, p c = false := by
  refine ⟨cs.takeWhile p, cs.dropWhile p, List.takeWhile_append_dropWhile.symm,
    List.all_eq_true.mp List.all_takeWhile, ?_⟩
  intro c hc
  have hhead := List.head?_dropWhile_not p cs
  rw [Option.mem_def.mp hc] at hhead
  simpa using hhead

/-- A place that is no blank starts a lexeme that ends, or is malformed. -/
theorem writes_or_malformed {c : Char} (hc : isBlank c = false) (cs : List Char) :
    (∃ w rest kind, c :: cs = w ++ rest ∧ Writes w kind ∧ Ends kind rest) ∨
      ∃ cause, Malformed (c :: cs) cause := by
  cases start_of c with
  | opening h =>
    subst h
    exact .inl ⟨['('], cs, .opening, rfl, .opening, trivial⟩
  | closing h =>
    subst h
    exact .inl ⟨[')'], cs, .closing, rfl, .closing, trivial⟩
  | letter h =>
    obtain ⟨us, rest, rfl, hus, hrest⟩ := takeWhile_split isSymbolChar cs
    exact .inl ⟨c :: us, rest, _, rfl, .symbol h hus, hrest⟩
  | digit h =>
    obtain ⟨us, rest, rfl, hus, hrest⟩ := takeWhile_split isDigit cs
    have hall : ∀ d ∈ c :: us, isDigit d = true := List.forall_mem_cons.mpr ⟨h, hus⟩
    exact .inl ⟨c :: us, rest, _, rfl, .integer hall, hrest⟩
  | quote h =>
    subst h
    obtain ⟨us, ds, rest, rfl, body, hrest⟩ := exists_body cs
    cases hrest with
    | nothing =>
      rw [List.append_nil]
      exact .inr ⟨_, .unterminated body⟩
    | quote rest =>
      exact .inl ⟨'"' :: us ++ ['"'], rest, _, by simp, .text body, trivial⟩
    | backslash => exact .inr ⟨_, .cutEscape body⟩
    | escape unknown rest => exact .inr ⟨_, .escape body unknown rest⟩
  | other hopening hclosing hletter hdigit hquote =>
    exact .inr ⟨_, .unexpected hc hopening hclosing hletter hdigit hquote cs⟩

theorem Writes.head_noBlank {w : List Char} {kind : Token.Kind} (h : Writes w kind) :
    ∃ c cs, w = c :: cs ∧ isBlank c = false := by
  have hsymbol {c : Char} (hc : isSymbolChar c = true) : isBlank c = false := by
    by_contra hblank
    have hseparate := separate_blank (by simpa using hblank) [] c rfl
    rw [hc] at hseparate
    cases hseparate
  cases h with
  | opening => exact ⟨'(', [], rfl, rfl⟩
  | closing => exact ⟨')', [], rfl, rfl⟩
  | @symbol c cs letter _ => exact ⟨c, cs, rfl, hsymbol (by simp [isSymbolChar, letter])⟩
  | @integer c cs digits =>
    exact ⟨c, cs, rfl, hsymbol (isSymbolChar_of_isDigit (digits c List.mem_cons_self))⟩
  | @text cs ds _ => exact ⟨'"', cs ++ ['"'], rfl, rfl⟩

theorem Malformed.head_noBlank {cs : List Char} {cause : LexError.Cause} (h : Malformed cs cause) :
    ∃ c rest, cs = c :: rest ∧ isBlank c = false := by
  cases h with
  | unexpected hc _ _ _ _ _ cs => exact ⟨_, cs, rfl, hc⟩
  | unterminated | cutEscape | escape => exact ⟨'"', _, rfl, rfl⟩

theorem Malformed.ne_tooLarge {cs : List Char} {cause : LexError.Cause} (h : Malformed cs cause) :
    cause ≠ .integerTooLarge := by
  cases h with
  | unexpected | unterminated | cutEscape | escape => exact LexError.Cause.noConfusion

theorem not_writes_of_malformed {cs : List Char} {cause : LexError.Cause} (h : Malformed cs cause)
    {w : List Char} (hw : w <+: cs) (kind : Token.Kind) : ¬ Writes w kind := by
  intro hwrites
  obtain ⟨rest, rfl⟩ := hw
  have houtcome := outcome_of_malformed h
  cases hwrites with
  | opening => cases houtcome
  | closing => cases houtcome
  | symbol letter hcs =>
    rw [List.cons_append, read_letter letter] at houtcome
    cases houtcome
  | integer digits =>
    rw [List.cons_append, read_digit (digits _ List.mem_cons_self)] at houtcome
    split at houtcome
    · cases houtcome
    · exact h.ne_tooLarge (Except.error.inj houtcome).symm
  | text body =>
    rw [read_of_writes (.text body) trivial] at houtcome
    cases houtcome

end Lexeme

namespace Scanner

open Lexeme

theorem dropWhile_of_head {c : Char} (hc : isBlank c = false) (cs : List Char) :
    (c :: cs).dropWhile isBlank = c :: cs := List.dropWhile_cons_of_neg (by simp [hc])

theorem takeWhile_of_head {c : Char} (hc : isBlank c = false) (cs : List Char) :
    (c :: cs).takeWhile isBlank = [] := List.takeWhile_cons_of_neg (by simp [hc])

theorem place_of_head {c : Char} (hc : isBlank c = false) (q : Location) (cs : List Char) :
    place q (c :: cs) = q.next c := by
  rw [place, takeWhile_of_head hc, dropWhile_of_head hc]
  rfl

theorem next_ofLast_of_head {c : Char} (hc : isBlank c = false) (done : List Char) :
    (Location.ofLast done).next c = .ofNext done := by
  apply Location.next_ofLast
  rintro rfl
  cases hc

theorem Lexes.lexeme {w : List Char} {kind : Token.Kind} (h : Writes w kind) (fits : kind.Fits)
    {rest : List Char} (hrest : Ends kind rest) {done : List Char} {ts : List Token}
    {e : Option LexError} (tail : Lexes (.ofLast (done ++ w)) rest ts e) :
    Lexes (.ofLast done) (w ++ rest) (⟨kind, .ofNext done⟩ :: ts) e := by
  have hread := read_of_writes h hrest
  rw [token?_of_fits fits] at hread
  have hkind : kind ≠ .eof := by
    rintro rfl
    cases h
  obtain ⟨c, cs, rfl, hc⟩ := h.head_noBlank
  have hdrop := dropWhile_of_head hc (cs ++ rest)
  have htake := takeWhile_of_head hc (cs ++ rest)
  have hstart : read ((c :: cs ++ rest).dropWhile isBlank) = ⟨(c :: cs).length, .ok kind⟩ := by
    rw [List.cons_append, hdrop]
    exact hread
  have htoken := @Lexes.token (.ofLast done) _ _ _ ts e hstart hkind
  rw [List.cons_append, place_of_head hc, next_ofLast_of_head hc, htake, hdrop,
    ← List.cons_append, List.take_left, List.drop_left, Location.after_nil,
    Location.after_ofLast] at htoken
  exact htoken tail

theorem Lexes.stop_of_head {c : Char} (hc : isBlank c = false) {cs : List Char}
    {cause : LexError.Cause} (h : (read (c :: cs)).outcome = .error cause) (done : List Char) :
    Lexes (.ofLast done) (c :: cs) [] (some ⟨cause, .ofNext done⟩) := by
  rw [← next_ofLast_of_head hc, ← place_of_head hc _ cs]
  refine .stop (n := (read (c :: cs)).used) ?_
  rw [dropWhile_of_head hc, ← h]

/-- A text is lexed as it is cut. -/
theorem Lexes.of_cuts {done cs : List Char} {ts : List Token} {e : Option LexError}
    (h : Cuts done cs ts e) : Lexes (.ofLast done) cs ts e := by
  induction h with
  | @finish done blanks blank =>
    rw [← List.append_nil blanks]
    apply Lexes.blanks blank
    rw [List.append_nil, Location.after_ofLast]
    exact .finish rfl
  | @lexeme done blanks w rest kind ts e blank munch fits tail ih =>
    apply Lexes.blanks blank
    rw [Location.after_ofLast]
    exact Lexes.lexeme munch.writes fits (ends_of_munch munch) ih
  | @tooLarge done blanks w rest value blank munch large =>
    apply Lexes.blanks blank
    rw [Location.after_ofLast]
    have hread := read_of_munch munch
    obtain ⟨c, cs, rfl, hc⟩ := munch.writes.head_noBlank
    have houtcome := congrArg Reading.outcome hread
    rw [token?, if_neg (Nat.not_le_of_lt large)] at houtcome
    exact Lexes.stop_of_head hc houtcome _
  | @malformed done blanks rest cause blank _ malformed =>
    apply Lexes.blanks blank
    rw [Location.after_ofLast]
    have houtcome := outcome_of_malformed malformed
    obtain ⟨c, cs, rfl, hc⟩ := malformed.head_noBlank
    exact Lexes.stop_of_head hc houtcome _

end Scanner

open Lexeme

/-- Every text can be cut. -/
theorem exists_cuts (done cs : List Char) : ∃ ts e, Cuts done cs ts e := by
  obtain ⟨blanks, rest, hcs, hblanks, hrest⟩ := takeWhile_split isBlank cs
  cases rest with
  | nil =>
    rw [hcs, List.append_nil]
    exact ⟨_, _, .finish hblanks⟩
  | cons c rest =>
    rcases writes_or_malformed (hrest c rfl) rest with
      ⟨w, rest', kind, hw, hwrites, hends⟩ | ⟨cause, hcause⟩
    · have munch := munch_of_writes hwrites hends
      rw [hw] at hcs
      by_cases hfits : kind.Fits
      · have hpos : 0 < w.length := by
          obtain ⟨d, ds, rfl, -⟩ := hwrites.head_noBlank
          simp
        have hshorter : rest'.length < cs.length := by
          have hlength := congrArg List.length hcs
          simp only [List.length_append] at hlength
          omega
        obtain ⟨ts, e, htail⟩ := exists_cuts (done ++ blanks ++ w) rest'
        rw [hcs]
        exact ⟨_, _, .lexeme hblanks munch hfits htail⟩
      · rw [hcs]
        cases kind with
        | integer value => exact ⟨_, _, .tooLarge hblanks munch (Nat.lt_of_not_le hfits)⟩
        | opening | closing | symbol | text | eof => exact absurd trivial hfits
    · have hnone (w : List Char) (kind : Token.Kind) (hw : w <+: c :: rest) : ¬ Writes w kind :=
        not_writes_of_malformed hcause hw kind
      rw [hcs]
      exact ⟨_, _, .malformed hblanks hnone hcause⟩
termination_by cs.length

theorem tokenize_of_cuts {text : String} {ts : List Token} {e : Option LexError}
    (h : Cuts [] text.toList ts e) : tokenize text = (ts, e) := by
  rw [tokenize_eq_iff]
  exact Scanner.Lexes.of_cuts h

theorem cuts_tokenize (text : String) :
    Cuts [] text.toList (tokenize text).1 (tokenize text).2 := by
  obtain ⟨ts, e, h⟩ := exists_cuts [] text.toList
  rw [tokenize_of_cuts h]
  exact h

/-- The scanner cuts a text by maximal munch, and there is no other way to cut it so. -/
theorem tokenize_iff_cuts (text : String) (ts : List Token) (e : Option LexError) :
    tokenize text = (ts, e) ↔ Cuts [] text.toList ts e := by
  constructor
  · intro h
    have hcuts := cuts_tokenize text
    rwa [h] at hcuts
  · exact tokenize_of_cuts

/-- Lexemes need no blank between them. -/
example : (tokenize "12abc\"d\"").1.map Token.kind =
    [.integer 12, .symbol "abc", .text "d", .eof] := by
  decide +kernel

end SmallLisp

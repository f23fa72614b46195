import SmallLisp.Proofs.Munch
import SmallLisp.Proofs.TypedLines

/-!
# Commands and symbols

The name of a command ends where no letter, digit or underscore follows, but a symbol goes on behind
a hyphen. So a typed line of program text is taken for a command if its first token is a symbol that
is the name of one up to its first hyphen, and it is run in all other cases.
-/
namespace SmallLisp

open SmallLisp.Lexeme SmallLisp.Parser

/-! ## The first token of a text -/

namespace Lexeme

/-- The characters that a lexeme may start with. -/
def startsLexeme (c : Char) : Bool :=
  isLetter c || isDigit c || c == '(' || c == ')' || c == '"'

theorem Writes.startsLexeme {w : List Char} {kind : Token.Kind} (h : Writes w kind) :
    ∃ c cs, w = c :: cs ∧ startsLexeme c = true := by
  cases h with
  | opening | closing | text => exact ⟨_, _, rfl, rfl⟩
  | symbol letter => exact ⟨_, _, rfl, by simp [Lexeme.startsLexeme, letter]⟩
  | @integer c cs digits =>
    exact ⟨c, cs, rfl, by simp [Lexeme.startsLexeme, digits c List.mem_cons_self]⟩

end Lexeme

/-- What is cut to its end has no underscore in front, which starts no lexeme. -/
theorem Cuts.head_ne_underscore {done cs : List Char} {ts : List Token} {e : Option LexError}
    (h : Cuts done cs ts e) (he : e = none) : cs.head? ≠ some '_' := by
  have hblanks {bs rest : List Char} (hbs : ∀ b ∈ bs, isBlank b = true)
      (hrest : rest.head? ≠ some '_') : (bs ++ rest).head? ≠ some '_' := by
    cases bs with
    | nil => exact hrest
    | cons b bs =>
      intro hb
      obtain rfl : b = '_' := Option.some.inj hb
      cases hbs '_' List.mem_cons_self
  cases h with
  | finish blank =>
    rw [← List.append_nil cs]
    exact hblanks blank (by simp)
  | @lexeme _ blanks w rest kind ts e blank munch fits tail =>
    apply hblanks blank
    obtain ⟨c, cs, rfl, hc⟩ := munch.writes.startsLexeme
    intro hunder
    obtain rfl := Option.some.inj hunder
    cases hc
  | tooLarge | malformed => cases he

theorem exists_first_token {text : String} {p : Program} (h : parse text = .ok p)
    (hp : p.exprs ≠ []) : ∃ t ts, tokenize text = (t :: ts, none) ∧ t.kind ≠ .eof := by
  obtain ⟨us, last, htokens, -, hus, hread⟩ := exists_reading_of_parse h
  cases us with
  | nil =>
    have hnone : p.exprs = [] := (congrArg Progress.finished (Except.ok.inj hread)).symm
    exact absurd hnone hp
  | cons t us => exact ⟨t, us ++ [last], htokens, hus t List.mem_cons_self⟩

/-- A text without a blank in front starts with its first token. -/
theorem Cuts.starts {done cs : List Char} {t : Token} {ts : List Token} {e : Option LexError}
    (h : Cuts done cs (t :: ts) e) (ht : t.kind ≠ .eof)
    (hcs : ∀ c ∈ cs.head?, isBlank c = false) :
    ∃ w rest, cs = w ++ rest ∧ Writes w t.kind ∧ Ends t.kind rest ∧ ∃ done', Cuts done' rest ts e := by
  cases h with
  | finish => exact absurd rfl ht
  | @lexeme _ blanks w rest kind ts e blank munch fits tail =>
    obtain rfl : blanks = [] := by
      cases blanks with
      | nil => rfl
      | cons b bs =>
        have hb := hcs b rfl
        rw [blank b List.mem_cons_self] at hb
        cases hb
    exact ⟨w, rest, rfl, munch.writes, ends_of_munch munch, _, tail⟩

namespace Blank

theorem isBlank_of_lexeme {c : Char} (h : Lexeme.isBlank c = true) : isBlank c = true := by
  simp only [Lexeme.isBlank, Bool.or_eq_true, beq_iff_eq] at h
  rcases h with ((rfl | rfl) | rfl) | rfl <;> rfl

theorem head_strip (line : List Char) : ∀ c ∈ (strip line).head?, isBlank c = false := by
  intro c hc
  have hprefix : strip line <+: line.dropWhile isBlank := by
    have hsuffix := List.dropWhile_suffix (l := (line.dropWhile isBlank).reverse) isBlank
    rw [← List.reverse_prefix, List.reverse_reverse] at hsuffix
    exact hsuffix
  obtain ⟨more, hmore⟩ := hprefix
  have hhead : (line.dropWhile isBlank).head? = some c := by
    rw [← hmore, List.head?_append, Option.mem_def.mp hc]
    rfl
  have hnot := List.head?_dropWhile_not isBlank line
  rw [hhead] at hnot
  simpa using hnot

end Blank

namespace Prompt

/-! ## The word that a line starts with -/

theorem isCommandChar_iff {c : Char} :
    isCommandChar c = true ↔ isLetter c = true ∨ isDigit c = true ∨ c = '_' := by
  have halphanum : c.isAlphanum = (c.isUpper || c.isLower || isDigit c) := rfl
  have hupper : c.isUpper = decide ('A' ≤ c ∧ c ≤ 'Z') := rfl
  have hlower : c.isLower = (decide ('a' ≤ c) && decide (c ≤ 'z')) := rfl
  simp only [isCommandChar, halphanum, hupper, hlower, isLetter, Bool.or_eq_true,
    Bool.and_eq_true, decide_eq_true_eq, beq_iff_eq]
  tauto

theorem isCommandChar_of_isSymbolChar {c : Char} (h : isSymbolChar c = true) :
    isCommandChar c = true ↔ c ≠ '-' := by
  rw [isCommandChar_iff]
  simp only [isSymbolChar, Bool.or_eq_true, beq_iff_eq] at h
  constructor
  · rintro hc rfl
    rcases hc with hc | hc | hc
    · cases hc
    · cases hc
    · cases hc
  · intro hc
    rcases h with (h | h) | h
    · exact .inl h
    · exact .inr (.inl h)
    · exact absurd h hc

theorem not_isCommandChar_of_ends {name : String} {rest : List Char}
    (h : Ends (.symbol name) rest) (hunder : rest.head? ≠ some '_') :
    ∀ c ∈ rest.head?, isCommandChar c = false := by
  intro c hc
  have hsymbol := h c hc
  simp only [isSymbolChar, Bool.or_eq_false_iff] at hsymbol
  by_contra hcommand
  rcases isCommandChar_iff.mp (by simpa using hcommand) with hletter | hdigit | rfl
  · rw [hsymbol.1.1] at hletter
    cases hletter
  · rw [hsymbol.1.2] at hdigit
    cases hdigit
  · exact hunder hc

/-- A symbol up to its first hyphen. -/
def stem (name : String) : String := String.ofList (name.toList.takeWhile (· ≠ '-'))

theorem takeWhile_isCommandChar {cs rest : List Char} (hcs : ∀ c ∈ cs, isSymbolChar c = true)
    (hrest : ∀ c ∈ rest.head?, isCommandChar c = false) :
    (cs ++ rest).takeWhile isCommandChar = cs.takeWhile (· ≠ '-') := by
  induction cs with
  | nil =>
    cases rest with
    | nil => rfl
    | cons c rest => exact List.takeWhile_cons_of_neg (by simp [hrest c rfl])
  | cons c cs ih =>
    have hc := isCommandChar_of_isSymbolChar (hcs c List.mem_cons_self)
    have hrec := ih fun d hd => hcs d (List.mem_cons_of_mem c hd)
    by_cases hhyphen : c = '-'
    · rw [List.cons_append, List.takeWhile_cons_of_neg (by simpa [hc] using hhyphen),
        List.takeWhile_cons_of_neg (by simpa using hhyphen)]
    · rw [List.cons_append, List.takeWhile_cons_of_pos (hc.mpr hhyphen),
        List.takeWhile_cons_of_pos (by simpa using hhyphen), hrec]

namespace Entry

def commands : List String := "help" :: quits

/-- Whether a line is taken for a command that starts with a token of this kind. -/
def Captures (kind : Token.Kind) : Prop := ∃ name, kind = .symbol name ∧ stem name ∈ commands

instance : DecidablePred Captures := fun kind =>
  match kind with
  | .symbol name => decidable_of_iff (stem name ∈ commands) (by simp [Captures])
  | .opening | .closing | .integer _ | .text _ | .eof => isFalse (by simp [Captures])

theorem starts_with_token {line : String} {t : Token} {ts : List Token}
    (h : tokenize (stripped line) = (t :: ts, none)) (ht : t.kind ≠ .eof) :
    ∃ w rest, Blank.strip line.toList = w ++ rest ∧ Writes w t.kind ∧ Ends t.kind rest ∧
      rest.head? ≠ some '_' := by
  have hcuts := cuts_tokenize (stripped line)
  rw [h, stripped, String.toList_ofList] at hcuts
  have hhead : ∀ c ∈ (Blank.strip line.toList).head?, Lexeme.isBlank c = false := by
    intro c hc
    by_contra hblank
    have hnot := Blank.head_strip line.toList c hc
    rw [Blank.isBlank_of_lexeme (by simpa using hblank)] at hnot
    cases hnot
  obtain ⟨w, rest, hline, hwrites, hends, done, htail⟩ := hcuts.starts ht hhead
  exact ⟨w, rest, hline, hwrites, hends, htail.head_ne_underscore rfl⟩

/-- The word of a line is that of its first token, if that is a symbol, and else no command. -/
theorem word_mem_iff {line : String} {t : Token} {ts : List Token}
    (h : tokenize (stripped line) = (t :: ts, none)) (ht : t.kind ≠ .eof) :
    word line ∈ commands ↔ Captures t.kind := by
  obtain ⟨w, rest, hline, hwrites, hends, hunder⟩ := starts_with_token h ht
  rw [word, hline]
  generalize t.kind = kind at hwrites hends
  cases hwrites with
  | opening | closing | text => simp [Captures, commands, quits, isCommandChar]
  | @symbol c cs letter hcs =>
    have hname : ∀ d ∈ c :: cs, isSymbolChar d = true :=
      List.forall_mem_cons.mpr ⟨by simp [isSymbolChar, letter], hcs⟩
    rw [takeWhile_isCommandChar hname (not_isCommandChar_of_ends hends hunder)]
    simp [Captures, stem]
  | @integer c cs digits =>
    have hc := digits c List.mem_cons_self
    have hcommand : isCommandChar c = true := isCommandChar_iff.mpr (.inr (.inl hc))
    rw [List.cons_append, List.takeWhile_cons_of_pos hcommand]
    simp only [Captures, reduceCtorEq, false_and, exists_false, iff_false]
    intro hmem
    have hdigits : ∀ name ∈ commands, name.toList.head?.any isDigit = false := by decide
    have hnot := hdigits _ hmem
    rw [String.toList_ofList, List.head?_cons, Option.any_some, hc] at hnot
    cases hnot

/-- The first token of a line decides whether the line is program text. -/
theorem isCode_iff {line : String} {t : Token} {ts : List Token}
    (h : tokenize (stripped line) = (t :: ts, none)) (ht : t.kind ≠ .eof) :
    IsCode line ↔ ¬ Captures t.kind := by
  obtain ⟨w, rest, hline, hwrites, -⟩ := starts_with_token h ht
  have hstart : Blank.strip line.toList ≠ [] ∧ (Blank.strip line.toList).head? ≠ some '?' := by
    rw [hline]
    obtain ⟨c, cs, rfl, hc⟩ := hwrites.startsLexeme
    refine ⟨List.cons_ne_nil _ _, fun hmark => ?_⟩
    obtain rfl := Option.some.inj hmark
    cases hc
  rw [← word_mem_iff h ht, commands, List.mem_cons, not_or]
  exact ⟨fun hcode => hcode.2.2, fun hword => ⟨hstart.1, hstart.2, hword⟩⟩

theorem ofLine_help {line : String} (h : word line = "help") : ofLine line = .help := by
  rw [word] at h
  rw [ofLine]
  split
  · rename_i hnil
    rw [hnil] at h
    exact absurd h (by decide)
  · rfl
  · rw [h]
    rfl

end Entry

variable {η : Type} [Host η]

theorem enter_printed (q : Prompt η) (line : String) : (q.enter line).printed = "" := by
  cases hopen : (Balance.of (join q.pending line)).isOpen with
  | true => rw [enter_open hopen]
  | false => rw [enter_settles hopen]

/-- A line that is taken for a command quits or prints the help, which no program text does. -/
theorem type_command (q : Prompt η) {line : String} (h : Entry.word line ∈ Entry.commands) :
    ((q.type line).answer = .ok .stop ∨ (q.type line).printed = helpText ++ "\n") ∧
      ∀ text, q.type line ≠ q.enter text := by
  rcases List.mem_cons.mp h with hhelp | hquits
  · have hprinted : (q.type line).printed = helpText ++ "\n" := by
      rw [type, Entry.ofLine_help hhelp]
    refine ⟨.inr hprinted, fun text hsame => ?_⟩
    rw [hsame, enter_printed] at hprinted
    exact absurd hprinted (by decide)
  · have hstop := (q.type_stops_iff line).mpr hquits
    exact ⟨.inl hstop, fun text hsame => q.enter_answer text (hsame ▸ hstop)⟩

end Prompt

/-- A typed line that parses to a program with an expression in it is taken for a command exactly if
its first token is a symbol that is the name of a command up to its first hyphen. Then nothing is
run: the prompt stays as it is, and it quits or prints the help. Any other such line is run as the
text it is without the blanks at its ends. -/
theorem typed_text_is_run [Host η] (q : Prompt η) {line : String} {p : Program}
    (hpending : q.pending = "") (hparse : parse (Prompt.Entry.stripped line) = .ok p)
    (hp : p.exprs ≠ []) :
    ∃ t ts, tokenize (Prompt.Entry.stripped line) = (t :: ts, none) ∧ t.kind ≠ .eof ∧
      if Prompt.Entry.Captures t.kind then
        (q.type line).prompt = q ∧ (q.type line).reported = "" ∧
          ((q.type line).answer = .ok .stop ∨ (q.type line).printed = Prompt.helpText ++ "\n") ∧
          q.type line ≠ q.enter (Prompt.Entry.stripped line)
      else
        q.type line = q.enter (Prompt.Entry.stripped line) ∧
          let settled :=
            Interpreter.settle (q.interpreter.runText (Prompt.Entry.stripped line))
          q.type line = ⟨settled.result.map fun _ => .goOn, ⟨settled.interpreter, ""⟩,
            settled.printed, ""⟩ := by
  obtain ⟨t, ts, htokens, ht⟩ := exists_first_token hparse hp
  refine ⟨t, ts, htokens, ht, ?_⟩
  by_cases hcaptured : Prompt.Entry.Captures t.kind
  · rw [if_pos hcaptured]
    have hcode : ¬ Prompt.Entry.IsCode line :=
      fun h => (Prompt.Entry.isCode_iff htokens ht).mp h hcaptured
    obtain ⟨hsame, hsilent⟩ := q.type_noCode hcode
    have hword := (Prompt.Entry.word_mem_iff htokens ht).mpr hcaptured
    obtain ⟨hdone, hne⟩ := q.type_command hword
    exact ⟨hsame, hsilent, hdone, hne _⟩
  · rw [if_neg hcaptured]
    have hrun := q.type_code ((Prompt.Entry.isCode_iff htokens ht).mpr hcaptured)
    have htext : Prompt.join q.pending (Prompt.Entry.stripped line) =
        Prompt.Entry.stripped line := if_pos hpending
    have hclosed := not_isOpen_of_parse hparse
    rw [← htext] at hclosed
    refine ⟨hrun, ?_⟩
    rw [hrun, Prompt.enter_settles hclosed, htext]

/-- A symbol with the name of a command behind a hyphen, in front of a call and between blanks. -/
theorem typed_text_is_run_hyphen :
    let i : Interpreter Empty := .create ⟨false, false, []⟩ "<in>" true false
    let q : Prompt Empty := ((Prompt.start i).type "(define my-help 1)").prompt
    q.pending = "" ∧ (∃ p, parse "my-help (debug my-help)" = .ok p ∧ p.exprs ≠ []) ∧
      q.type "\tmy-help (debug my-help) " = q.enter "my-help (debug my-help)" := by
  intro i q
  have hpending : q.pending = "" := by decide +kernel
  have hstripped : Prompt.Entry.stripped "\tmy-help (debug my-help) " =
      "my-help (debug my-help)" := by decide +kernel
  obtain ⟨p, hp⟩ : ∃ p, parse "my-help (debug my-help)" = .ok p ∧ p.exprs ≠ [] := by
    have hall : (parse "my-help (debug my-help)").toOption.any (·.exprs ≠ []) = true := by
      decide +kernel
    cases hparse : parse "my-help (debug my-help)" with
    | error e =>
      rw [hparse] at hall
      cases hall
    | ok p =>
      rw [hparse] at hall
      exact ⟨p, rfl, by simpa [Except.toOption] using hall⟩
  refine ⟨hpending, ⟨p, hp⟩, ?_⟩
  have hparse : parse (Prompt.Entry.stripped "\tmy-help (debug my-help) ") = .ok p := by
    rw [hstripped]
    exact hp.1
  obtain ⟨t, ts, htokens, -, hrun⟩ := typed_text_is_run q hpending hparse hp.2
  have hfree : ¬ Prompt.Entry.Captures t.kind := by
    have hkind : (tokenize "my-help (debug my-help)").1.head?.map Token.kind =
        some (.symbol "my-help") := by decide +kernel
    rw [← hstripped, htokens] at hkind
    rw [show t.kind = .symbol "my-help" from Option.some.inj hkind]
    decide
  rw [if_neg hfree, hstripped] at hrun
  exact hrun.1

/-- A defined name that goes on behind the name of a command and a hyphen quits or prints the help
when it is typed, and is run when it is entered. -/
theorem typed_text_not_run :
    let i : Interpreter Empty := .create ⟨false, false, []⟩ "<in>" true false
    let q : Prompt Empty := ((Prompt.start i).type "(define exit-code 3)").prompt
    let q' : Prompt Empty := (q.type "(define help-me 4)").prompt
    (q'.pending = "" ∧ q'.interpreter.programs.length = 2) ∧
      ((q'.type "exit-code").answer = .ok .stop ∧
        (q'.type "exit-code").prompt.interpreter.programs.length = 2 ∧
        (q'.enter "exit-code").answer = .ok .goOn ∧
        (q'.enter "exit-code").prompt.interpreter.programs.length = 3) ∧
      (q'.type "help-me").printed = Prompt.helpText ++ "\n" ∧
        (q'.type "help-me").prompt.interpreter.programs.length = 2 ∧
        (q'.enter "help-me").printed = "" ∧
        (q'.enter "help-me").prompt.interpreter.programs.length = 3 := by
  intro i q q'
  refine ⟨⟨?_, ?_⟩, ⟨?_, ?_, ?_, ?_⟩, ?_, ?_, ?_, ?_⟩
  all_goals decide +kernel

end SmallLisp

import Mathlib.Tactic.SplitIfs
import SmallLisp.Token.Scanner

/-!
# Lexing as a judgment

A scanner that has passed a place and has the characters `cs` ahead hands out a definite list of
tokens. The judgment `Lexes` derives that list one token at a time, so that facts about whole texts
are inductions over it.
-/
namespace SmallLisp

namespace Lexeme

theorem takeWhile_blank_append (cs : List Char) :
    cs.takeWhile isBlank ++ cs.dropWhile isBlank = cs := List.takeWhile_append_dropWhile

theorem blank_take_drop (n : Nat) (cs : List Char) :
    cs.takeWhile isBlank ++ ((cs.dropWhile isBlank).take n ++ (cs.dropWhile isBlank).drop n) =
      cs := by
  rw [List.take_append_drop, takeWhile_blank_append]

theorem isBlank_of_mem_takeWhile {cs : List Char} {c : Char} (h : c ∈ cs.takeWhile isBlank) :
    isBlank c = true := by
  exact List.all_eq_true.mp List.all_takeWhile c h

theorem Reading.cons_ok {r : Reading (List Char)} {k n : Nat} {c : Char} {contents : List Char}
    (h : r.cons k c = ⟨n, .ok contents⟩) :
    ∃ m ds, r = ⟨m, .ok ds⟩ ∧ n = k + m ∧ contents = c :: ds := by
  rcases r with ⟨m, cause | ds⟩
  · cases h
  · cases h
    exact ⟨m, ds, rfl, rfl, rfl⟩

theorem Reading.cons_error {r : Reading (List Char)} {k n : Nat} {c : Char}
    {cause : LexError.Cause} (h : r.cons k c = ⟨n, .error cause⟩) :
    ∃ m, r = ⟨m, .error cause⟩ ∧ n = k + m := by
  rcases r with ⟨m, cause' | ds⟩
  · cases h
    exact ⟨m, rfl, rfl⟩
  · cases h

theorem ne_backslash {c : Char} {cs : List Char} (hend : c = '\\' → cs = [] → False)
    (hescape : ∀ d ds, c = '\\' → cs = d :: ds → False) : c ≠ '\\' := by
  intro hc
  cases cs with
  | nil => exact hend hc rfl
  | cons d ds => exact hescape d ds hc rfl

/-- The six kinds of characters by what starts with them. -/
inductive Start (c : Char) : Prop
  | opening (h : c = '(')
  | closing (h : c = ')')
  | letter (h : isLetter c = true)
  | digit (h : isDigit c = true)
  | quote (h : c = '"')
  | other (hopening : c ≠ '(') (hclosing : c ≠ ')') (hletter : isLetter c = false)
      (hdigit : isDigit c = false) (hquote : c ≠ '"')

theorem start_of (c : Char) : Start c := by
  by_cases hopening : c = '('
  · exact .opening hopening
  by_cases hclosing : c = ')'
  · exact .closing hclosing
  by_cases hletter : isLetter c = true
  · exact .letter hletter
  by_cases hdigit : isDigit c = true
  · exact .digit hdigit
  by_cases hquote : c = '"'
  · exact .quote hquote
  · exact .other hopening hclosing (Bool.eq_false_iff.mpr hletter) (Bool.eq_false_iff.mpr hdigit)
      hquote

theorem not_letter_of_isDigit {c : Char} (h : isDigit c = true) : isLetter c = false := by
  simp only [isDigit, isLetter, Bool.and_eq_true, decide_eq_true_eq, Bool.or_eq_false_iff,
    Bool.and_eq_false_iff, decide_eq_false_iff_not, Char.le_def, UInt32.le_iff_toNat_le] at h ⊢
  have hnine : ('9' : Char).val.toNat < ('A' : Char).val.toNat := by decide
  have hnine' : ('9' : Char).val.toNat < ('a' : Char).val.toNat := by decide
  omega

theorem ne_of_isLetter {c : Char} (h : isLetter c = true) : c ≠ '(' ∧ c ≠ ')' ∧ c ≠ '"' := by
  refine ⟨?_, ?_, ?_⟩ <;> rintro rfl <;> exact absurd h (by decide)

theorem ne_of_isDigit {c : Char} (h : isDigit c = true) : c ≠ '(' ∧ c ≠ ')' ∧ c ≠ '"' := by
  refine ⟨?_, ?_, ?_⟩ <;> rintro rfl <;> exact absurd h (by decide)

theorem read_letter {c : Char} (h : isLetter c = true) (cs : List Char) :
    read (c :: cs) = ⟨(c :: cs.takeWhile isSymbolChar).length,
      .ok (.symbol (String.ofList (c :: cs.takeWhile isSymbolChar)))⟩ := by
  obtain ⟨hopening, hclosing, -⟩ := ne_of_isLetter h
  rw [read, if_neg hopening, if_neg hclosing, if_pos h]

theorem read_digit {c : Char} (h : isDigit c = true) (cs : List Char) :
    read (c :: cs) = ⟨(c :: cs.takeWhile isDigit).length,
      match integer? (c :: cs.takeWhile isDigit) with
      | some value => .ok (.integer value)
      | none => .error .integerTooLarge⟩ := by
  obtain ⟨hopening, hclosing, -⟩ := ne_of_isDigit h
  have hletter : ¬ isLetter c = true := by
    rw [not_letter_of_isDigit h]
    exact Bool.false_ne_true
  calc
    read (c :: cs) = _ := (if_neg hopening).trans ((if_neg hclosing).trans (if_neg hletter))
    _ = _ := if_pos h

theorem read_quote (cs : List Char) :
    read ('"' :: cs) = ⟨1 + (readText cs).used,
      (readText cs).outcome.map fun contents => .text (String.ofList contents)⟩ := rfl

theorem read_other {c : Char} (hopening : c ≠ '(') (hclosing : c ≠ ')')
    (hletter : isLetter c = false) (hdigit : isDigit c = false) (hquote : c ≠ '"')
    (cs : List Char) : read (c :: cs) = ⟨0, .error (.unexpectedCharacter c)⟩ := by
  rw [read, if_neg hopening, if_neg hclosing, if_neg (by rw [hletter]; exact Bool.false_ne_true),
    if_neg (by rw [hdigit]; exact Bool.false_ne_true), if_neg hquote]

/-- What can be read from a text: every lexeme and every malformed one. -/
inductive Reads : List Char → Reading Token.Kind → Prop
  | eof : Reads [] ⟨0, .ok .eof⟩
  | opening (cs) : Reads ('(' :: cs) ⟨1, .ok .opening⟩
  | closing (cs) : Reads (')' :: cs) ⟨1, .ok .closing⟩
  | symbol {c} (letter : isLetter c = true) (cs) :
      Reads (c :: cs) ⟨(c :: cs.takeWhile isSymbolChar).length,
        .ok (.symbol (String.ofList (c :: cs.takeWhile isSymbolChar)))⟩
  | integer {c cs value} (digit : isDigit c = true)
      (fits : integer? (c :: cs.takeWhile isDigit) = some value) :
      Reads (c :: cs) ⟨(c :: cs.takeWhile isDigit).length, .ok (.integer value)⟩
  | tooLarge {c cs} (digit : isDigit c = true)
      (exceeds : integer? (c :: cs.takeWhile isDigit) = none) :
      Reads (c :: cs) ⟨(c :: cs.takeWhile isDigit).length, .error .integerTooLarge⟩
  | text {cs n contents} (body : readText cs = ⟨n, .ok contents⟩) :
      Reads ('"' :: cs) ⟨1 + n, .ok (.text (String.ofList contents))⟩
  | malformed {cs n cause} (body : readText cs = ⟨n, .error cause⟩) :
      Reads ('"' :: cs) ⟨1 + n, .error cause⟩
  | other {c} (hopening : c ≠ '(') (hclosing : c ≠ ')') (hletter : isLetter c = false)
      (hdigit : isDigit c = false) (hquote : c ≠ '"') (cs) :
      Reads (c :: cs) ⟨0, .error (.unexpectedCharacter c)⟩

theorem reads (cs : List Char) : Reads cs (read cs) := by
  cases cs with
  | nil => exact .eof
  | cons c cs =>
    cases start_of c with
    | opening hc =>
      subst hc
      exact .opening cs
    | closing hc =>
      subst hc
      exact .closing cs
    | letter hc =>
      rw [read_letter hc]
      exact .symbol hc cs
    | digit hc =>
      rw [read_digit hc]
      rcases hi : integer? (c :: cs.takeWhile isDigit) with - | value
      · exact .tooLarge hc hi
      · exact .integer hc hi
    | quote hc =>
      subst hc
      rw [read_quote]
      rcases hr : readText cs with ⟨n, cause | contents⟩
      · exact .malformed hr
      · exact .text hr
    | other hopening hclosing hletter hdigit hquote =>
      rw [read_other hopening hclosing hletter hdigit hquote]
      exact .other hopening hclosing hletter hdigit hquote cs

theorem reads_of_eq {cs : List Char} {r : Reading Token.Kind} (h : read cs = r) : Reads cs r := by
  rw [← h]
  exact reads cs

theorem read_eof {cs : List Char} {n : Nat} (h : read cs = ⟨n, .ok .eof⟩) : cs = [] := by
  cases reads_of_eq h with
  | eof => rfl

end Lexeme

namespace Scanner

open Lexeme

/-- The scanner that has moved onto the character behind the one at `q`. -/
def behind (q : Location) (cs : List Char) : Scanner := reading cs (q.after (cs.take 1))

/-- The place of the first character of `cs` that is not a blank, or of the last one. -/
def place (q : Location) (cs : List Char) : Location :=
  (q.after (cs.takeWhile isBlank)).after ((cs.dropWhile isBlank).take 1)

theorem advance_fresh (cs : List Char) : (fresh cs).advance = behind .start cs := by
  cases cs <;> rfl

theorem advance_behind (q : Location) (cs : List Char) :
    (behind q cs).advance = behind (q.after (cs.take 1)) (cs.drop 1) := by
  match cs with
  | [] | [_] | _ :: _ :: _ => rfl

theorem advanceBy_behind (n : Nat) (q : Location) (cs : List Char) :
    advanceBy n (behind q cs) = behind (q.after (cs.take n)) (cs.drop n) := by
  induction n generalizing q cs with
  | zero => rfl
  | succ n ih =>
    rw [advanceBy, advance_behind, ih, ← Location.after_append, List.drop_drop]
    congr 2
    · rw [Nat.add_comm n 1, List.take_add]
    · rw [Nat.add_comm]

@[simp] theorem ahead_behind (q : Location) (cs : List Char) : (behind q cs).ahead = cs := rfl

theorem skipBlanks_behind (q : Location) (cs : List Char) :
    (behind q cs).skipBlanks = behind (q.after (cs.takeWhile isBlank)) (cs.dropWhile isBlank) := by
  have htake := List.prefix_iff_eq_take.mp (List.takeWhile_prefix (l := cs) isBlank)
  have hdrop : (cs.takeWhile isBlank ++ cs.dropWhile isBlank).drop (cs.takeWhile isBlank).length =
      cs.dropWhile isBlank := List.drop_left
  rw [takeWhile_blank_append] at hdrop
  rw [skipBlanks, ahead_behind, advanceBy_behind, ← htake, hdrop]

theorem next_of_read_ok {q : Location} {cs : List Char} {n : Nat} {kind : Token.Kind}
    (h : read (cs.dropWhile isBlank) = ⟨n, .ok kind⟩) :
    (behind q cs).next = (.ok ⟨kind, place q cs⟩,
      behind ((q.after (cs.takeWhile isBlank)).after ((cs.dropWhile isBlank).take n))
        ((cs.dropWhile isBlank).drop n)) := by
  simp only [next, skipBlanks_behind, lexeme, ahead_behind, h, advanceBy_behind]
  rfl

theorem next_of_read_error {q : Location} {cs : List Char} {n : Nat} {cause : LexError.Cause}
    (h : read (cs.dropWhile isBlank) = ⟨n, .error cause⟩) :
    (behind q cs).next.1 = .error ⟨cause, place q cs⟩ := by
  simp only [next, skipBlanks_behind, lexeme, ahead_behind, h]
  rfl

theorem tokens_eq (s : Scanner) :
    s.tokens =
      match s.next.1 with
      | .error e => ([], some e)
      | .ok t =>
        if t.kind = .eof then ([t], none) else (t :: s.next.2.tokens.1, s.next.2.tokens.2) := by
  rw [tokens]
  split
  · rename_i e h
    rw [h]
  · rename_i t h
    by_cases ht : t.kind = .eof
    · rw [dif_pos ht]
      simp only [h, if_pos ht]
    · rw [dif_neg ht]
      simp only [h, if_neg ht]

theorem tokens_of_error {s : Scanner} {e : LexError} (h : s.next.1 = .error e) :
    s.tokens = ([], some e) := by
  rw [tokens_eq, h]

theorem tokens_of_eof {s : Scanner} {t : Token} (h : s.next.1 = .ok t) (ht : t.kind = .eof) :
    s.tokens = ([t], none) := by
  simp only [tokens_eq s, h, if_pos ht]

theorem tokens_of_token {s : Scanner} {t : Token} (h : s.next.1 = .ok t) (ht : t.kind ≠ .eof) :
    s.tokens = (t :: s.next.2.tokens.1, s.next.2.tokens.2) := by
  rw [tokens_eq s, h]
  exact if_neg ht

/-- A scanner that has passed `q` and has `cs` ahead hands out the tokens `ts`, and is stopped by
`e` if that is an error. -/
inductive Lexes : Location → List Char → List Token → Option LexError → Prop
  | finish {q cs} (blank : cs.dropWhile isBlank = []) : Lexes q cs [⟨.eof, place q cs⟩] none
  | stop {q cs n cause} (h : read (cs.dropWhile isBlank) = ⟨n, .error cause⟩) :
      Lexes q cs [] (some ⟨cause, place q cs⟩)
  | token {q cs n kind ts e} (h : read (cs.dropWhile isBlank) = ⟨n, .ok kind⟩) (hk : kind ≠ .eof)
      (tail : Lexes ((q.after (cs.takeWhile isBlank)).after ((cs.dropWhile isBlank).take n))
        ((cs.dropWhile isBlank).drop n) ts e) :
      Lexes q cs (⟨kind, place q cs⟩ :: ts) e

theorem lexes_tokens (s : Scanner) {q : Location} {cs : List Char} (hs : s = behind q cs) :
    Lexes q cs s.tokens.1 s.tokens.2 := by
  induction s using Scanner.tokens.induct generalizing q cs with
  | case1 s e h =>
    rw [tokens_of_error h]
    subst hs
    rcases hr : read (cs.dropWhile isBlank) with ⟨n, cause | kind⟩
    · rw [next_of_read_error hr] at h
      cases h
      exact .stop hr
    · rw [next_of_read_ok hr] at h
      cases h
  | case2 s t h ht =>
    rw [tokens_of_eof h ht]
    subst hs
    rcases hr : read (cs.dropWhile isBlank) with ⟨n, cause | kind⟩
    · rw [next_of_read_error hr] at h
      cases h
    · rw [next_of_read_ok hr] at h
      cases h
      obtain rfl : kind = .eof := ht
      exact .finish (read_eof hr)
  | case3 s t h ht hlt _ _ _ ih =>
    rw [tokens_of_token h ht]
    subst hs
    rcases hr : read (cs.dropWhile isBlank) with ⟨n, cause | kind⟩
    · rw [next_of_read_error hr] at h
      cases h
    · have hnext := next_of_read_ok (q := q) hr
      rw [hnext] at h
      cases h
      exact .token hr ht (ih (by rw [hnext]))

theorem Lexes.tokens_eq {q : Location} {cs : List Char} {ts : List Token} {e : Option LexError}
    (h : Lexes q cs ts e) : (behind q cs).tokens = (ts, e) := by
  induction h with
  | @finish q cs blank =>
    have hr : read (cs.dropWhile isBlank) = ⟨0, .ok .eof⟩ := by rw [blank, Lexeme.read]
    rw [tokens_of_eof (by rw [next_of_read_ok hr]) rfl]
  | stop h => rw [tokens_of_error (next_of_read_error h)]
  | @token q cs n kind ts e h hk tail ih =>
    have hnext := next_of_read_ok (q := q) h
    rw [tokens_of_token (by rw [hnext]) hk, hnext, ih]

/-- The judgment derives what the scanner hands out, and nothing else. -/
theorem lexes_iff {q : Location} {cs : List Char} {ts : List Token} {e : Option LexError} :
    Lexes q cs ts e ↔ (behind q cs).tokens = (ts, e) := by
  refine ⟨Lexes.tokens_eq, fun h => ?_⟩
  have hl := lexes_tokens (behind q cs) rfl
  rwa [h] at hl

/-- The end comes last, and only where no error comes before it. -/
theorem Lexes.eof_last {q : Location} {cs : List Char} {ts : List Token} {e : Option LexError}
    (h : Lexes q cs ts e) : ∃ us, (∀ t ∈ us, t.kind ≠ .eof) ∧
      ((∃ p, ts = us ++ [⟨.eof, p⟩] ∧ e = none) ∨ ts = us ∧ e.isSome) := by
  induction h with
  | finish => exact ⟨[], by simp, .inl ⟨_, rfl, rfl⟩⟩
  | stop h => exact ⟨[], by simp, .inr ⟨rfl, rfl⟩⟩
  | @token q cs n kind ts e h hk tail ih =>
    obtain ⟨us, hus, hend⟩ := ih
    refine ⟨⟨kind, place q cs⟩ :: us, ?_, ?_⟩
    · intro t ht
      rcases List.mem_cons.mp ht with rfl | ht
      · exact hk
      · exact hus t ht
    · rcases hend with ⟨p, rfl, rfl⟩ | ⟨rfl, he⟩
      · exact .inl ⟨p, rfl, rfl⟩
      · exact .inr ⟨rfl, he⟩

end Scanner

theorem tokenize_eq_iff {text : String} {ts : List Token} {e : Option LexError} :
    tokenize text = (ts, e) ↔ Scanner.Lexes .start text.toList ts e := by
  rw [tokenize, Scanner.advance_fresh, Scanner.lexes_iff]

end SmallLisp

import Mathlib.Data.Nat.Digits.Defs
import SmallLisp.Proofs.Positions

/-!
# Runs of digits

Wherever a scanner stands, a run of digits ahead is taken as a whole. It is the integer that its
digits say, however many there are and however many of them are leading zeros, or it is refused
because that integer is too large; more than ten digits are never converted.
-/
namespace SmallLisp

open SmallLisp.Lexeme

namespace Lexeme

/-- The number that some digits say: each counts as often as its place says. -/
def decimal (ds : List Char) : Nat :=
  Nat.ofDigits 10 (ds.reverse.map fun d => d.toNat - '0'.toNat)

theorem decimal_eq (ds : List Char) : decimal ds = Nat.ofDigitChars 10 ds 0 := by
  induction ds with
  | nil => rfl
  | cons d ds ih =>
    calc
      decimal (d :: ds) = decimal ds + 10 ^ ds.length * (d.toNat - '0'.toNat) := by
        simp [decimal, Nat.ofDigits_append]
      _ = 10 ^ ds.length * (d.toNat - '0'.toNat) + Nat.ofDigitChars 10 ds 0 := by
        rw [ih, Nat.add_comm]
      _ = Nat.ofDigitChars 10 (d :: ds) 0 := by
        rw [Nat.ofDigitChars_cons, Nat.mul_zero, Nat.zero_add,
          ← Nat.ofDigitChars_eq_ofDigitChars_zero]

theorem decimal_dropWhile_zero (ds : List Char) :
    decimal (ds.dropWhile (· == '0')) = decimal ds := by
  rw [decimal_eq, decimal_eq, ofDigitChars_dropWhile_zero]

/-! ## Conversion -/

/-- The digits that are converted: a run without its leading zeros, of which one is left if there is
nothing else. -/
def significant (ds : List Char) : List Char :=
  match ds.dropWhile (· == '0') with
  | [] => ['0']
  | d :: sig => d :: sig

/-- The integer of a run of digits, if it is at most `maxInteger`, by a conversion that may fail. A
run that has too many digits is not converted. -/
def integerBy (convert : List Char → Option Nat) (ds : List Char) : Option (Option Nat) :=
  if (significant ds).length ≤ 10 then
    (convert (significant ds)).map fun value => if value ≤ maxInteger then some value else none
  else some none

/-- Whether a conversion is right for one to ten digits. It may do anything with others. -/
def ConvertsShort (convert : List Char → Option Nat) : Prop :=
  ∀ ds, 0 < ds.length → ds.length ≤ 10 → (∀ d ∈ ds, isDigit d = true) →
    convert ds = some (decimal ds)

theorem length_significant_pos (ds : List Char) : 0 < (significant ds).length := by
  rw [significant]
  split
  · exact Nat.zero_lt_one
  · exact Nat.succ_pos _

theorem isDigit_significant {ds : List Char} (h : ∀ d ∈ ds, isDigit d = true) :
    ∀ d ∈ significant ds, isDigit d = true := by
  rw [significant]
  split
  · exact List.forall_mem_singleton.mpr rfl
  · rename_i d sig hsig
    intro c hc
    rw [← hsig] at hc
    exact h c ((List.dropWhile_suffix _).subset hc)

theorem decimal_significant (ds : List Char) : decimal (significant ds) = decimal ds := by
  rw [← decimal_dropWhile_zero ds, significant]
  split
  · rename_i hsig
    rw [hsig]
    rfl
  · rename_i d sig hsig
    rw [hsig]

theorem length_significant_le_iff (ds : List Char) :
    (significant ds).length ≤ 10 ↔ (ds.dropWhile (· == '0')).length ≤ 10 := by
  rw [significant]
  split
  · rename_i hsig
    simp [hsig]
  · rename_i d sig hsig
    rw [hsig]

/-- The integer of a run does not depend on how more than ten digits would be converted. -/
theorem integerBy_eq {convert : List Char → Option Nat} (h : ConvertsShort convert)
    {ds : List Char} (hds : ∀ d ∈ ds, isDigit d = true) :
    integerBy convert ds = some (integer? ds) := by
  have hvalue : Nat.ofDigitChars 10 (ds.dropWhile (· == '0')) 0 = decimal (significant ds) := by
    rw [decimal_significant, ← decimal_dropWhile_zero, decimal_eq]
  rw [integerBy, integer?, hvalue]
  by_cases hshort : (significant ds).length ≤ 10
  · have hconvert := h _ (length_significant_pos ds) hshort (isDigit_significant hds)
    rw [if_pos hshort, if_pos ((length_significant_le_iff ds).mp hshort), hconvert]
    rfl
  · rw [if_neg hshort, if_neg (mt (length_significant_le_iff ds).mpr hshort)]

end Lexeme

/-! ## Scanning -/

namespace Scanner

/-- An outcome of reading at the place `p` as an answer. -/
def placed (p : Location) : Except LexError.Cause Token.Kind → Except LexError Token
  | .ok kind => .ok ⟨kind, p⟩
  | .error cause => .error ⟨cause, p⟩

/-- A lexeme behind some blanks, of which all is used up. -/
theorem next_behind {blanks w rest : List Char} (hblanks : ∀ b ∈ blanks, isBlank b = true)
    (hw : ∀ c ∈ (w ++ rest).head?, isBlank c = false) (hne : w ≠ [])
    {outcome : Except LexError.Cause Token.Kind} (hread : read (w ++ rest) = ⟨w.length, outcome⟩)
    (done : List Char) :
    (behind (.ofLast done) (blanks ++ (w ++ rest))).next =
      (placed (.ofNext (done ++ blanks)) outcome, behind (.ofLast (done ++ blanks ++ w)) rest) := by
  have htake := takeWhile_append_of_head hblanks hw
  have hdrop : (blanks ++ (w ++ rest)).dropWhile isBlank = w ++ rest := by
    have hsplit := takeWhile_blank_append (blanks ++ (w ++ rest))
    rwa [htake, List.append_cancel_left_eq] at hsplit
  have hplace : (behind (.ofLast (done ++ blanks)) (w ++ rest)).location =
      .ofNext (done ++ blanks) := by
    obtain ⟨c, cs, rfl⟩ := List.exists_cons_of_ne_nil hne
    exact next_ofLast_of_head (hw c rfl) _
  rw [next, skipBlanks_behind, htake, hdrop, Location.after_ofLast, lexeme, ahead_behind, hread,
    hplace, advanceBy_behind, List.take_left, List.drop_left, Location.after_ofLast]
  cases outcome with
  | ok kind => rfl
  | error cause => rfl

theorem next_digits {blanks ds rest : List Char} (hblanks : ∀ b ∈ blanks, isBlank b = true)
    (hne : ds ≠ []) (hds : ∀ d ∈ ds, isDigit d = true)
    (hrest : ∀ c ∈ rest.head?, isDigit c = false) (done : List Char) :
    (behind (.ofLast done) (blanks ++ (ds ++ rest))).next =
      (placed (.ofNext (done ++ blanks)) (token? (.integer (decimal ds))),
        behind (.ofLast (done ++ blanks ++ ds)) rest) := by
  obtain ⟨d, ds, rfl⟩ := List.exists_cons_of_ne_nil hne
  have hwrites : Writes (d :: ds) (.integer (decimal (d :: ds))) := by
    rw [decimal_eq]
    exact .integer hds
  have hhead : ∀ c ∈ (d :: ds ++ rest).head?, isBlank c = false := by
    obtain ⟨c, cs, hcs, hc⟩ := hwrites.head_noBlank
    obtain ⟨rfl, -⟩ := List.cons.inj hcs
    simpa using hc
  exact next_behind hblanks hhead hne (read_of_writes hwrites hrest) done

end Scanner

open Scanner in
/-- A run of digits is never cut, wrapped or refused without need. Whatever a scanner was asked for
before, if a run of digits is ahead, perhaps behind some blanks, it takes all of the run and stands
behind it. The answer has the place of the first digit: the integer that the digits say if that is
less than `2 ^ 31`, and an error otherwise. No more than ten digits are converted for that. -/
theorem digits_are_exact (text : String) (calls : List Scanner.Call) (call : Scanner.Call)
    (blanks ds rest : List Char)
    (ahead : (advanceBy call.moves ((fresh text.toList).answers calls).2).ahead =
      blanks ++ (ds ++ rest))
    (hblanks : ∀ b ∈ blanks, isBlank b = true) (hne : ds ≠ [])
    (hds : ∀ d ∈ ds, isDigit d = true) (hrest : ∀ c ∈ rest.head?, isDigit c = false) :
    let answer := ((fresh text.toList).answers calls).2.answer call
    (∃ done, text.toList = done ++ (ds ++ rest) ∧
      answer.1 = (if decimal ds ≤ 2 ^ 31 - 1 then .ok ⟨.integer (decimal ds), .ofNext done⟩
        else .error ⟨.integerTooLarge, .ofNext done⟩) ∧
      answer.2 = behind (.ofLast (done ++ ds)) rest ∧ answer.2.ahead = rest) ∧
    ∀ convert, ConvertsShort convert → integerBy convert ds = some (integer? ds) := by
  intro answer
  obtain ⟨moves, hserves⟩ := exists_serves 0 text.toList calls
  have hmoved : ((fresh text.toList).answers calls).2 = advanceBy moves (fresh text.toList) :=
    hserves.moved
  have hlooking : advanceBy call.moves ((fresh text.toList).answers calls).2 =
      advanceBy (moves + call.moves) (fresh text.toList) := by
    rw [hmoved, advanceBy_add]
  rw [hlooking] at ahead
  have hanswer : answer = (advanceBy (moves + call.moves) (fresh text.toList)).next := by
    rw [← hlooking, ← answer_eq_next]
  -- A scanner that has not moved has nothing ahead.
  obtain ⟨n, hn⟩ : ∃ n, moves + call.moves = n + 1 := by
    refine Nat.exists_eq_succ_of_ne_zero ?_
    intro hzero
    rw [ahead_moved, if_pos hzero] at ahead
    simp [hne] at ahead
  rw [hn, advanceBy_fresh, ahead_behind] at ahead
  rw [hn, advanceBy_fresh, ahead, next_digits hblanks hne hds hrest] at hanswer
  refine ⟨⟨text.toList.take n ++ blanks, ?_, ?_, ?_, ?_⟩, fun convert h => integerBy_eq h hds⟩
  · rw [List.append_assoc, ← ahead, List.take_append_drop]
  · have hmax : 2 ^ 31 - 1 = maxInteger := by decide
    rw [hanswer, token?, hmax]
    split_ifs
    · rfl
    · rfl
  · rw [hanswer]
  · rw [hanswer, ahead_behind]

open Scanner in
/-- A run of the least value that is refused, with zeros in front and a letter behind it. -/
theorem digits_are_exact_zeros :
    let ds := "0002147483648".toList
    let answer := ((fresh "( 0002147483648x".toList).answers [.start]).2.answer .next
    decimal ds = 2 ^ 31 ∧ answer.1 = .error ⟨.integerTooLarge, ⟨2, 1, 3⟩⟩ ∧
      answer.2.ahead = ['x'] ∧ integerBy (fun ds => some (decimal ds)) ds = some none := by
  intro ds answer
  have hds : ∀ d ∈ ds, isDigit d = true := List.all_eq_true.mp (by decide)
  have hblanks : ∀ b ∈ [' '], isBlank b = true := List.forall_mem_singleton.mpr rfl
  have hrest : ∀ c ∈ ['x'].head?, isDigit c = false := by
    rintro c ⟨⟩
    rfl
  obtain ⟨⟨done, hdone, hanswer, -, hahead⟩, hconvert⟩ :=
    digits_are_exact "( 0002147483648x" [.start] .next [' '] ds ['x'] (by decide +kernel)
      hblanks (by decide) hds hrest
  have htext : "( 0002147483648x".toList = ['(', ' '] ++ (ds ++ ['x']) := by decide +kernel
  obtain rfl := List.append_cancel_right (htext.symm.trans hdone)
  have hvalue : decimal ds = 2 ^ 31 := by decide +kernel
  refine ⟨hvalue, ?_, hahead, ?_⟩
  · rw [hvalue, if_neg (by decide)] at hanswer
    exact hanswer
  · rw [hconvert _ fun _ _ _ _ => rfl]
    decide +kernel

end SmallLisp

import SmallLisp.Proofs.Munch

/-!
# Rows and columns

The row of a place picks a line of the text and its column a character of that line, the same one
that its offset picks. What is taken off the end of a line before it is quoted is blank, so no
lexeme loses its first character.
-/
namespace SmallLisp

open SmallLisp.Lexeme

namespace Lines

theorem split_append_newline (done rest : List Char) :
    split (done ++ '\n' :: rest) = split done ++ split rest := by
  induction done with
  | nil => simp [split]
  | cons c done ih =>
    rw [List.cons_append, split, split, ih]
    by_cases hc : c = '\n'
    · simp [hc]
    · obtain ⟨line, lines, hlines⟩ := List.exists_cons_of_ne_nil (split_ne_nil done)
      simp [hc, hlines]

theorem head?_split (cs : List Char) : (split cs).head? = some (cs.takeWhile (· ≠ '\n')) := by
  induction cs with
  | nil => rfl
  | cons c cs ih =>
    by_cases hc : c = '\n'
    · simp [split, hc]
    · obtain ⟨line, lines, hlines⟩ := List.exists_cons_of_ne_nil (split_ne_nil cs)
      rw [hlines, List.head?_cons, Option.some.injEq] at ih
      simp [split, hc, hlines, ih]

/-- What the characters `done` have of the line that they end in. -/
def current (done : List Char) : List Char := (done.reverse.takeWhile (· ≠ '\n')).reverse

/-- The line that goes on behind `done`. -/
theorem getElem?_split (done rest : List Char) :
    (split (done ++ rest))[done.count '\n']? =
      some (current done ++ rest.takeWhile (· ≠ '\n')) := by
  -- From the end, since the last character of `done` tells whether the line starts anew.
  induction done using List.reverseRecOn generalizing rest with
  | nil =>
    rw [List.nil_append, List.count_nil, ← List.head?_eq_getElem?, head?_split]
    rfl
  | append_singleton done c ih =>
    rw [List.append_assoc, List.singleton_append]
    by_cases hc : c = '\n'
    · subst hc
      have hcurrent : current (done ++ ['\n']) = [] := by simp [current]
      have hcount : (done ++ ['\n']).count '\n' = (split done).length := by simp [length_split]
      rw [split_append_newline, hcount, hcurrent, List.getElem?_append_right (Nat.le_refl _),
        Nat.sub_self, ← List.head?_eq_getElem?, head?_split]
      rfl
    · have hcurrent : current (done ++ [c]) = current done ++ [c] := by simp [current, hc]
      have hcount : (done ++ [c]).count '\n' = done.count '\n' := by simp [hc]
      rw [hcount, hcurrent, ih]
      simp [hc]

theorem trimEnd_append_cons {c : Char} (hc : c ≠ '\r') (us vs : List Char) :
    trimEnd (us ++ c :: vs) = us ++ c :: trimEnd vs := by
  have hstop : (c :: us.reverse).dropWhile (· == '\r') = c :: us.reverse :=
    List.dropWhile_cons_of_neg (by simpa using hc)
  have hreverse : (us ++ c :: vs).reverse = vs.reverse ++ c :: us.reverse := by simp
  rw [trimEnd, hreverse, List.dropWhile_append, hstop]
  by_cases hvs : (vs.reverse.dropWhile (· == '\r')).isEmpty = true
  · have hnil : vs.reverse.dropWhile (· == '\r') = [] := List.isEmpty_iff.mp hvs
    simp [trimEnd, hnil]
  · rw [if_neg hvs, trimEnd]
    simp

end Lines

namespace Location

/-- Whether the place `p` of a text is that of the character `c`: it has its offset, and the line of
its row has `c` in its column, also when carriage returns are taken off the end. -/
structure Marks (p : Location) (cs : List Char) (c : Char) : Prop where
  offset : 0 ≤ p.offset ∧ cs[p.offset.toNat]? = some c
  row : 1 ≤ p.row ∧ p.row ≤ (Lines.split cs).length
  col : 1 ≤ p.col
  column : ∀ line, (Lines.split cs)[(p.row - 1).toNat]? = some line →
    (Lines.trimEnd line)[(p.col - 1).toNat]? = some c

theorem row_ofLast (cs : List Char) :
    1 ≤ (ofLast cs).row ∧ (ofLast cs).row ≤ (Lines.split cs).length := by
  simp only [Lines.length_split, ofLast]
  omega

theorem marks_ofNext {c : Char} (hc : isBlank c = false) (done rest : List Char) :
    (ofNext done).Marks (done ++ c :: rest) c := by
  have hne : c ≠ '\n' ∧ c ≠ '\r' := by
    constructor
    · rintro rfl
      cases hc
    · rintro rfl
      cases hc
  have hcount : done.count '\n' ≤ (done ++ c :: rest).count '\n' := by simp
  have hline := Lines.getElem?_split done (c :: rest)
  refine ⟨?_, ?_, ?_, ?_⟩
  · simp [ofNext]
  · simp only [Lines.length_split, ofNext]
    omega
  · simp only [ofNext]
    omega
  · intro line hrow
    have hcol : ((ofNext done).col - 1).toNat = (Lines.current done).length := by
      simp [ofNext, Lines.current]
    simp only [ofNext, Int.add_sub_cancel, Int.toNat_natCast, hline, Option.some.injEq] at hrow
    rw [hcol, ← hrow, List.takeWhile_cons_of_pos (by simpa using hne.1),
      Lines.trimEnd_append_cons hne.2]
    simp

end Location

/-! ## Places of tokens -/

namespace Lexeme

/-- Why no token can be taken where `cs` follows. -/
inductive Faulty : List Char → LexError.Cause → Prop
  | malformed {cs cause} (malformed : Malformed cs cause) : Faulty cs cause
  | tooLarge {cs w value} (munch : Munch cs w (.integer value)) (large : maxInteger < value) :
      Faulty cs .integerTooLarge

theorem Munch.head_noBlank {cs w : List Char} {kind : Token.Kind} (h : Munch cs w kind) :
    ∃ c rest, cs = c :: rest ∧ isBlank c = false := by
  obtain ⟨rest, rfl⟩ := h.starts
  obtain ⟨c, w', rfl, hc⟩ := h.writes.head_noBlank
  exact ⟨c, w' ++ rest, rfl, hc⟩

theorem Faulty.head_noBlank {cs : List Char} {cause : LexError.Cause} (h : Faulty cs cause) :
    ∃ c rest, cs = c :: rest ∧ isBlank c = false := by
  cases h with
  | malformed malformed => exact malformed.head_noBlank
  | tooLarge munch => exact munch.head_noBlank

end Lexeme

/-- The end has the place of the last character, any other token that of its first one. -/
theorem Cuts.place_of_mem {done cs : List Char} {ts : List Token} {e : Option LexError}
    (h : Cuts done cs ts e) : ∀ t ∈ ts,
      (t.kind = .eof ∧ t.location = .ofLast (done ++ cs)) ∨
        ∃ us vs w, done ++ cs = us ++ vs ∧ t.location = .ofNext us ∧ Munch vs w t.kind := by
  induction h with
  | finish => simp
  | @lexeme done blanks w rest kind ts e blank munch fits tail ih =>
    simp only [List.append_assoc] at ih ⊢
    refine List.forall_mem_cons.mpr ⟨.inr ⟨done ++ blanks, w ++ rest, w, ?_, rfl, munch⟩, ih⟩
    rw [List.append_assoc]
  | tooLarge | malformed => exact List.forall_mem_nil _

theorem Cuts.place_of_error {done cs : List Char} {ts : List Token} {e : LexError}
    (h : Cuts done cs ts (some e)) :
    ∃ us vs, done ++ cs = us ++ vs ∧ e.location = .ofNext us ∧ Faulty vs e.cause := by
  generalize hstop : some e = stop at h
  induction h with
  | finish => cases hstop
  | lexeme _ _ _ _ ih =>
    simpa only [List.append_assoc] using ih hstop
  | @tooLarge done blanks w rest value _ munch large =>
    cases hstop
    exact ⟨done ++ blanks, w ++ rest, (List.append_assoc ..).symm, rfl, .tooLarge munch large⟩
  | @malformed done blanks rest cause _ _ malformed =>
    cases hstop
    exact ⟨done ++ blanks, rest, (List.append_assoc ..).symm, rfl, .malformed malformed⟩

end SmallLisp

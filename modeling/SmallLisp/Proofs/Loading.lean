import Mathlib.Order.Bounds.Basic
import SmallLisp.Interpreter

/-!
# Loading a file

A file that holds the encoding of a text is loaded as that text, with line feeds for all its line
ends. Any other file is refused at the byte where its longest encoded part ends. A text runs the
same whichever line ends it was saved with.
-/
namespace SmallLisp

/-! ## Encoded texts -/

namespace Utf8

/-- Whether the bytes from `i` up to `n` encode the text `cs`. -/
structure Spells (bytes : ByteArray) (i n : Nat) (cs : List Char) : Prop where
  ordered : i ≤ n
  inside : n ≤ bytes.size
  extract : bytes.extract i n = cs.utf8Encode

variable {bytes : ByteArray} {i n k : Nat} {cs ds : List Char}

theorem spells_nil (h : n ≤ bytes.size) : Spells bytes n n [] := by
  refine ⟨Nat.le_refl n, h, ?_⟩
  simp

theorem spells_char {c : Char} (h : bytes.utf8DecodeChar? i = some c) :
    Spells bytes i (i + c.utf8Size) [c] := by
  have hinside := ByteArray.le_size_of_utf8DecodeChar?_eq_some h
  refine ⟨Nat.le_add_right _ _, hinside, ?_⟩
  rw [ByteArray.utf8DecodeChar?_eq_utf8DecodeChar?_extract] at h
  obtain ⟨rest, hrest⟩ := ByteArray.exists_of_utf8DecodeChar?_eq_some h
  have hsize : c.utf8Size = (String.utf8EncodeChar c).toByteArray.size := by simp
  calc bytes.extract i (i + c.utf8Size)
      = (bytes.extract i bytes.size).extract 0 c.utf8Size := by
        simp [ByteArray.extract_extract, Nat.min_eq_left hinside]
    _ = [c].utf8Encode := by
        rw [hrest, ByteArray.extract_append_eq_left hsize, List.utf8Encode_singleton]

theorem Spells.append (h : Spells bytes i n cs) (h' : Spells bytes n k ds) :
    Spells bytes i k (cs ++ ds) := by
  refine ⟨h.ordered.trans h'.ordered, h'.inside, ?_⟩
  rw [ByteArray.extract_eq_extract_append_extract n h.ordered h'.ordered, h.extract, h'.extract,
    List.utf8Encode_append]

/-- One encoding goes on from another that starts at the same byte. -/
theorem Spells.exists_append (h : Spells bytes i n cs) (h' : Spells bytes i k ds) (hle : n ≤ k) :
    ∃ es, ds = cs ++ es ∧ Spells bytes n k es := by
  have hsplit := ByteArray.extract_eq_extract_append_extract (a := bytes) n h.ordered hle
  rw [h.extract, h'.extract] at hsplit
  obtain ⟨es, rfl⟩ := List.isPrefix_of_utf8Encode_append_eq_utf8Encode _ hsplit.symm
  refine ⟨es, rfl, hle, h'.inside, ?_⟩
  rw [List.utf8Encode_append, ByteArray.append_right_inj] at hsplit
  exact hsplit.symm

theorem Spells.exists_char (h : Spells bytes n k cs) (hlt : n < k) :
    ∃ c, bytes.utf8DecodeChar? n = some c := by
  cases cs with
  | nil =>
    have hsize := congrArg ByteArray.size h.extract
    have hinside := h.inside
    simp only [ByteArray.size_extract, List.utf8Encode_nil, ByteArray.size_empty] at hsize
    omega
  | cons c cs =>
    have hfirst : (bytes.extract n k).utf8DecodeChar? 0 = some c := by
      rw [h.extract, List.utf8DecodeChar?_utf8Encode_cons]
    have hrest := ByteArray.utf8DecodeChar?_append_eq_some hfirst (bytes.extract k bytes.size)
    rw [← ByteArray.extract_eq_extract_append_extract k h.ordered h.inside,
      ← ByteArray.utf8DecodeChar?_eq_utf8DecodeChar?_extract] at hrest
    exact ⟨c, hrest⟩

/-- Decoding ends with the bytes or before the first of them that starts no character. -/
theorem decodeFrom_cases (bytes : ByteArray) (hi : i ≤ bytes.size) :
    (∃ cs, decodeFrom bytes i = .ok cs ∧ Spells bytes i bytes.size cs) ∨
      ∃ n cs, decodeFrom bytes i = .error n ∧ Spells bytes i n cs ∧ n < bytes.size ∧
        bytes.utf8DecodeChar? n = none := by
  fun_induction decodeFrom bytes i with
  | case1 i hlt hnone => exact .inr ⟨i, [], rfl, spells_nil hi, hlt, hnone⟩
  | case2 i hlt c hchar hsize ih =>
    have hspells := spells_char hchar
    rcases ih hspells.inside with ⟨cs, hdecode, hcs⟩ | ⟨n, cs, hdecode, hcs, hn⟩
    · refine .inl ⟨c :: cs, ?_, hspells.append hcs⟩
      rw [hdecode]
      rfl
    · refine .inr ⟨n, c :: cs, ?_, hspells.append hcs, hn⟩
      rw [hdecode]
      rfl
  | case3 i hge =>
    obtain rfl := Nat.le_antisymm hi (Nat.le_of_not_lt hge)
    exact .inl ⟨[], rfl, spells_nil hi⟩

/-- An encoding that ends where no character can be decoded is the longest one. -/
theorem Spells.isGreatest (h : Spells bytes 0 n cs) (hnone : bytes.utf8DecodeChar? n = none) :
    IsGreatest {k | ∃ ds, Spells bytes 0 k ds} n := by
  refine ⟨⟨cs, h⟩, ?_⟩
  rintro k ⟨ds, hds⟩
  by_contra hlt
  rw [Nat.not_le] at hlt
  obtain ⟨es, -, hes⟩ := h.exists_append hds hlt.le
  obtain ⟨c, hc⟩ := hes.exists_char hlt
  simp [hnone] at hc

theorem spells_size_iff : Spells bytes 0 bytes.size cs ↔ bytes = cs.utf8Encode := by
  constructor
  · intro h
    rw [← h.extract, ByteArray.extract_zero_size]
  · intro h
    exact ⟨Nat.zero_le _, Nat.le_refl _, ByteArray.extract_zero_size.trans h⟩

theorem decode_utf8Encode (cs : List Char) : decode cs.utf8Encode = .ok cs := by
  have hall : Spells cs.utf8Encode 0 cs.utf8Encode.size cs := spells_size_iff.mpr rfl
  rcases decodeFrom_cases cs.utf8Encode (Nat.zero_le _) with h | h
  · obtain ⟨ds, hdecode, hds⟩ := h
    obtain ⟨es, rfl, hes⟩ := hall.exists_append hds (Nat.le_refl _)
    have hnil : es.utf8Encode = ByteArray.empty := by simp [← hes.extract]
    rw [decode, hdecode, List.utf8Encode_eq_empty.mp hnil, List.append_nil]
  · obtain ⟨n, ds, -, hds, hlt, hnone⟩ := h
    exact absurd ((hds.isGreatest hnone).2 ⟨cs, hall⟩) (Nat.not_le.mpr hlt)

theorem decode_malformed (h : ∀ cs : List Char, bytes ≠ cs.utf8Encode) :
    ∃ n, decode bytes = .error n ∧ IsGreatest {k | ∃ cs, Spells bytes 0 k cs} n := by
  rcases decodeFrom_cases bytes (Nat.zero_le _) with h' | h'
  · obtain ⟨cs, -, hcs⟩ := h'
    exact absurd (spells_size_iff.mp hcs) (h cs)
  · obtain ⟨n, cs, hdecode, hcs, -, hnone⟩ := h'
    exact ⟨n, hdecode, hcs.isGreatest hnone⟩

end Utf8

/-! ## Line ends -/

namespace Lines

/-- Whether a text becomes another by taking one line feed for each carriage return, together with
the line feed behind it if there is one. -/
inductive Folds : List Char → List Char → Prop where
  | nil : Folds [] []
  | pair {cs ds} (h : Folds cs ds) : Folds ('\r' :: '\n' :: cs) ('\n' :: ds)
  | lone {cs ds} (hnext : cs.head? ≠ some '\n') (h : Folds cs ds) :
    Folds ('\r' :: cs) ('\n' :: ds)
  | other {c cs ds} (hc : c ≠ '\r') (h : Folds cs ds) : Folds (c :: cs) (c :: ds)

theorem folds_unify (cs : List Char) : Folds cs (unify cs) := by
  fun_induction unify cs with
  | case1 => exact .nil
  | case2 cs ih => exact .pair ih
  | case3 cs hnext ih =>
    refine .lone ?_ ih
    cases cs with
    | nil => simp
    | cons c cs => simpa using fun h => hnext cs (by rw [h])
  | case4 c cs hpair hlone ih => exact .other (fun h => hlone h) ih

theorem Folds.eq_unify {cs ds : List Char} (h : Folds cs ds) : ds = unify cs := by
  induction h with
  | nil => rfl
  | pair h ih => rw [unify, ih]
  | lone hnext h ih =>
    rw [unify, ih]
    rintro cs rfl
    simp at hnext
  | other hc h ih =>
    rw [unify, ih]
    · rintro cs rfl
      simp at hc
    · exact hc

/-- How each line of a saved text ends. -/
inductive Ending where
  | lineFeed
  | both
  | carriageReturn

def Ending.chars : Ending → List Char
  | lineFeed => ['\n']
  | both => ['\r', '\n']
  | carriageReturn => ['\r']

/-- A text as it is saved. -/
def Ending.save (e : Ending) (cs : List Char) : List Char :=
  cs.flatMap fun c => if c = '\n' then e.chars else [c]

theorem head?_save (cs : List Char) : (Ending.carriageReturn.save cs).head? ≠ some '\n' := by
  cases cs with
  | nil => simp [Ending.save]
  | cons c cs => by_cases h : c = '\n' <;> simp [Ending.save, Ending.chars, h]

/-- A text without carriage returns is had back from what was saved. -/
theorem folds_save (e : Ending) {cs : List Char} (h : '\r' ∉ cs) : Folds (e.save cs) cs := by
  induction cs with
  | nil => exact .nil
  | cons c cs ih =>
    rw [List.mem_cons, not_or] at h
    have hrest := ih h.2
    by_cases hfeed : c = '\n'
    · subst hfeed
      cases e with
      | lineFeed => exact .other (by decide) hrest
      | both => exact .pair hrest
      | carriageReturn => exact .lone (head?_save cs) hrest
    · have hsave : e.save (c :: cs) = c :: e.save cs := by simp [Ending.save, hfeed]
      rw [hsave]
      exact .other (Ne.symm h.1) hrest

end Lines

namespace Interpreter

variable {η : Type} {i : Interpreter η} {files : Files}

/-- The interpreter once it has noted that a text was loaded. -/
def loaded (i : Interpreter η) (cs : List Char) : Interpreter η :=
  i.note ("loaded '" ++ i.path ++ "' (" ++ toString cs.length ++ " characters)")

theorem load_utf8Encode {cs ds : List Char} (h : files i.path = .ok cs.utf8Encode)
    (hfolds : Lines.Folds cs ds) : i.load files = (.ok (String.ofList ds), i.loaded ds) := by
  have htext : textOf i.path cs.utf8Encode = .ok (String.ofList ds) := by
    simp [textOf, Utf8.decode_utf8Encode, hfolds.eq_unify]
  simp [load, h, htext, loaded]

theorem load_malformed {bytes : ByteArray} {n : Nat} (h : files i.path = .ok bytes)
    (hdecode : Utf8.decode bytes = .error n) :
    i.load files = (.error (.general
      ("'" ++ i.path ++ "' is not valid UTF-8 (byte " ++ toString n ++ ")")), i) := by
  have htext : textOf i.path bytes = .error (.general
      ("'" ++ i.path ++ "' is not valid UTF-8 (byte " ++ toString n ++ ")")) := by
    simp [textOf, hdecode]
  simp [load, h, htext]

end Interpreter

open Lines Utf8 in
/-- Loading undoes encoding and makes all line ends line feeds, and it names the byte up to which a
malformed file is encoded. So it makes no difference to a run which line ends a text was saved
with. -/
theorem loading_undoes_encoding {η : Type} [Host η] (i : Interpreter η) (files : Files)
    {bytes : ByteArray} (h : files i.path = .ok bytes) :
    (∀ cs : List Char, bytes = cs.utf8Encode →
      ∃ ds, Folds cs ds ∧ i.load files = (.ok (String.ofList ds), i.loaded ds)) ∧
    ((∀ cs : List Char, bytes ≠ cs.utf8Encode) →
      ∃ n, IsGreatest {k | ∃ cs, Spells bytes 0 k cs} n ∧
        i.load files = (.error (.general
          ("'" ++ i.path ++ "' is not valid UTF-8 (byte " ++ toString n ++ ")")), i)) ∧
    ∀ (cs : List Char) (e : Ending), '\r' ∉ cs → bytes = (e.save cs).utf8Encode →
      i.runFile files = (i.loaded cs).runText (String.ofList cs) ∧
      ∀ (e' : Ending) (files' : Files), files' i.path = .ok (e'.save cs).utf8Encode →
        i.runFile files' = i.runFile files := by
  refine ⟨?_, ?_, ?_⟩
  · rintro cs rfl
    exact ⟨unify cs, folds_unify cs, i.load_utf8Encode h (folds_unify cs)⟩
  · intro hmalformed
    obtain ⟨n, hdecode, hgreatest⟩ := decode_malformed hmalformed
    exact ⟨n, hgreatest, i.load_malformed h hdecode⟩
  · rintro cs e hcs rfl
    have hrun (e : Ending) {files : Files} (h : files i.path = .ok (e.save cs).utf8Encode) :
        i.runFile files = (i.loaded cs).runText (String.ofList cs) := by
      simp only [Interpreter.runFile, i.load_utf8Encode h (folds_save e hcs)]
    refine ⟨hrun e h, fun e' files' h' => ?_⟩
    rw [hrun e' h', hrun e h]

open Lines Utf8 in
/-- A byte order mark is kept, a lone carriage return stands before a pair, and the encoding of the
last character is cut off. -/
theorem loading_undoes_encoding_mixed :
    let i : Interpreter Empty := .create ⟨true, false, []⟩ "a" false true
    let holding (bytes : ByteArray) : Files := fun _ => .ok bytes
    let cut : ByteArray := ⟨#[0x61, 0xE2, 0x82]⟩
    i.load (holding "\uFEFFa\r\r\n".toList.utf8Encode) =
      (.ok "\uFEFFa\n\n", i.loaded "\uFEFFa\n\n".toList) ∧
    (∀ cs : List Char, cut ≠ cs.utf8Encode) ∧
    i.load (holding cut) = (.error (.general "'a' is not valid UTF-8 (byte 1)"), i) ∧
    '\r' ∉ "(f\n\n1)\n".toList ∧
    i.runFile (holding "(f\r\r1)\r".toList.utf8Encode) =
      i.runFile (holding "(f\r\n\r\n1)\r\n".toList.utf8Encode) := by
  intro i holding cut
  have hcut : Spells cut 0 1 ['a'] := ⟨by decide, by decide, by decide⟩
  have hgreatest := hcut.isGreatest (by decide)
  have hmalformed (cs : List Char) : cut ≠ cs.utf8Encode := by
    intro h
    have hle : cut.size ≤ 1 := hgreatest.2 ⟨cs, spells_size_iff.mpr h⟩
    exact absurd hle (by decide)
  refine ⟨?_, hmalformed, ?_, by decide, ?_⟩
  · obtain ⟨ds, hfolds, hload⟩ :=
      (loading_undoes_encoding i (holding "\uFEFFa\r\r\n".toList.utf8Encode) rfl).1 _ rfl
    rw [hload, hfolds.eq_unify]
    rfl
  · obtain ⟨n, hn, hload⟩ := (loading_undoes_encoding i (holding cut) rfl).2.1 hmalformed
    obtain rfl := hn.unique hgreatest
    exact hload
  · have hruns := (loading_undoes_encoding i
      (holding "(f\r\n\r\n1)\r\n".toList.utf8Encode) rfl).2.2 "(f\n\n1)\n".toList .both
      (by decide) rfl
    exact hruns.2 .carriageReturn _ rfl

end SmallLisp

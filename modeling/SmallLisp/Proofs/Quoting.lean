import SmallLisp.Proofs.Source
import SmallLisp.Value

/-!
# Quoted texts

How a text is written out and what becomes of it when it is read. Each character is escaped by
itself, so that nothing is lost and the line is not broken. Reading undoes all escapes but that of
the backslash, which the language cannot read.
-/
namespace SmallLisp

open SmallLisp.Lexeme

namespace Escape

/-- `cs` with every `c` replaced by `ds`. -/
def substitute (c : Char) (ds cs : List Char) : List Char :=
  cs.flatMap fun d => if d = c then ds else [d]

/-- The five characters escaped one after another. The backslash comes first, since the other
replacements bring backslashes in. -/
def inTurn (cs : List Char) : List Char :=
  substitute '\t' ['\\', 't'] (substitute '\r' ['\\', 'r'] (substitute '\n' ['\\', 'n']
    (substitute '"' ['\\', '"'] (substitute '\\' ['\\', '\\'] cs))))

theorem substitute_append (c : Char) (ds cs cs' : List Char) :
    substitute c ds (cs ++ cs') = substitute c ds cs ++ substitute c ds cs' :=
  List.flatMap_append

theorem inTurn_append (cs cs' : List Char) : inTurn (cs ++ cs') = inTurn cs ++ inTurn cs' := by
  simp only [inTurn, substitute_append]

theorem inTurn_singleton (c : Char) : inTurn [c] = char c := by
  rw [char.eq_def]
  split
  · rfl
  · rfl
  · rfl
  · rfl
  · rfl
  · simp_all [inTurn, substitute]

/-- The replacements do not interfere: together they escape each character by itself. -/
theorem inTurn_eq_flatMap (cs : List Char) : inTurn cs = cs.flatMap char := by
  induction cs with
  | nil => rfl
  | cons c cs ih =>
    rw [← List.singleton_append, inTurn_append, inTurn_singleton, ih, List.flatMap_append,
      List.flatMap_singleton]

/-- What a character is written as tells where the next one starts. -/
theorem char_append_inj {c d : Char} {cs ds : List Char} (h : char c ++ cs = char d ++ ds) :
    c = d ∧ cs = ds := by
  rw [char.eq_def c, char.eq_def d] at h
  split at h <;> split at h <;> grind

theorem flatMap_char_inj {cs ds : List Char} (h : cs.flatMap char = ds.flatMap char) : cs = ds := by
  have hne (c : Char) (cs : List Char) : (c :: cs).flatMap char ≠ [] := by
    rw [List.flatMap_cons, char.eq_def]
    split <;> simp
  induction cs generalizing ds with
  | nil =>
    cases ds with
    | nil => rfl
    | cons d ds => exact absurd h.symm (hne d ds)
  | cons c cs ih =>
    cases ds with
    | nil => exact absurd h (hne c cs)
    | cons d ds =>
      rw [List.flatMap_cons, List.flatMap_cons] at h
      obtain ⟨rfl, hrest⟩ := char_append_inj h
      rw [ih hrest]

theorem toList_quote (s : String) :
    (quote s).toList = '"' :: s.toList.flatMap char ++ ['"'] := String.toList_ofList

theorem quote_inj {s t : String} (h : quote s = quote t) : s = t := by
  have hlist := congrArg String.toList h
  rw [toList_quote, toList_quote, List.cons_append, List.cons_append, List.cons.injEq,
    List.append_cancel_right_eq] at hlist
  exact String.toList_inj.mp (flatMap_char_inj hlist.2)

theorem notMem_char {c : Char} (hc : c = '\n' ∨ c = '\r' ∨ c = '\t') (d : Char) : c ∉ char d := by
  rw [char.eq_def]
  split <;> rcases hc with rfl | rfl | rfl <;> simp_all [eq_comm]

theorem notMem_quote {c : Char} (hc : c = '\n' ∨ c = '\r' ∨ c = '\t') (s : String) :
    c ∉ (quote s).toList := by
  have hquote : c ≠ '"' := by
    rcases hc with rfl | rfl | rfl <;> decide
  simp [toList_quote, hquote, notMem_char hc]

end Escape

/-! ## Reading -/

/-- A text that is one lexeme. -/
theorem Cuts.of_writes {w : List Char} {kind : Token.Kind} (h : Writes w kind)
    (fits : kind.Fits) : Cuts [] w [⟨kind, ⟨0, 1, 1⟩⟩, ⟨.eof, .ofLast w⟩] none := by
  have hnone : ∀ b ∈ ([] : List Char), isBlank b = true := List.forall_mem_nil _
  have hend : Cuts ([] ++ [] ++ w) [] [⟨.eof, .ofLast (w ++ [])⟩] none := .finish hnone
  have hcuts := Cuts.lexeme hnone (munch_of_writes h (ends_nil kind)) fits hend
  rwa [List.nil_append, List.append_nil] at hcuts

theorem Cuts.of_malformed {cs : List Char} {cause : LexError.Cause} (h : Malformed cs cause) :
    Cuts [] cs [] (some ⟨cause, ⟨0, 1, 1⟩⟩) :=
  .malformed (List.forall_mem_nil _) (fun _ kind hw => not_writes_of_malformed h hw kind) h

theorem malformed_quote {s : String} (h : '\\' ∈ s.toList) :
    Malformed (Escape.quote s).toList .unknownEscape := by
  -- Up to its first backslash the text is read as it was written.
  obtain ⟨us, vs, hs, hus⟩ := List.eq_append_cons_of_mem h
  have hunknown : ∀ d, ¬ Escapes '\\' d := by
    rintro d ⟨⟩
  have hwritten : (Escape.quote s).toList =
      '"' :: us.flatMap Escape.char ++ '\\' :: '\\' :: (vs.flatMap Escape.char ++ ['"']) := by
    simp [Escape.toList_quote, hs, Escape.char]
  rw [hwritten]
  exact .escape (body_escape hus) hunknown _

/-- What is written is lexed as one token, unless there is a backslash in it. -/
theorem tokenize_quote (s : String) :
    tokenize (Escape.quote s) =
      if '\\' ∈ s.toList then ([], some ⟨.unknownEscape, ⟨0, 1, 1⟩⟩)
      else ([⟨.text s, ⟨0, 1, 1⟩⟩, ⟨.eof, .ofLast (Escape.quote s).toList⟩], none) := by
  split_ifs with hbackslash
  · exact tokenize_of_cuts (.of_malformed (malformed_quote hbackslash))
  · exact tokenize_of_cuts (.of_writes (writes_text hbackslash) trivial)

/-- A text is written as the escapes of its characters between quotes, which is what replacing the
five special characters one after another comes to. What is written stands on one line and tells the
text. It is lexed as the one token of the text if the text has no backslash; otherwise its first
escape of a backslash is refused, and the error has the place of the opening quote. -/
theorem written_texts_tell {η : Type} (s : String) :
    let written := (Value.text s : Value η).render
    (written.toList = '"' :: s.toList.flatMap Escape.char ++ ['"'] ∧
      written.toList = '"' :: Escape.inTurn s.toList ++ ['"']) ∧
    ('\n' ∉ written.toList ∧ '\r' ∉ written.toList ∧ '\t' ∉ written.toList) ∧
    (∀ t, (Value.text t : Value η).render = written ↔ t = s) ∧
    (tokenize written =
      if '\\' ∈ s.toList then ([], some ⟨.unknownEscape, ⟨0, 1, 1⟩⟩)
      else ([⟨.text s, ⟨0, 1, 1⟩⟩, ⟨.eof, .ofLast written.toList⟩], none)) ∧
    ((∃ p q, tokenize written = ([⟨.text s, p⟩, ⟨.eof, q⟩], none)) ↔ '\\' ∉ s.toList) ∧
    LexError.Cause.unknownEscape.message = "unknown escaped character" := by
  intro written
  have hrender (t : String) : (Value.text t : Value η).render = Escape.quote t := rfl
  have hwritten : written = Escape.quote s := hrender s
  clear_value written
  subst hwritten
  refine ⟨⟨Escape.toList_quote s, ?_⟩, ⟨?_, ?_, ?_⟩, ?_, tokenize_quote s, ?_, rfl⟩
  · rw [Escape.toList_quote, Escape.inTurn_eq_flatMap]
  · exact Escape.notMem_quote (.inl rfl) s
  · exact Escape.notMem_quote (.inr (.inl rfl)) s
  · exact Escape.notMem_quote (.inr (.inr rfl)) s
  · intro t
    rw [hrender]
    exact ⟨Escape.quote_inj, congrArg Escape.quote⟩
  · rw [tokenize_quote]
    by_cases hbackslash : '\\' ∈ s.toList
    · simp [hbackslash]
    · simp [hbackslash]

/-- The backslash is where writing and reading differ. -/
example :
    Escape.quote "a\\\n\"" = "\"a\\\\\\n\\\"\"" ∧
      tokenize (Escape.quote "a\\\n\"") = ([], some ⟨.unknownEscape, ⟨0, 1, 1⟩⟩) := by
  decide +kernel

end SmallLisp

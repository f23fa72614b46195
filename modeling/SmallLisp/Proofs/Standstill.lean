import SmallLisp.Proofs.Positions

/-!
# Where a scanner stands still

A request moves a scanner over at least one character, but for two places where there is nothing to
take: the end of the text, and a character that starts no token. There it stays, and so does its
answer. A text of `n` characters has therefore at most `n` tokens before its end, and reading stops.
-/
namespace SmallLisp

open SmallLisp.Lexeme

namespace Lexeme

theorem cause_of_readText {cs : List Char} {n : Nat} {cause : LexError.Cause}
    (h : readText cs = ⟨n, .error cause⟩) : cause = .unterminatedText ∨ cause = .unknownEscape := by
  fun_induction readText cs generalizing n with
  | case1 | case3 =>
    cases h
    exact .inl rfl
  | case2 cs => cases h
  | case4 c cs d hd ih | case6 c cs hquote hend hescape ih =>
    obtain ⟨m, hm, -⟩ := Reading.cons_error h
    exact ih hm
  | case5 c cs hd =>
    cases h
    exact .inr rfl

/-- A character that starts no token is the only fault for which nothing is used up. -/
theorem exists_of_unexpected {cs : List Char} {n : Nat} {c : Char}
    (h : read cs = ⟨n, .error (.unexpectedCharacter c)⟩) : n = 0 ∧ cs.head? = some c := by
  generalize hr : (⟨n, .error (.unexpectedCharacter c)⟩ : Reading Token.Kind) = r at h
  cases reads_of_eq h with
  | other =>
    cases hr
    exact ⟨rfl, rfl⟩
  | malformed body =>
    cases hr
    rcases cause_of_readText body with hcause | hcause
    · cases hcause
    · cases hcause
  | eof | opening | closing | symbol | integer | tooLarge | text => cases hr

theorem used_pos_of_fault {cs : List Char} {n : Nat} {cause : LexError.Cause}
    (h : read cs = ⟨n, .error cause⟩) (hcause : ∀ c, cause ≠ .unexpectedCharacter c) :
    0 < n ∧ (cause = .integerTooLarge ∨ cause = .unknownEscape ∨ cause = .unterminatedText) := by
  generalize hr : (⟨n, .error cause⟩ : Reading Token.Kind) = r at h
  cases reads_of_eq h with
  | tooLarge =>
    cases hr
    exact ⟨Nat.succ_pos _, .inl rfl⟩
  | malformed body =>
    cases hr
    exact ⟨Nat.add_pos_left Nat.one_pos _, .inr (cause_of_readText body).symm⟩
  | other =>
    cases hr
    exact absurd rfl (hcause _)
  | eof | opening | closing | symbol | integer | text => cases hr

end Lexeme

namespace Scanner

/-! ## One request -/

/-- Whether `s'` is `s` behind the characters `w`, which `s` has ahead. -/
structure Passes (s : Scanner) (w : List Char) (s' : Scanner) : Prop where
  moved : s' = advanceBy w.length s
  ahead : s.ahead = w ++ s'.ahead

/-- What a scanner that stands on a character, or at the end, can make of a request. It passes
blanks first. A token or a malformed one has the place of the character behind them, which is passed
at least. -/
inductive Outcome (s : Scanner) : Except LexError Token × Scanner → Prop
  | token {blanks c w t s'} (blank : ∀ b ∈ blanks, isBlank b = true) (noBlank : isBlank c = false)
      (kind : t.kind ≠ .eof) (place : t.location = (advanceBy blanks.length s).location)
      (passes : s.Passes (blanks ++ c :: w) s') : Outcome s (.ok t, s')
  | malformed {blanks c w e s'} (blank : ∀ b ∈ blanks, isBlank b = true)
      (noBlank : isBlank c = false)
      (cause : e.cause = .integerTooLarge ∨ e.cause = .unknownEscape ∨ e.cause = .unterminatedText)
      (place : e.location = (advanceBy blanks.length s).location)
      (passes : s.Passes (blanks ++ c :: w) s') : Outcome s (.error e, s')
  | unexpected {blanks c ahead p} (blank : ∀ b ∈ blanks, isBlank b = true)
      (noBlank : isBlank c = false) (passes : s.Passes blanks (reading (c :: ahead) p)) :
      Outcome s (.error ⟨.unexpectedCharacter c, p⟩, reading (c :: ahead) p)
  | ended {blanks p} (blank : ∀ b ∈ blanks, isBlank b = true)
      (passes : s.Passes blanks (reading [] p)) : Outcome s (.ok ⟨.eof, p⟩, reading [] p)

theorem passes_take {cs : List Char} {n : Nat} (hn : n ≤ cs.length) (p : Location) :
    (reading cs p).Passes (cs.take n) (advanceBy n (reading cs p)) := by
  constructor
  · rw [List.length_take, Nat.min_eq_left hn]
  · rw [ahead_advanceBy, ahead_reading, List.take_append_drop]

theorem Passes.trans {s s₁ s₂ : Scanner} {v w : List Char} (h : s.Passes v s₁)
    (h' : s₁.Passes w s₂) : s.Passes (v ++ w) s₂ := by
  constructor
  · rw [h'.moved, h.moved, List.length_append, advanceBy_add]
  · rw [h.ahead, h'.ahead, List.append_assoc]

theorem Outcome.behind {s s₁ : Scanner} {blanks : List Char}
    (hblank : ∀ b ∈ blanks, isBlank b = true) (h : s.Passes blanks s₁)
    {answer : Except LexError Token × Scanner} (ho : s₁.Outcome answer) : s.Outcome answer := by
  have hall {more : List Char} (hmore : ∀ b ∈ more, isBlank b = true) :
      ∀ b ∈ blanks ++ more, isBlank b = true := by
    intro b hb
    exact (List.mem_append.mp hb).elim (hblank b) (hmore b)
  have hplace {more : List Char} : (advanceBy more.length s₁).location =
      (advanceBy (blanks ++ more).length s).location := by
    rw [h.moved, List.length_append, advanceBy_add]
  cases ho with
  | token blank noBlank kind place passes =>
    have hpasses := h.trans passes
    rw [← List.append_assoc] at hpasses
    exact .token (hall blank) noBlank kind (place.trans hplace) hpasses
  | malformed blank noBlank cause place passes =>
    have hpasses := h.trans passes
    rw [← List.append_assoc] at hpasses
    exact .malformed (hall blank) noBlank cause (place.trans hplace) hpasses
  | unexpected blank noBlank passes => exact .unexpected (hall blank) noBlank (h.trans passes)
  | ended blank passes => exact .ended (hall blank) (h.trans passes)

theorem outcome_lexeme {cs : List Char} (hhead : ∀ c ∈ cs.head?, isBlank c = false)
    (p : Location) : (reading cs p).Outcome (reading cs p).lexeme := by
  have hpasses := passes_take (used_read_le cs) p
  have hnil : ∀ b ∈ ([] : List Char), isBlank b = true := List.forall_mem_nil _
  -- What is used up starts with the first character, if it is anything at all.
  have hcons (hpos : 0 < (read cs).used) :
      ∃ c w, cs.take (read cs).used = c :: w ∧ isBlank c = false := by
    cases cs with
    | nil => exact absurd hpos (Nat.lt_irrefl 0)
    | cons c cs =>
      obtain ⟨n, hn⟩ := Nat.exists_eq_succ_of_ne_zero hpos.ne'
      exact ⟨c, cs.take n, by rw [hn, List.take_succ_cons], hhead c rfl⟩
  rw [lexeme, ahead_reading]
  rcases hread : read cs with ⟨n, cause | kind⟩
  · rw [hread] at hpasses hcons
    by_cases hcause : ∃ c, cause = .unexpectedCharacter c
    · obtain ⟨c, rfl⟩ := hcause
      obtain ⟨rfl, hc⟩ := exists_of_unexpected hread
      obtain ⟨ahead, rfl⟩ := List.head?_eq_some_iff.mp hc
      exact .unexpected hnil (hhead c rfl) hpasses
    · obtain ⟨hpos, hcause⟩ := used_pos_of_fault hread (not_exists.mp hcause)
      obtain ⟨c, w, htake, hc⟩ := hcons hpos
      rw [htake] at hpasses
      exact .malformed hnil hc hcause rfl hpasses
  · rw [hread] at hpasses hcons
    by_cases hkind : kind = .eof
    · subst hkind
      obtain rfl := read_eof hread
      cases hread
      exact .ended hnil hpasses
    · obtain ⟨hpos, -⟩ := used_pos_of_read hread hkind
      obtain ⟨c, w, htake, hc⟩ := hcons hpos
      rw [htake] at hpasses
      exact .token hnil hc hkind rfl hpasses

/-- Every request to a scanner that has been started has one of the four outcomes. -/
theorem outcome_next (cs : List Char) (p : Location) :
    (reading cs p).Outcome (reading cs p).next := by
  obtain ⟨blanks, rest, rfl, hblank, hrest⟩ := takeWhile_split isBlank cs
  have hpasses := passes_take (List.prefix_append blanks rest).length_le p
  obtain ⟨q, hq⟩ := advanceBy_reading blanks.length (blanks ++ rest) p
  rw [hq, List.drop_left, List.take_left] at hpasses
  rw [next, skipBlanks, ahead_reading, takeWhile_append_of_head hblank hrest, hq, List.drop_left]
  exact .behind hblank hpasses (outcome_lexeme hrest q)

/-! ## The two places -/

theorem answer_ended (p : Location) (call : Call) :
    (reading [] p).answer call = (.ok ⟨.eof, p⟩, reading [] p) := by
  cases call with
  | start => rfl
  | next => rfl

theorem head_skipBlanks (s : Scanner) : ∀ c ∈ s.skipBlanks.ahead.head?, isBlank c = false := by
  cases s with
  | fresh cs =>
    intro c hc
    cases hc
  | reading cs p =>
    obtain ⟨blanks, rest, rfl, hblank, hrest⟩ := takeWhile_split isBlank cs
    rw [skipBlanks, ahead_reading, takeWhile_append_of_head hblank hrest, ahead_advanceBy,
      List.drop_left]
    exact hrest

theorem skipBlanks_skipBlanks (s : Scanner) : s.skipBlanks.skipBlanks = s.skipBlanks := by
  have hnone : s.skipBlanks.ahead.takeWhile isBlank = [] :=
    takeWhile_append_of_head (List.forall_mem_nil _) (head_skipBlanks s)
  rw [skipBlanks, hnone, List.length_nil, advanceBy]

theorem lexeme_unexpected {s s' : Scanner} {c : Char} {p : Location}
    (h : s.lexeme = (.error ⟨.unexpectedCharacter c, p⟩, s')) : s' = s := by
  rw [lexeme] at h
  rcases hread : read s.ahead with ⟨n, cause | kind⟩
  · rw [hread] at h
    cases h
    obtain ⟨rfl, -⟩ := exists_of_unexpected hread
    rfl
  · rw [hread] at h
    cases h

theorem next_unexpected {s s' : Scanner} {c : Char} {p : Location}
    (h : s.next = (.error ⟨.unexpectedCharacter c, p⟩, s')) :
    s'.next = (.error ⟨.unexpectedCharacter c, p⟩, s') := by
  obtain rfl := lexeme_unexpected h
  rw [next, skipBlanks_skipBlanks]
  exact h

/-- A scanner that answers a request without moving does so as often as it is asked. -/
theorem answers_replicate {s : Scanner} {call : Call} {a : Except LexError Token}
    (h : s.answer call = (a, s)) (n : Nat) :
    s.answers (List.replicate n call) = (List.replicate n a, s) := by
  induction n with
  | zero => rfl
  | succ n ih => simp only [List.replicate_succ, answers, h, ih]

theorem answers_ended (p : Location) (calls : List Call) :
    (reading [] p).answers calls =
      (List.replicate calls.length (.ok ⟨.eof, p⟩), reading [] p) := by
  induction calls with
  | nil => rfl
  | cons call calls ih =>
    simp only [answers, answer_ended, ih, List.length_cons, List.replicate_succ]

/-! ## How often it can move -/

/-- Whether an answer is one that takes a character: a token, or a malformed one that has been
looked at. -/
def takes : Except LexError Token → Bool
  | .ok t => t.kind ≠ .eof
  | .error ⟨.unexpectedCharacter _, _⟩ => false
  | .error _ => true

/-- The characters that it has not passed, with the one that it stands on. -/
def left : Scanner → List Char
  | fresh text => text
  | reading ahead _ => ahead

theorem Outcome.exists_passes {s s' : Scanner} {a : Except LexError Token}
    (h : s.Outcome (a, s')) : ∃ w, s.Passes w s' ∧ (takes a = true → w ≠ []) := by
  cases h with
  | token blank noBlank kind place passes => exact ⟨_, passes, fun _ => by simp⟩
  | malformed blank noBlank cause place passes => exact ⟨_, passes, fun _ => by simp⟩
  | unexpected blank noBlank passes => exact ⟨_, passes, fun h => absurd h Bool.false_ne_true⟩
  | ended blank passes => exact ⟨_, passes, fun h => absurd h Bool.false_ne_true⟩

theorem Passes.length_left {cs : List Char} {p : Location} {w : List Char} {s' : Scanner}
    (h : (reading cs p).Passes w s') : s'.left.length + w.length = cs.length := by
  obtain ⟨q, hq⟩ := advanceBy_reading w.length cs p
  obtain rfl := h.moved.trans hq
  have hlength := congrArg List.length h.ahead
  rw [ahead_reading, ahead_reading, List.length_append] at hlength
  rw [left, hlength, Nat.add_comm]

theorem length_left_next (cs : List Char) (p : Location) :
    (reading cs p).next.2.left.length + (if takes (reading cs p).next.1 then 1 else 0) ≤
      cs.length := by
  obtain ⟨w, hpasses, hw⟩ := (outcome_next cs p).exists_passes
  have hlength : (reading cs p).next.2.left.length + w.length = cs.length := hpasses.length_left
  split_ifs with htakes
  · have hpos := List.length_pos_iff.mpr (hw htakes)
    omega
  · omega

/-- A request that takes a character leaves one less, and no request leaves more. -/
theorem length_left_answer (s : Scanner) (call : Call) :
    (s.answer call).2.left.length + (if takes (s.answer call).1 then 1 else 0) ≤ s.left.length := by
  cases s with
  | fresh cs =>
    cases call with
    | start =>
      rw [answer_eq_next, Call.moves, advanceBy_fresh]
      exact length_left_next cs _
    | next => exact Nat.le_refl _
  | reading cs p =>
    obtain ⟨q, hq⟩ := advanceBy_reading call.moves cs p
    rw [answer_eq_next, hq]
    have hlength := length_left_next (cs.drop call.moves) q
    rw [List.length_drop] at hlength
    rw [left]
    omega

theorem answers_cons (s : Scanner) (call : Call) (calls : List Call) :
    s.answers (call :: calls) = ((s.answer call).1 :: ((s.answer call).2.answers calls).1,
      ((s.answer call).2.answers calls).2) := rfl

theorem countP_takes_answers (s : Scanner) (calls : List Call) :
    (s.answers calls).2.left.length + (s.answers calls).1.countP takes ≤ s.left.length := by
  induction calls generalizing s with
  | nil => exact Nat.le_refl _
  | cons call calls ih =>
    have hfirst := length_left_answer s call
    have hrest := ih (s.answer call).2
    simp only [answers_cons, List.countP_cons]
    omega

theorem length_tokensOf_le (as : List (Except LexError Token)) :
    (tokensOf as).length ≤ as.countP takes := by
  induction as with
  | nil => exact Nat.le_refl _
  | cons a as ih =>
    rw [List.countP_cons]
    rcases tokensOf_cons a as with hnone | ⟨t, rfl, hkind, hsome⟩
    · rw [hnone]
      omega
    · have htakes : takes (.ok t) = true := decide_eq_true hkind
      rw [hsome, List.length_cons, if_pos htakes]
      omega

/-! ## Reading to the end -/

/-- Asked as often as there are tokens and an error, a scanner gives just these. -/
theorem answers_tokens (s : Scanner) :
    (s.answers (List.replicate (s.tokens.1.length + s.tokens.2.toList.length) .next)).1 =
      s.tokens.1.map .ok ++ s.tokens.2.toList.map .error := by
  induction s using Scanner.tokens.induct with
  | case1 s e h =>
    rw [tokens_of_error h]
    exact congrArg (· :: []) h
  | case2 s t h ht =>
    rw [tokens_of_eof h ht]
    exact congrArg (· :: []) h
  | case3 s t h ht hlt _ _ _ ih =>
    rw [tokens_of_token h ht, List.length_cons, Nat.add_right_comm, List.replicate_succ,
      answers_cons, List.map_cons, List.cons_append]
    exact congrArg₂ List.cons h ih

theorem length_le_of_answers {cs : List Char} {calls : List Call} {us : List Token}
    {last : Except LexError Token} (hus : ∀ t ∈ us, t.kind ≠ .eof)
    (h : ((fresh cs).answers calls).1 = us.map .ok ++ [last]) : us.length ≤ cs.length := by
  have hle := countP_takes_answers (fresh cs) calls
  have hall : (us.map Except.ok).countP takes = (us.map (Except.ok (ε := LexError))).length := by
    rw [List.countP_eq_length]
    intro a ha
    obtain ⟨t, ht, rfl⟩ := List.mem_map.mp ha
    exact decide_eq_true (hus t ht)
  rw [h, List.countP_append, hall, List.length_map, left] at hle
  omega

/-- A scanner gives tokens up to the end or up to a malformed one, and each of them takes one of the
characters. -/
theorem exists_last_answer (cs : List Char) : ∃ us last,
    ((fresh cs).answers (.start :: List.replicate us.length .next)).1 = us.map .ok ++ [last] ∧
      (∀ t ∈ us, t.kind ≠ .eof) ∧ us.length ≤ cs.length ∧
      ((∃ t, last = .ok t ∧ t.kind = .eof ∧ (fresh cs).advance.tokens = (us ++ [t], none)) ∨
        ∃ e, last = .error e ∧ (fresh cs).advance.tokens = (us, some e)) := by
  have hstart (n : Nat) : (fresh cs).answers (.start :: List.replicate n .next) =
      (fresh cs).advance.answers (List.replicate (n + 1) .next) := rfl
  have hanswers := answers_tokens (fresh cs).advance
  have hlexes := (lexes_tokens (fresh cs).advance (advance_fresh cs)).eof_last
  rcases htokens : (fresh cs).advance.tokens with ⟨ts, stop⟩
  rw [htokens] at hanswers hlexes
  obtain ⟨us, hus, ⟨p, rfl, rfl⟩ | ⟨rfl, hstop⟩⟩ := hlexes
  · have hgives : ((fresh cs).answers (.start :: List.replicate us.length .next)).1 =
        us.map .ok ++ [.ok ⟨.eof, p⟩] := by
      rw [hstart]
      simpa using hanswers
    exact ⟨us, _, hgives, hus, length_le_of_answers hus hgives, .inl ⟨_, rfl, rfl, rfl⟩⟩
  · obtain ⟨e, rfl⟩ := Option.isSome_iff_exists.mp hstop
    have hgives : ((fresh cs).answers (.start :: List.replicate ts.length .next)).1 =
        ts.map .ok ++ [.error e] := hanswers
    exact ⟨ts, _, hgives, hus, length_le_of_answers hus hgives, .inr ⟨e, rfl, rfl⟩⟩

theorem answers_append (s : Scanner) (calls more : List Call) :
    s.answers (calls ++ more) = ((s.answers calls).1 ++ ((s.answers calls).2.answers more).1,
      ((s.answers calls).2.answers more).2) := by
  induction calls generalizing s with
  | nil => rfl
  | cons call calls ih => rw [List.cons_append, answers_cons, answers_cons, ih]; rfl

theorem exists_reading (cs : List Char) {moves : Nat} (h : moves ≠ 0) :
    ∃ rest p, advanceBy moves (fresh cs) = reading rest p := by
  obtain ⟨n, rfl⟩ := Nat.exists_eq_succ_of_ne_zero h
  exact ⟨cs.drop n, _, advanceBy_fresh n cs⟩

/-- Once it has been started, a scanner stands on a character or at the end. -/
theorem exists_reading_of_started (cs : List Char) {calls : List Call} (h : .start ∈ calls) :
    ∃ rest p, ((fresh cs).answers calls).2 = reading rest p := by
  obtain ⟨moves, hserves⟩ := exists_serves 0 cs calls
  have hne : moves ≠ 0 := fun hzero => (hserves.started.mp hzero).2 h
  obtain ⟨rest, p, hp⟩ := exists_reading cs hne
  exact ⟨rest, p, hserves.moved.trans hp⟩

/-- The last of some calls by which it has been started asks a scanner that stands somewhere. -/
theorem exists_last_call (cs : List Char) {calls : List Call} (h : .start ∈ calls) :
    ∃ rest p a, ((fresh cs).answers calls).1.getLast? = some a ∧
      (reading rest p).next = (a, ((fresh cs).answers calls).2) := by
  obtain rfl | ⟨calls, call, rfl⟩ := List.eq_nil_or_concat calls
  · cases h
  · rw [List.concat_eq_append] at h ⊢
    obtain ⟨moves, hserves⟩ := exists_serves 0 cs calls
    have hmoved : ((fresh cs).answers calls).2 = advanceBy moves (fresh cs) := hserves.moved
    have hne : moves + call.moves ≠ 0 := by
      intro hzero
      obtain ⟨rfl, hcall⟩ := Nat.add_eq_zero_iff.mp hzero
      have hbefore := (hserves.started.mp rfl).2
      cases call with
      | start => cases hcall
      | next => simp [hbefore] at h
    obtain ⟨rest, p, hp⟩ := exists_reading cs hne
    refine ⟨rest, p, (((fresh cs).answers calls).2.answer call).1, ?_⟩
    rw [← hp, advanceBy_add, ← hmoved, ← answer_eq_next, answers_append]
    exact ⟨List.getLast?_concat, rfl⟩

theorem Outcome.eq_of_eof {s s' : Scanner} {t : Token} (h : s.Outcome (.ok t, s'))
    (ht : t.kind = .eof) : ∃ p, t = ⟨.eof, p⟩ ∧ s' = reading [] p := by
  cases h with
  | token blank noBlank kind => exact absurd ht kind
  | ended => exact ⟨_, rfl, rfl⟩

end Scanner

open Scanner in
/-- A scanner moves on or stands still for good. -/
theorem requests_take_or_rest (text : String) (before calls : List Scanner.Call) :
    let cs := text.toList
    let (as, s) := (fresh cs).answers (before ++ .start :: calls)
    (∀ call, (advanceBy call.moves s).Outcome (s.answer call)) ∧
    (∀ t, as.getLast? = some (.ok t) → t.kind = .eof →
      ∀ later, s.answers later = (List.replicate later.length (.ok t), s)) ∧
    (∀ c p, as.getLast? = some (.error ⟨.unexpectedCharacter c, p⟩) → ∀ n,
      s.answers (List.replicate n .next) =
        (List.replicate n (.error ⟨.unexpectedCharacter c, p⟩), s)) ∧
    as.countP takes ≤ cs.length ∧ (tokensOf as).length ≤ cs.length ∧
    ∃ us last, ((fresh cs).answers (.start :: List.replicate us.length .next)).1 =
        us.map .ok ++ [last] ∧
      (∀ t ∈ us, t.kind ≠ .eof) ∧ us.length ≤ cs.length ∧
      ((∃ t, last = .ok t ∧ t.kind = .eof ∧ tokenize text = (us ++ [t], none)) ∨
        ∃ e, last = .error e ∧ tokenize text = (us, some e)) := by
  intro cs
  have hstarted : .start ∈ before ++ .start :: calls := by simp
  obtain ⟨ahead, q, hreading⟩ := exists_reading_of_started cs hstarted
  obtain ⟨rest, p, a, hlast, hnext⟩ := exists_last_call cs hstarted
  have hcount := countP_takes_answers (fresh cs) (before ++ .start :: calls)
  rcases hall : (fresh cs).answers (before ++ .start :: calls) with ⟨as, s⟩
  simp only [hall] at hlast hnext hreading hcount
  have htaken : as.countP takes ≤ cs.length := Nat.le_trans (Nat.le_add_left _ _) hcount
  refine ⟨?_, ?_, ?_, htaken, (length_tokensOf_le as).trans htaken, exists_last_answer cs⟩
  · intro call
    obtain ⟨q', hq'⟩ := advanceBy_reading call.moves ahead q
    rw [answer_eq_next, hreading, hq']
    exact outcome_next _ q'
  · intro t ht hkind later
    obtain rfl : a = .ok t := Option.some.inj (hlast.symm.trans ht)
    have houtcome := outcome_next rest p
    rw [hnext] at houtcome
    obtain ⟨p', rfl, rfl⟩ := houtcome.eq_of_eof hkind
    exact answers_ended p' later
  · intro c p' hc n
    obtain rfl : a = .error ⟨.unexpectedCharacter c, p'⟩ := Option.some.inj (hlast.symm.trans hc)
    have hstay : s.answer .next = (.error ⟨.unexpectedCharacter c, p'⟩, s) := next_unexpected hnext
    exact answers_replicate hstay n

/-- A scanner goes on behind the backslash of an unknown escape, but not behind a semicolon. -/
example :
    ((Scanner.fresh "\"\\q a;b".toList).answers [.start, .next, .next, .next, .next]).1 =
      [.error ⟨.unknownEscape, ⟨0, 1, 1⟩⟩, .ok ⟨.symbol "q", ⟨2, 1, 3⟩⟩,
        .ok ⟨.symbol "a", ⟨4, 1, 5⟩⟩, .error ⟨.unexpectedCharacter ';', ⟨5, 1, 6⟩⟩,
        .error ⟨.unexpectedCharacter ';', ⟨5, 1, 6⟩⟩] := by
  decide +kernel

end SmallLisp

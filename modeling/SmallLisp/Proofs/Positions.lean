import SmallLisp.Proofs.Munch

/-!
# Positions of a scanner

All that a scanner does is to move forward, so how often it has moved tells where it is, whatever it
was asked for, in whatever order and with whatever errors. What it answers has the place of the
first character that is no blank, so that tokens come with rising offsets.
-/
namespace SmallLisp

open SmallLisp.Lexeme

namespace Scanner

/-! ## Moving forward -/

/-- The characters that it has not moved onto. -/
def unread : Scanner → List Char
  | fresh text => text
  | reading ahead _ => ahead.tail

theorem advanceBy_add (m n : Nat) (s : Scanner) :
    advanceBy (m + n) s = advanceBy n (advanceBy m s) := by
  induction m generalizing s with
  | zero => rw [Nat.zero_add, advanceBy]
  | succ m ih => rw [Nat.add_right_comm, advanceBy, ih, advanceBy]

theorem advanceBy_fresh (n : Nat) (cs : List Char) :
    advanceBy (n + 1) (fresh cs) = behind (.ofLast (cs.take n)) (cs.drop n) := by
  rw [advanceBy, advance_fresh, advanceBy_behind, Location.after_start]

theorem ahead_moved (n : Nat) (cs : List Char) :
    (advanceBy n (fresh cs)).ahead = if n = 0 then [] else cs.drop (n - 1) := by
  cases n with
  | zero => rfl
  | succ n => rw [advanceBy_fresh, ahead_behind, if_neg n.succ_ne_zero, Nat.add_sub_cancel]

theorem location_moved (n : Nat) (cs : List Char) :
    (advanceBy n (fresh cs)).location = .ofLast (cs.take n) := by
  cases n with
  | zero => rfl
  | succ n => rw [advanceBy_fresh, behind, location, Location.after_ofLast, ← List.take_add]

theorem unread_moved (n : Nat) (cs : List Char) :
    (advanceBy n (fresh cs)).unread = cs.drop n := by
  cases n with
  | zero => rfl
  | succ n => rw [advanceBy_fresh, behind, unread, List.tail_drop]

/-- Whether a scanner of the text `cs` has moved `moves` times, of which the first `k` found a
character. It has the place of the last of these `k` characters and stands on it, unless it has not
moved at all or has found the end. -/
structure Stands (cs : List Char) (moves k : Nat) (s : Scanner) : Prop where
  moved : s = advanceBy moves (fresh cs)
  found : k = min moves cs.length
  unread : s.unread = cs.drop k
  offset : s.location.offset = k - 1
  row : s.location.row = 1 + (cs.take k).count '\n'
  col : s.location.col = ((cs.take k).reverse.takeWhile (· ≠ '\n')).length
  current : s.current = if moves = 0 ∨ cs.length < moves then none else cs[k - 1]?

theorem stands_moved (cs : List Char) (moves : Nat) :
    (advanceBy moves (fresh cs)).Stands cs moves (min moves cs.length) := by
  have htake : cs.take (min moves cs.length) = cs.take moves := by
    simp [List.take_eq_take_iff]
  refine ⟨rfl, rfl, by simp [unread_moved, List.drop_eq_drop_iff], ?_, ?_, ?_, ?_⟩
  · simp [location_moved, Location.ofLast]
  · simp [location_moved, Location.ofLast, htake, Int.add_comm]
  · simp [location_moved, Location.ofLast, htake]
  · rw [current, ahead_moved]
    by_cases hzero : moves = 0
    · simp [hzero]
    · by_cases hover : cs.length < moves
      · have hdrop : cs.drop (moves - 1) = [] := List.drop_eq_nil_of_le (by omega)
        simp [hzero, hover, hdrop]
      · have hmin : min moves cs.length = moves := by omega
        simp [hzero, hover, hmin, List.head?_drop]

/-! ## Calls -/

/-- What a scanner can be asked for. -/
inductive Call where
  | start
  | next
deriving DecidableEq

/-- How often a scanner moves before it looks at a character. -/
def Call.moves : Call → Nat
  | start => 1
  | next => 0

def answer (s : Scanner) : Call → Except LexError Token × Scanner
  | .start => s.start
  | .next => s.next

/-- The answers to calls one after another, whether they are tokens or errors, and the scanner
behind them. -/
def answers (s : Scanner) : List Call → List (Except LexError Token) × Scanner
  | [] => ([], s)
  | call :: calls =>
    let (first, s') := s.answer call
    let (rest, last) := s'.answers calls
    (first :: rest, last)

/-- The place that an answer has. -/
def placeOf : Except LexError Token → Location
  | .ok t => t.location
  | .error e => e.location

/-- The tokens among some answers but for the ends of the text. -/
def tokensOf (as : List (Except LexError Token)) : List Token :=
  (as.filterMap Except.toOption).filter (·.kind ≠ .eof)

/-- How many blanks come one after another from the character on that a scanner stands on which has
moved `moves` times. -/
def blanksAt (cs : List Char) (moves : Nat) : Nat :=
  if moves = 0 then 0 else ((cs.drop (moves - 1)).takeWhile isBlank).length

theorem skipBlanks_moved (moves : Nat) (cs : List Char) :
    (advanceBy moves (fresh cs)).skipBlanks =
      advanceBy (moves + blanksAt cs moves) (fresh cs) := by
  have hblanks : blanksAt cs moves =
      ((advanceBy moves (fresh cs)).ahead.takeWhile isBlank).length := by
    rw [blanksAt, ahead_moved]
    split_ifs
    · rfl
    · rfl
  rw [skipBlanks, ← hblanks, advanceBy_add]

theorem answer_eq_next (s : Scanner) (call : Call) :
    s.answer call = (advanceBy call.moves s).next := by
  cases call with
  | start => rfl
  | next => rfl

/-- Whether an answer and the scanner that gave it are what a scanner that has moved `moves` times
gives: the answer has the place of the first character that is no blank, and a token that is not the
end has moved the scanner behind that character. -/
structure Gives (cs : List Char) (moves : Nat) (answer : Except LexError Token × Scanner)
    (moves' : Nat) : Prop where
  moved : answer.2 = advanceBy moves' (fresh cs)
  place : placeOf answer.1 = .ofLast (cs.take (moves + blanksAt cs moves))
  forward : moves + blanksAt cs moves ≤ moves'
  unmoved : moves = 0 → moves' = 0
  token : ∀ t, answer.1 = .ok t → t.kind ≠ .eof →
    0 < moves ∧ moves + blanksAt cs moves < moves' ∧ moves + blanksAt cs moves ≤ cs.length

theorem exists_gives_next (moves : Nat) (cs : List Char) :
    ∃ moves', Gives cs moves (advanceBy moves (fresh cs)).next moves' := by
  -- Behind the blanks it stands on the character that the answer has the place of.
  have hstart : (advanceBy moves (fresh cs)).next =
      (advanceBy (moves + blanksAt cs moves) (fresh cs)).lexeme := by
    rw [next, skipBlanks_moved]
  rw [hstart, lexeme]
  generalize hn : moves + blanksAt cs moves = n
  rcases hread : Lexeme.read (advanceBy n (fresh cs)).ahead with ⟨used, outcome⟩
  refine ⟨n + used, ?_, ?_, by omega, ?_, ?_⟩
  · exact (advanceBy_add n used _).symm
  · rw [hn, ← location_moved]
    cases outcome with
    | ok kind => rfl
    | error cause => rfl
  · rintro rfl
    have hzero : n = 0 := by simp [← hn, blanksAt]
    rw [hzero, ahead_moved, if_pos rfl, Lexeme.read] at hread
    have hused : 0 = used := congrArg Reading.used hread
    omega
  · intro t ht hkind
    cases outcome with
    | error cause => cases ht
    | ok kind =>
      cases ht
      obtain ⟨hused, hahead⟩ := used_pos_of_read hread hkind
      rw [ahead_moved] at hahead
      have hpos : n ≠ 0 := by
        intro hzero
        simp [hzero] at hahead
      have hlt : n - 1 < cs.length := by simpa [hpos] using hahead
      have hmoves : moves ≠ 0 := by
        intro hzero
        simp [hzero, blanksAt] at hn
        omega
      omega

theorem exists_gives (moves : Nat) (cs : List Char) (call : Call) : ∃ moves',
    Gives cs (moves + call.moves) ((advanceBy moves (fresh cs)).answer call) moves' := by
  rw [answer_eq_next, ← advanceBy_add]
  exact exists_gives_next (moves + call.moves) cs

theorem Gives.offset {cs : List Char} {moves moves' : Nat}
    {answer : Except LexError Token × Scanner} (h : Gives cs moves answer moves') {t : Token}
    (ht : answer.1 = .ok t) (hkind : t.kind ≠ .eof) :
    moves ≤ t.location.offset + 1 ∧ t.location.offset + 1 < moves' := by
  obtain ⟨-, hbehind, hinside⟩ := h.token t ht hkind
  have hplace : t.location = .ofLast (cs.take (moves + blanksAt cs moves)) := by
    rw [← h.place, ht, placeOf]
  have hoffset : t.location.offset + 1 = (moves + blanksAt cs moves : Nat) := by
    simp [hplace, Location.ofLast]
    omega
  omega

/-! ## Calls one after another -/

/-- What some calls to a scanner of `cs` that has moved `moves` times come to: it has moved further,
and the tokens that are not the end come with rising offsets. -/
structure Serves (cs : List Char) (moves : Nat) (calls : List Call)
    (outcome : List (Except LexError Token) × Scanner) (moves' : Nat) : Prop where
  moved : outcome.2 = advanceBy moves' (fresh cs)
  forward : moves ≤ moves'
  started : moves' = 0 ↔ moves = 0 ∧ .start ∉ calls
  ahead : ∀ t ∈ tokensOf outcome.1, moves ≤ t.location.offset + 1
  rising : (tokensOf outcome.1).Pairwise fun t t' => t.location.offset < t'.location.offset

theorem tokensOf_cons (a : Except LexError Token) (as : List (Except LexError Token)) :
    tokensOf (a :: as) = tokensOf as ∨
      ∃ t, a = .ok t ∧ t.kind ≠ .eof ∧ tokensOf (a :: as) = t :: tokensOf as := by
  cases a with
  | error e => exact .inl rfl
  | ok t =>
    by_cases hkind : t.kind = .eof
    · simp [tokensOf, Except.toOption, hkind]
    · simp [tokensOf, Except.toOption, hkind]

theorem Gives.started {cs : List Char} {moves moves' : Nat} {call : Call}
    {answer : Except LexError Token × Scanner} (h : Gives cs (moves + call.moves) answer moves') :
    moves' = 0 ↔ moves = 0 ∧ call ≠ .start := by
  have hforward := h.forward
  have hunmoved := h.unmoved
  cases call with
  | start => simp [Call.moves] at hforward ⊢; omega
  | next => simp [Call.moves] at hforward hunmoved ⊢; omega

theorem Serves.cons {cs : List Char} {moves moves₁ moves' : Nat} {call : Call} {calls : List Call}
    {answer : Except LexError Token × Scanner} {outcome : List (Except LexError Token) × Scanner}
    (hfirst : Gives cs (moves + call.moves) answer moves₁)
    (hrest : Serves cs moves₁ calls outcome moves') :
    Serves cs moves (call :: calls) (answer.1 :: outcome.1, outcome.2) moves' := by
  have hforward := hfirst.forward
  have hlater := hrest.forward
  have hahead := hrest.ahead
  have hstarted : moves' = 0 ↔ moves = 0 ∧ .start ∉ call :: calls := by
    rw [hrest.started, hfirst.started]
    simp [and_assoc, eq_comm]
  rcases tokensOf_cons answer.1 outcome.1 with hnone | ⟨t, ht, hkind, hsome⟩
  · refine ⟨hrest.moved, by omega, hstarted, ?_, by rw [hnone]; exact hrest.rising⟩
    rw [hnone]
    intro t ht
    have hle := hahead t ht
    omega
  · -- The token stands where the scanner was, those of the other calls where it is now or further.
    have hoffset := hfirst.offset ht hkind
    have hbehind : ∀ t' ∈ tokensOf outcome.1, t.location.offset < t'.location.offset := by
      intro t' ht'
      have hle := hahead t' ht'
      omega
    refine ⟨hrest.moved, by omega, hstarted, ?_, ?_⟩
    · rw [hsome, List.forall_mem_cons]
      refine ⟨by omega, ?_⟩
      intro t' ht'
      have hlt := hbehind t' ht'
      omega
    · rw [hsome]
      exact List.pairwise_cons.mpr ⟨hbehind, hrest.rising⟩

theorem exists_serves (moves : Nat) (cs : List Char) (calls : List Call) :
    ∃ moves', Serves cs moves calls ((advanceBy moves (fresh cs)).answers calls) moves' := by
  induction calls generalizing moves with
  | nil =>
    refine ⟨moves, rfl, Nat.le_refl _, by simp, ?_, ?_⟩
    · simp [answers, tokensOf]
    · simp [answers, tokensOf]
  | cons call calls ih =>
    obtain ⟨moves₁, hfirst⟩ := exists_gives moves cs call
    obtain ⟨moves', hrest⟩ := ih moves₁
    rw [← hfirst.moved] at hrest
    exact ⟨moves', .cons hfirst hrest⟩

end Scanner

open Scanner in
/-- A scanner always knows where it is. Whatever it was asked for, in whatever order and with
whatever errors, it has the place of the last character that it has moved onto and stands on that
character, unless it was never started or has found the end of the text. It never moves back. An
answer has the place where the scanner is once it has skipped the blanks from the character on that
it stands on, which is its own place if it stands on none. So the tokens before the end come with
rising offsets. -/
theorem scanner_knows_place (text : String) (calls : List Scanner.Call) :
    let cs := text.toList
    let (as, s) := (Scanner.fresh cs).answers calls
    (∃ moves k, s.Stands cs moves k ∧ (moves = 0 ↔ .start ∉ calls) ∧
      ∀ call, ∃ (looking : Scanner) (k₀ moves' k' : Nat),
        looking.Stands cs (moves + call.moves + blanksAt cs (moves + call.moves)) k₀ ∧
        placeOf (s.answer call).1 = looking.location ∧
        (s.answer call).2.Stands cs moves' k' ∧ k ≤ k₀ ∧ k₀ ≤ k') ∧
    (tokensOf as).Pairwise fun t t' => t.location.offset < t'.location.offset := by
  intro cs
  obtain ⟨moves, hserves⟩ := exists_serves 0 cs calls
  have hmoved : ((fresh cs).answers calls).2 = advanceBy moves (fresh cs) := hserves.moved
  have hstarted : moves = 0 ↔ .start ∉ calls := by simpa using hserves.started
  refine ⟨⟨moves, _, hmoved ▸ stands_moved cs moves, hstarted, ?_⟩, hserves.rising⟩
  intro call
  obtain ⟨moves', hgives⟩ := exists_gives moves cs call
  have hforward := hgives.forward
  refine ⟨_, _, moves', min moves' cs.length, stands_moved cs _, ?_, ?_, ?_, ?_⟩
  · rw [hmoved, hgives.place, location_moved]
  · rw [hmoved, hgives.moved]
    exact stands_moved cs moves'
  · omega
  · omega

/-- Asked too early, in a malformed text, and started twice. -/
example :
    let calls : List Scanner.Call := [.next, .start, .next, .start]
    let (as, s) := (Scanner.fresh "\"\\q a(".toList).answers calls
    as.map Scanner.placeOf = [⟨-1, 1, 0⟩, ⟨0, 1, 1⟩, ⟨2, 1, 3⟩, ⟨4, 1, 5⟩] ∧
      s.current = some '(' := by
  decide +kernel

end SmallLisp

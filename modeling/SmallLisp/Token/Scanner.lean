import SmallLisp.Token.Lexeme

/-!
# The scanner

Hands out the tokens of a text one at a time. It stands on a character, knows its place, and moves
forward only; after an error it stays where the malformed token was given up.
-/
namespace SmallLisp

/-- A scanner that has not started stands before the text. One that reads stands on the first
character of `ahead`, or behind the last one of the text if nothing is ahead. -/
inductive Scanner where
  | fresh (text : List Char)
  | reading (ahead : List Char) (location : Location)
deriving DecidableEq

namespace Scanner

/-- The text from the character it stands on. -/
def ahead : Scanner → List Char
  | fresh _ => []
  | reading ahead _ => ahead

/-- The place of the last character it has moved onto. -/
def location : Scanner → Location
  | fresh _ => .start
  | reading _ location => location

def current (s : Scanner) : Option Char := s.ahead.head?

/-- Moves onto the next character. At the end the place stays that of the last character. -/
def advance : Scanner → Scanner
  | fresh [] => reading [] .start
  | fresh (c :: cs) => reading (c :: cs) (Location.start.next c)
  | reading (_ :: d :: ds) p => reading (d :: ds) (p.next d)
  | reading _ p => reading [] p

def advanceBy : Nat → Scanner → Scanner
  | 0, s => s
  | n + 1, s => advanceBy n s.advance

/-- Moves onto the first character that is not a blank. -/
def skipBlanks (s : Scanner) : Scanner :=
  s.advanceBy (s.ahead.takeWhile Lexeme.isBlank).length

/-- The token that starts with the character it stands on, and the scanner behind that token. -/
def lexeme (s : Scanner) : Except LexError Token × Scanner :=
  let r := Lexeme.read s.ahead
  (match r.outcome with
    | .ok kind => .ok ⟨kind, s.location⟩
    | .error cause => .error ⟨cause, s.location⟩,
   s.advanceBy r.used)

/-- The next token. Where nothing is ahead this is `eof`, as often as it is asked for. -/
def next (s : Scanner) : Except LexError Token × Scanner := s.skipBlanks.lexeme

/-- Moves forward one character, then gives the next token. A fresh scanner starts this way. -/
def start (s : Scanner) : Except LexError Token × Scanner := s.advance.next

@[simp] theorem ahead_fresh (cs : List Char) : (fresh cs).ahead = [] := rfl

@[simp] theorem ahead_reading (cs : List Char) (p : Location) : (reading cs p).ahead = cs := rfl

@[simp] theorem ahead_advance (cs : List Char) (p : Location) :
    (reading cs p).advance.ahead = cs.drop 1 := by
  match cs with
  | [] | [_] | _ :: _ :: _ => rfl

theorem advanceBy_reading (n : Nat) (cs : List Char) (p : Location) :
    ∃ q, advanceBy n (reading cs p) = reading (cs.drop n) q := by
  induction n generalizing cs p with
  | zero => exact ⟨p, rfl⟩
  | succ n ih =>
    match cs with
    | [] => simpa [advanceBy, advance] using ih [] p
    | [_] => simpa [advanceBy, advance] using ih [] p
    | _ :: d :: ds => simpa [advanceBy, advance] using ih (d :: ds) (p.next d)

theorem ahead_advanceBy (n : Nat) (cs : List Char) (p : Location) :
    (advanceBy n (reading cs p)).ahead = cs.drop n := by
  obtain ⟨q, h⟩ := advanceBy_reading n cs p
  rw [h, ahead_reading]

private theorem next_reading (cs : List Char) (p : Location) :
    ∃ q, (reading cs p).next =
      (reading (cs.drop (cs.takeWhile Lexeme.isBlank).length) q).lexeme := by
  obtain ⟨q, hq⟩ := advanceBy_reading (cs.takeWhile Lexeme.isBlank).length cs p
  exact ⟨q, by rw [next, skipBlanks, ahead_reading, hq]⟩

/-- Asking for a token never leaves more text ahead. -/
theorem ahead_next_le (s : Scanner) : s.next.2.ahead.length ≤ s.ahead.length := by
  cases s with
  | fresh cs => simp [next, skipBlanks, lexeme, advanceBy, Lexeme.read]
  | reading cs p =>
    obtain ⟨q, hq⟩ := next_reading cs p
    simp only [hq, lexeme, ahead_advanceBy, ahead_reading, List.length_drop]
    omega

/-- A token other than `eof` uses up some of the text ahead. -/
theorem ahead_next_lt {s : Scanner} {t : Token} (h : s.next.1 = .ok t) (ht : t.kind ≠ .eof) :
    s.next.2.ahead.length < s.ahead.length := by
  cases s with
  | fresh cs =>
    simp only [next, skipBlanks, ahead_fresh, List.takeWhile_nil, List.length_nil, advanceBy,
      lexeme, Lexeme.read, Except.ok.injEq] at h
    exact absurd (h ▸ rfl) ht
  | reading cs p =>
    obtain ⟨q, hq⟩ := next_reading cs p
    rw [hq, lexeme, ahead_reading] at h
    rw [hq, lexeme, ahead_reading, ahead_advanceBy, List.length_drop]
    generalize hr : Lexeme.read (cs.drop (cs.takeWhile Lexeme.isBlank).length) = r at h ⊢
    obtain ⟨n, _ | k⟩ := r
    · simp at h
    · obtain rfl : k = t.kind := by
        simp only [Except.ok.injEq] at h
        rw [← h]
      obtain ⟨hn, hne⟩ := Lexeme.used_pos_of_read hr ht
      have := List.length_pos_iff.2 hne
      simp only [List.length_drop, ahead_reading] at this ⊢
      omega

/-- The tokens from here to the first `eof`, which is the last of them, or up to the error that
stops them. -/
def tokens (s : Scanner) : List Token × Option LexError :=
  match h : s.next.1 with
  | .error e => ([], some e)
  | .ok t =>
    if ht : t.kind = .eof then ([t], none)
    else
      have := ahead_next_lt h ht
      let (ts, e) := s.next.2.tokens
      (t :: ts, e)
termination_by s.ahead.length

end Scanner

def tokenize (text : String) : List Token × Option LexError :=
  (Scanner.fresh text.toList).advance.tokens

end SmallLisp

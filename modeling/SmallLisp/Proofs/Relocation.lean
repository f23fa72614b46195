import SmallLisp.Proofs.Reading

/-!
# Moving a text

What is read from a text does not depend on where the text starts. If its places are moved, those of
its tokens, trees and errors move with them, and nothing else changes.
-/
namespace SmallLisp

open SmallLisp.Parser

variable (f : Location → Location)

def Token.relocate (t : Token) : Token := ⟨t.kind, f t.location⟩

def LexError.relocate (e : LexError) : LexError := ⟨e.cause, f e.location⟩

def ParseError.relocate : ParseError → ParseError
  | .refused cause location => .refused cause (f location)
  | .malformed e => .malformed (e.relocate f)
  | .tooDeep => .tooDeep
  | .notStarted => .notStarted

def Symbol.relocate (s : Symbol) : Symbol := ⟨s.name, f s.location⟩

mutual

def Expr.relocate : Expr → Expr
  | .symbol s => .symbol (s.relocate f)
  | .integer value location => .integer value (f location)
  | .text contents location => .text contents (f location)
  | .define target value location => .define (target.relocate f) value.relocate (f location)
  | .call callee arguments location =>
    .call callee.relocate (Expr.relocateAll arguments) (f location)

def Expr.relocateAll : List Expr → List Expr
  | [] => []
  | e :: es => e.relocate :: Expr.relocateAll es

end

namespace Expr

/-- The tree without its places. -/
def bare : Expr → Expr := relocate fun _ => default

theorem relocateAll_eq_map (es : List Expr) : relocateAll f es = es.map (relocate f) := by
  induction es with
  | nil => rfl
  | cons e es ih => rw [relocateAll, ih, List.map_cons]

mutual

theorem relocate_id : (e : Expr) → e.relocate id = e
  | .symbol _ | .integer .. | .text .. => rfl
  | .define target value location => by
    rw [relocate, relocate_id value]
    rfl
  | .call callee arguments location => by
    rw [relocate, relocate_id callee, relocateAll_id arguments]
    rfl

theorem relocateAll_id : (es : List Expr) → relocateAll id es = es
  | [] => rfl
  | e :: es => by rw [relocateAll, relocate_id e, relocateAll_id es]

end

variable (g : Location → Location)

mutual

theorem relocate_relocate : (e : Expr) → (e.relocate f).relocate g = e.relocate (g ∘ f)
  | .symbol _ | .integer .. | .text .. => rfl
  | .define target value location => by
    rw [relocate, relocate, relocate_relocate value]
    rfl
  | .call callee arguments location => by
    rw [relocate, relocate, relocate_relocate callee, relocateAll_relocateAll arguments]
    rfl

theorem relocateAll_relocateAll : (es : List Expr) →
    relocateAll g (relocateAll f es) = relocateAll (g ∘ f) es
  | [] => rfl
  | e :: es => by
    rw [relocateAll, relocateAll, relocate_relocate e, relocateAll_relocateAll es]
    rfl

end

theorem bare_relocate (e : Expr) : (e.relocate f).bare = e.bare := relocate_relocate f _ e

end Expr

/-! ## Readings -/

namespace Parser

def Waiting.relocate : Waiting → Waiting
  | .head location => .head (f location)
  | .value location target => .value (f location) (target.relocate f)
  | .argument location callee arguments =>
    .argument (f location) (callee.relocate f) (arguments.map (Expr.relocate f))

def State.relocate : State → State
  | .expression forms => .expression (forms.map (Waiting.relocate f))
  | .naming location forms => .naming (f location) (forms.map (Waiting.relocate f))
  | .finishing location target value forms =>
    .finishing (f location) (target.relocate f) (value.relocate f) (forms.map (Waiting.relocate f))

def Step.relocate : Step → Step
  | .goOn s => .goOn (s.relocate f)
  | .done e => .done (e.relocate f)

def Progress.relocate (g : Progress) : Progress :=
  ⟨g.finished.map (Expr.relocate f), g.state.relocate f⟩

theorem deliver_relocate (e : Expr) (forms : List Waiting) :
    deliver (e.relocate f) (forms.map (Waiting.relocate f)) = (deliver e forms).relocate f := by
  match forms with
  | [] | .head _ :: _ | .value .. :: _ | .argument .. :: _ => rfl

def relocated {α : Type} (move : α → α) (outcome : Except ParseError α) : Except ParseError α :=
  (outcome.mapError (ParseError.relocate f)).map move

theorem relocated_map {α β : Type} {move : α → α} {move' : β → β} {k k' : α → β}
    (hk : ∀ a, k' (move a) = move' (k a)) (outcome : Except ParseError α) :
    (relocated f move outcome).map k' = relocated f move' (outcome.map k) := by
  cases outcome with
  | error err => rfl
  | ok a => exact congrArg Except.ok (hk a)

private theorem call_relocate (callee : Expr) (arguments : List Expr) (location : Location) :
    Expr.call (callee.relocate f) (arguments.map (Expr.relocate f)).reverse (f location) =
      (Expr.call callee arguments.reverse location).relocate f := by
  rw [Expr.relocate, Expr.relocateAll_eq_map, List.map_reverse]

theorem feedExpression_relocate (forms : List Waiting) (t : Token) :
    feedExpression (forms.map (Waiting.relocate f)) (t.relocate f) =
      relocated f (Step.relocate f) (feedExpression forms t) := by
  obtain ⟨kind, location⟩ := t
  have hleaf (e : Expr) : Except.ok (deliver (e.relocate f) (forms.map (Waiting.relocate f))) =
      relocated f (Step.relocate f) (.ok (deliver e forms)) :=
    congrArg Except.ok (deliver_relocate f e forms)
  cases kind with
  | opening =>
    simp only [feedExpression, Token.relocate, List.length_map]
    split_ifs
    · rfl
    · rfl
  | symbol name =>
    rcases forms with - | ⟨w, outer⟩
    · exact hleaf (.symbol ⟨name, location⟩)
    cases w with
    | head p =>
      by_cases hword : name = defineWord
      · simp only [feedExpression, List.map_cons, Waiting.relocate, Token.relocate, if_pos hword]
        rfl
      · simp only [feedExpression, List.map_cons, Waiting.relocate, Token.relocate, if_neg hword]
        exact hleaf (.symbol ⟨name, location⟩)
    | value | argument => exact hleaf (.symbol ⟨name, location⟩)
  | integer value => exact hleaf (.integer value location)
  | text contents => exact hleaf (.text contents location)
  | closing =>
    rcases forms with - | ⟨w, outer⟩
    · rfl
    cases w with
    | head | value => rfl
    | argument p callee arguments =>
      simp only [feedExpression, List.map_cons, Waiting.relocate, Token.relocate]
      rw [call_relocate, deliver_relocate]
      rfl
  | eof =>
    rcases forms with - | ⟨w, outer⟩
    · rfl
    cases w with
    | head | value | argument => rfl

theorem State.feed_relocate (s : State) (t : Token) :
    (s.relocate f).feed (t.relocate f) = relocated f (Step.relocate f) (s.feed t) := by
  obtain ⟨kind, location⟩ := t
  cases s with
  | expression forms => exact feedExpression_relocate f forms _
  | naming p forms =>
    cases kind with
    | symbol | opening | closing | integer | text | eof => rfl
  | finishing p target value forms =>
    cases kind with
    | closing => exact congrArg Except.ok (deliver_relocate f (.define target value p) forms)
    | symbol | opening | integer | text | eof => rfl

namespace Progress

theorem mayEnd_relocate (g : Progress) : (g.relocate f).mayEnd = g.mayEnd := by
  obtain ⟨finished, s⟩ := g
  cases s with
  | expression forms => cases forms <;> rfl
  | naming | finishing => rfl

theorem absorb_relocate (finished : List Expr) (step : Step) :
    absorb (finished.map (Expr.relocate f)) (step.relocate f) =
      (absorb finished step).relocate f := by
  cases step with
  | goOn => rfl
  | done e => simp only [absorb, Step.relocate, relocate, List.map_append]; rfl

theorem feed_relocate (g : Progress) (t : Token) :
    (g.relocate f).feed (t.relocate f) = relocated f (relocate f) (g.feed t) := by
  rw [feed, feed, mayEnd_relocate]
  by_cases hend : t.kind = .eof ∧ g.mayEnd
  · rw [if_pos hend, if_pos (show (t.relocate f).kind = .eof ∧ g.mayEnd from hend)]
    rfl
  · rw [if_neg hend, if_neg (show ¬ ((t.relocate f).kind = .eof ∧ g.mayEnd) from hend)]
    have hstep := g.state.feed_relocate f t
    rw [relocate, hstep]
    exact relocated_map f (absorb_relocate f g.finished) _

theorem feedAll_relocate (g : Progress) (ts : List Token) :
    (g.relocate f).feedAll (ts.map (Token.relocate f)) = relocated f (relocate f) (g.feedAll ts) :=
  feedAll_natural (fun _ => rfl) (fun _ => ⟨_, rfl⟩) (feed_relocate f) g ts

end Progress
end Parser

/-! ## Lexing -/

namespace Location

variable {f}

theorem map_after (hf : ∀ p c, f (p.next c) = (f p).next c) (p : Location) (cs : List Char) :
    f (p.after cs) = (f p).after cs := by
  induction cs generalizing p with
  | nil => rfl
  | cons c cs ih => rw [after_cons, after_cons, ih, hf]

/-- The place `p` of a text that follows the character at `q`, which stands in column 0. -/
def shift (q p : Location) : Location := ⟨p.offset + (q.offset + 1), p.row + (q.row - 1), p.col⟩

theorem shift_start {q : Location} (hq : q.col = 0) : q.shift start = q := by
  obtain ⟨offset, row, col⟩ := q
  obtain rfl : col = 0 := hq
  simp only [shift, start, mk.injEq, and_true]
  omega

theorem shift_next (q p : Location) (c : Char) : q.shift (p.next c) = (q.shift p).next c := by
  unfold next
  split_ifs
  · simp only [shift, mk.injEq, and_true]
    omega
  · simp only [shift, mk.injEq, and_true]
    omega

end Location

namespace Scanner

variable {f}

theorem place_relocate (hf : ∀ p c, f (p.next c) = (f p).next c) (q : Location) (cs : List Char) :
    f (place q cs) = place (f q) cs := by
  rw [place, place, Location.map_after hf, Location.map_after hf]

/-- A scanner hands out the same tokens wherever the text starts. -/
theorem Lexes.relocate (hf : ∀ p c, f (p.next c) = (f p).next c) {q : Location} {cs : List Char}
    {ts : List Token} {e : Option LexError} (h : Lexes q cs ts e) :
    Lexes (f q) cs (ts.map (Token.relocate f)) (e.map (LexError.relocate f)) := by
  induction h with
  | @finish q cs blank =>
    have hend := Lexes.finish (q := f q) blank
    rw [← place_relocate hf] at hend
    exact hend
  | @stop q cs n cause hr =>
    have hstop := Lexes.stop (q := f q) hr
    rw [← place_relocate hf] at hstop
    exact hstop
  | @token q cs n kind ts e hr hk tail ih =>
    rw [Location.map_after hf, Location.map_after hf] at ih
    have htoken := Lexes.token (q := f q) hr hk ih
    rw [← place_relocate hf] at htoken
    exact htoken

end Scanner
end SmallLisp

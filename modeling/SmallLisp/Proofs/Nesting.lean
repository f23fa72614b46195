import Mathlib.Data.List.Infix
import SmallLisp.Proofs.Reading

/-!
# Nesting

How many parentheses a list of tokens leaves open. A reading that has taken the list has that many
open forms, so the bound on open forms bounds the nesting of the text.
-/
namespace SmallLisp

open SmallLisp.Parser

/-- The number of opening parentheses less that of closing ones. -/
def Token.depth (ts : List Token) : Int :=
  (ts.countP (·.kind = .opening) : Int) - ts.countP (·.kind = .closing)

/-- Whether no more than `n` parentheses are open after any of the tokens. -/
def NestsWithin (n : Nat) (ts : List Token) : Prop := ∀ us, us <+: ts → Token.depth us ≤ n

theorem NestsWithin.of_prefix {n : Nat} {us ts : List Token} (h : NestsWithin n ts)
    (hus : us <+: ts) : NestsWithin n us := fun vs hvs => h vs (hvs.trans hus)

instance (n : Nat) (ts : List Token) : Decidable (NestsWithin n ts) :=
  decidable_of_iff (∀ us ∈ ts.inits, Token.depth us ≤ n) <| by
    simp only [List.mem_inits, NestsWithin]

/-- What a token adds to the depth. -/
def Token.Kind.weight : Token.Kind → Int
  | opening => 1
  | closing => -1
  | _ => 0

namespace Token.Kind

@[simp] theorem weight_opening : opening.weight = 1 := rfl

@[simp] theorem weight_closing : closing.weight = -1 := rfl

@[simp] theorem weight_symbol (name : String) : (symbol name).weight = 0 := rfl

@[simp] theorem weight_integer (value : Nat) : (integer value).weight = 0 := rfl

@[simp] theorem weight_text (contents : String) : (text contents).weight = 0 := rfl

@[simp] theorem weight_eof : eof.weight = 0 := rfl

end Token.Kind

@[simp] theorem Token.depth_nil : Token.depth [] = 0 := rfl

@[simp] theorem Token.depth_cons (t : Token) (ts : List Token) :
    Token.depth (t :: ts) = t.kind.weight + Token.depth ts := by
  rcases t with ⟨kind, location⟩
  cases kind <;> simp [Token.depth, Token.Kind.weight] <;> omega

@[simp] theorem Token.depth_append (us ts : List Token) :
    Token.depth (us ++ ts) = Token.depth us + Token.depth ts := by
  induction us with
  | nil => simp
  | cons u us ih => rw [List.cons_append, depth_cons, ih, depth_cons]; omega

private theorem prefix_append_cases {α : Type} {ws us vs : List α} (h : ws <+: us ++ vs) :
    ws <+: us ∨ ∃ xs, ws = us ++ xs ∧ xs <+: vs := by
  rcases List.prefix_or_prefix_of_prefix h (List.prefix_append us vs) with hws | ⟨xs, rfl⟩
  · exact .inl hws
  · exact .inr ⟨xs, rfl, (List.prefix_append_right_inj us).mp h⟩

namespace NestsWithin

theorem mono {m n : Nat} {ts : List Token} (h : NestsWithin m ts) (hmn : m ≤ n) :
    NestsWithin n ts := by
  intro us hus
  have hle := h us hus
  omega

theorem append {n : Nat} {us vs : List Token} (hus : NestsWithin n us)
    (hdepth : Token.depth us = 0) (hvs : NestsWithin n vs) : NestsWithin n (us ++ vs) := by
  intro ws hws
  rcases prefix_append_cases hws with hws | ⟨xs, rfl, hxs⟩
  · exact hus ws hws
  · have hle := hvs xs hxs
    rw [Token.depth_append, hdepth]
    omega

theorem single {t : Token} (h : t.kind.weight ≤ 0) (n : Nat) : NestsWithin n [t] := by
  intro ws hws
  rcases List.prefix_cons_iff.mp hws with rfl | ⟨xs, rfl, hxs⟩
  · simp
  · obtain rfl : xs = [] := List.prefix_nil.mp hxs
    simp only [Token.depth_cons, Token.depth_nil]
    omega

theorem opening {n : Nat} {o : Token} {ts : List Token} (ho : o.kind = .opening)
    (hts : NestsWithin n ts) : NestsWithin (n + 1) (o :: ts) := by
  intro ws hws
  rcases List.prefix_cons_iff.mp hws with rfl | ⟨xs, rfl, hxs⟩
  · simp only [Token.depth_nil]
    omega
  · have hle := hts xs hxs
    rw [Token.depth_cons, ho, Token.Kind.weight_opening]
    omega

end NestsWithin

/-- Whether tokens close what they open and nest within `n`. -/
def Balanced (n : Nat) (ts : List Token) : Prop := Token.depth ts = 0 ∧ NestsWithin n ts

namespace Balanced

theorem nil (n : Nat) : Balanced n [] := by
  refine ⟨rfl, fun ws hws => ?_⟩
  obtain rfl : ws = [] := List.prefix_nil.mp hws
  simp

theorem single {t : Token} (h : t.kind.weight = 0) (n : Nat) : Balanced n [t] := by
  refine ⟨?_, .single (Int.le_of_eq h) n⟩
  rw [Token.depth_cons, h]
  rfl

theorem mono {m n : Nat} {ts : List Token} (h : Balanced m ts) (hmn : m ≤ n) : Balanced n ts :=
  ⟨h.1, h.2.mono hmn⟩

theorem append {n : Nat} {us vs : List Token} (hus : Balanced n us) (hvs : Balanced n vs) :
    Balanced n (us ++ vs) := by
  refine ⟨?_, hus.2.append hus.1 hvs.2⟩
  rw [Token.depth_append, hus.1, hvs.1]
  rfl

theorem form {n : Nat} {o c : Token} {ts : List Token} (ho : o.kind = .opening)
    (hc : c.kind = .closing) (hts : Balanced n ts) : Balanced (n + 1) (o :: ts ++ [c]) := by
  have hclose : c.kind.weight ≤ 0 := by simp [hc]
  refine ⟨?_, ?_⟩
  · simp [Token.depth_append, ho, hc, hts.1]
  · exact .opening ho (hts.2.append hts.1 (.single hclose n))

end Balanced

namespace Parser

def State.depth : State → Nat
  | .expression forms => forms.length
  | .naming _ forms | .finishing _ _ _ forms => forms.length + 1

namespace Progress

private theorem depth_deliver (finished : List Expr) (e : Expr) (forms : List Waiting) :
    (absorb finished (deliver e forms)).state.depth = forms.length := by
  match forms with
  | [] => rfl
  | .head _ :: _ | .value .. :: _ | .argument .. :: _ => rfl

private theorem weight_leaf {t : Token} {e : Expr} (h : leaf? t = some e) : t.kind.weight = 0 := by
  rcases leaf?_cases h with ⟨name, hk, -⟩ | ⟨value, hk, -⟩ | ⟨contents, hk, -⟩
  · rw [hk, Token.Kind.weight_symbol]
  · rw [hk, Token.Kind.weight_integer]
  · rw [hk, Token.Kind.weight_text]

/-- The open forms count the parentheses that are open. -/
theorem depth_feed {g g' : Progress} {t : Token} (h : g.feed t = .ok g') :
    (g'.state.depth : Int) = g.state.depth + t.kind.weight := by
  by_cases hk : t.kind = .eof
  · rw [(feed_eof_ok h hk).1, hk]
    exact (Int.add_zero _).symm
  · obtain ⟨step, hstep, rfl⟩ := takes_of_feed_ok h hk
    obtain ⟨finished, s⟩ := g
    cases hstep with
    | opening hk =>
      rw [hk]
      rfl
    | word hk =>
      rw [hk]
      simp [absorb, State.depth]
    | leaf hleaf =>
      rw [depth_deliver, weight_leaf hleaf, Int.add_zero]
      rfl
    | call hk =>
      rw [depth_deliver, hk]
      simp only [State.depth, Token.Kind.weight_closing, List.length_cons]
      omega
    | target hk =>
      rw [hk]
      simp [absorb, State.depth]
    | define hk =>
      rw [depth_deliver, hk]
      simp only [State.depth, Token.Kind.weight_closing]
      omega

theorem depth_feedAll {g g' : Progress} {ts : List Token} (h : g.feedAll ts = .ok g') :
    (g'.state.depth : Int) = g.state.depth + Token.depth ts := by
  induction ts generalizing g with
  | nil =>
    cases h
    exact (Int.add_zero _).symm
  | cons t ts ih =>
    obtain ⟨g₁, hf, hrest⟩ := feedAll_cons_inv h
    rw [ih hrest, depth_feed hf, Token.depth_cons, Int.add_assoc]

theorem depth_of_start {g : Progress} {ts : List Token} (h : start.feedAll ts = .ok g) :
    (g.state.depth : Int) = Token.depth ts := by
  rw [depth_feedAll h]
  exact Int.zero_add _

theorem state_of_depth {g : Progress} (h : g.state.depth = 0) : g.state = .expression [] := by
  rcases hs : g.state with forms | ⟨location, forms⟩ | ⟨location, target, value, forms⟩
  · rw [hs] at h
    rw [List.eq_nil_of_length_eq_zero h]
  · rw [hs] at h
    cases h
  · rw [hs] at h
    cases h

theorem feed_error {g : Progress} {t : Token} {err : ParseError} (h : g.feed t = .error err) :
    (∃ cause, err = .refused cause t.location) ∨
      err = .tooDeep ∧ (maxNesting : Int) < g.state.depth + t.kind.weight := by
  rw [feed] at h
  split_ifs at h
  rcases hs : g.state.feed t with err' | step
  · rw [hs] at h
    cases h
    rcases Parser.feed_error hs with hcause | ⟨rfl, hk, forms, hforms, hroom⟩
    · exact .inl hcause
    · refine .inr ⟨rfl, ?_⟩
      rw [hk, hforms]
      simp only [State.depth, Token.Kind.weight_opening]
      omega
  · rw [hs] at h
    cases h

/-- Tokens that do not nest too deeply are read or refused. -/
theorem not_tooDeep_of_nestsWithin {ts : List Token} (hts : NestsWithin maxNesting ts) :
    start.feedAll ts ≠ .error .tooDeep := by
  intro h
  obtain ⟨us, t, vs, g, rfl, hus, ht⟩ := feedAll_error h
  rcases feed_error ht with ⟨cause, hc⟩ | ⟨-, hdeep⟩
  · cases hc
  · have hle := hts (us ++ [t]) ⟨vs, by simp⟩
    rw [depth_of_start hus] at hdeep
    rw [Token.depth_append, Token.depth_cons, Token.depth_nil] at hle
    omega

end Progress
end Parser

/-- A malformed token is met only behind tokens that were all taken. -/
theorem exists_reading_of_malformed {text : String} {e : LexError}
    (h : parse text = .error (.malformed e)) :
    ∃ ts g, tokenize text = (ts, some e) ∧ Progress.start.feedAll ts = .ok g := by
  rw [parse_eq] at h
  rcases ht : tokenize text with ⟨ts, stop⟩
  rw [ht] at h
  rcases hg : Progress.start.feedAll ts with err | g
  · simp only [hg] at h
    cases h
    obtain ⟨us, t, vs, g, -, -, hfeed⟩ := Progress.feedAll_error hg
    rcases Progress.feed_error hfeed with ⟨cause, hc⟩ | ⟨hc, -⟩
    · cases hc
    · cases hc
  · rcases stop with - | e'
    · simp only [hg] at h
      cases h
    · simp only [hg] at h
      cases h
      exact ⟨ts, g, rfl, hg⟩

end SmallLisp

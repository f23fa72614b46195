import SmallLisp.Proofs.Yield

/-!
# The grammar

A program is a list of expressions and the end. An expression is a leaf, a definition or a call, and
the callee of a call is not the word that makes a definition. The expressions of the grammar are the
kinds of the tokens of proper trees.
-/
namespace SmallLisp

open SmallLisp.Parser

namespace Grammar

inductive IsExpr : List Token.Kind → Prop
  | symbol (name) : IsExpr [.symbol name]
  | integer (value) : IsExpr [.integer value]
  | text (contents) : IsExpr [.text contents]
  | define (name) {value} (isExpr : IsExpr value) :
      IsExpr ([.opening, .symbol defineWord, .symbol name] ++ value ++ [.closing])
  | call {callee} {arguments : List (List Token.Kind)} (isExpr : IsExpr callee)
      (noWord : callee ≠ [.symbol defineWord]) (areExprs : ∀ a ∈ arguments, IsExpr a) :
      IsExpr ([.opening] ++ callee ++ arguments.flatten ++ [.closing])

def IsProgram (ks : List Token.Kind) : Prop :=
  ∃ exprs : List (List Token.Kind), (∀ e ∈ exprs, IsExpr e) ∧ ks = exprs.flatten ++ [.eof]

/-- Whether the tokens are a prefix of those of some program. -/
def Viable (ts : List Token) : Prop := ∃ more, IsProgram (ts.map Token.kind ++ more)

end Grammar

namespace Expr

theorem allProper_iff {es : List Expr} : AllProper es ↔ ∀ e ∈ es, e.Proper := by
  induction es with
  | nil => simp [AllProper]
  | cons e es ih => rw [AllProper, ih, List.forall_mem_cons]

theorem allProper_append {es fs : List Expr} :
    AllProper (es ++ fs) ↔ AllProper es ∧ AllProper fs := by
  simp only [allProper_iff, List.forall_mem_append]

end Expr

namespace Grammar

/-- The kinds of the tokens of an expression. -/
def kinds (e : Expr) : List Token.Kind := e.yield.map Mark.kind

theorem map_kind_yields (es : List Expr) :
    (Expr.yields es).map Mark.kind = (es.map kinds).flatten := by
  induction es with
  | nil => rfl
  | cons e es ih => rw [Expr.yields_cons, List.map_append, ih]; rfl

theorem kinds_ne_word {e : Expr} (h : ¬ IsDefineWord e) : kinds e ≠ [.symbol defineWord] := by
  intro hk
  cases e with
  | symbol s => exact h (Token.Kind.symbol.inj (List.cons.inj hk).1)
  | integer | text | define | call => cases hk

mutual

/-- A proper tree stands for an expression of the grammar. -/
theorem isExpr_kinds : (e : Expr) → e.Proper → IsExpr (kinds e)
  | .symbol s, _ => .symbol s.name
  | .integer value _, _ => .integer value
  | .text contents _, _ => .text contents
  | .define target value location, h => by
    have hvalue := IsExpr.define target.name (isExpr_kinds value h)
    simpa [kinds, Expr.yield, Expr.openingMark, Expr.defineMark, Expr.closingMark, Symbol.mark]
      using hvalue
  | .call callee arguments location, h => by
    have hcall := IsExpr.call (isExpr_kinds callee h.2.1) (kinds_ne_word h.1)
      (isExpr_of_mem_kinds arguments h.2.2)
    rw [← map_kind_yields] at hcall
    simpa [kinds, Expr.yield, Expr.openingMark, Expr.closingMark] using hcall

theorem isExpr_of_mem_kinds : (es : List Expr) → Expr.AllProper es → ∀ ks ∈ es.map kinds, IsExpr ks
  | [], _, ks, hks => by cases hks
  | e :: es, h, ks, hks => by
    rcases List.mem_cons.mp hks with rfl | hks
    · exact isExpr_kinds e h.1
    · exact isExpr_of_mem_kinds es h.2 ks hks

end

theorem map_kind_of_recorded {ts : List Token} {ms : List Mark} (h : Recorded ts ms) :
    ts.map Token.kind = ms.map Mark.kind := by
  induction h with
  | nil => rfl
  | cons hm _ ih => rw [List.map_cons, List.map_cons, hm.1, ih]

theorem exists_trees {exprs : List (List Token.Kind)}
    (hexprs : ∀ ks ∈ exprs, ∀ ts : List Token, ts.map Token.kind = ks →
      ∃ e : Expr, e.Proper ∧ Recorded ts e.yield)
    {ts : List Token} (hts : ts.map Token.kind = exprs.flatten) :
    ∃ es, Expr.AllProper es ∧ Recorded ts (Expr.yields es) := by
  induction exprs generalizing ts with
  | nil =>
    obtain rfl := List.map_eq_nil_iff.mp hts
    exact ⟨[], trivial, .nil⟩
  | cons ks exprs ih =>
    obtain ⟨us, vs, rfl, hus, hvs⟩ := List.map_eq_append_iff.mp hts
    obtain ⟨e, he, hrecord⟩ := hexprs ks (by simp) us hus
    obtain ⟨es, hes, hrecords⟩ := ih (fun k hk => hexprs k (by simp [hk])) hvs
    exact ⟨e :: es, ⟨he, hes⟩, List.rel_append hrecord hrecords⟩

private theorem recorded_at {t : Token} {kind : Token.Kind} (h : t.kind = kind) :
    Recorded [t] [⟨kind, some t.location⟩] := by
  rw [← h]
  exact .cons t.fits_at .nil

private theorem recorded_anywhere {t : Token} {kind : Token.Kind} (h : t.kind = kind) :
    Recorded [t] [⟨kind, none⟩] := .cons (Token.fits_anywhere h) .nil

/-- The tokens of an expression of the grammar have a proper tree. -/
theorem exists_tree {ks : List Token.Kind} (h : IsExpr ks) {ts : List Token}
    (hts : ts.map Token.kind = ks) : ∃ e : Expr, e.Proper ∧ Recorded ts e.yield := by
  induction h generalizing ts with
  | symbol name =>
    obtain ⟨t, rfl, ht⟩ := List.map_eq_singleton_iff.mp hts
    exact ⟨.symbol ⟨name, t.location⟩, trivial, recorded_at ht⟩
  | integer value =>
    obtain ⟨t, rfl, ht⟩ := List.map_eq_singleton_iff.mp hts
    exact ⟨.integer value t.location, trivial, recorded_at ht⟩
  | text contents =>
    obtain ⟨t, rfl, ht⟩ := List.map_eq_singleton_iff.mp hts
    exact ⟨.text contents t.location, trivial, recorded_at ht⟩
  | @define name value _ ih =>
    obtain ⟨us, vs, rfl, hus, hvs⟩ := List.map_eq_append_iff.mp hts
    obtain ⟨us, ws, rfl, hus, hws⟩ := List.map_eq_append_iff.mp hus
    obtain ⟨opening, us, rfl, hopening, hus⟩ := List.map_eq_cons_iff.mp hus
    obtain ⟨word, us, rfl, hword, hus⟩ := List.map_eq_cons_iff.mp hus
    obtain ⟨target, rfl, htarget⟩ := List.map_eq_singleton_iff.mp hus
    obtain ⟨closing, rfl, hclosing⟩ := List.map_eq_singleton_iff.mp hvs
    obtain ⟨e, he, hrecord⟩ := ih hws
    refine ⟨.define ⟨name, target.location⟩ e opening.location, he, ?_⟩
    have hhead : Recorded [opening, word, target] [Expr.openingMark opening.location,
        Expr.defineMark, (⟨name, target.location⟩ : Symbol).mark] :=
      List.rel_append (recorded_at hopening)
        (List.rel_append (recorded_anywhere hword) (recorded_at htarget))
    exact List.rel_append (List.rel_append hhead hrecord) (recorded_anywhere hclosing)
  | @call callee arguments _ hword _ ih iha =>
    obtain ⟨us, vs, rfl, hus, hvs⟩ := List.map_eq_append_iff.mp hts
    obtain ⟨us, ws, rfl, hus, hws⟩ := List.map_eq_append_iff.mp hus
    obtain ⟨us, xs, rfl, hus, hxs⟩ := List.map_eq_append_iff.mp hus
    obtain ⟨opening, rfl, hopening⟩ := List.map_eq_singleton_iff.mp hus
    obtain ⟨closing, rfl, hclosing⟩ := List.map_eq_singleton_iff.mp hvs
    obtain ⟨f, hf, hcallee⟩ := ih hxs
    obtain ⟨es, hes, harguments⟩ := exists_trees (fun ks hks ts hts => iha ks hks hts) hws
    have hnoWord : ¬ IsDefineWord f := by
      intro hd
      refine hword ?_
      rw [← hxs, map_kind_of_recorded hcallee]
      cases f with
      | symbol s => exact congrArg (fun name => [Token.Kind.symbol name]) hd
      | integer | text | define | call => exact hd.elim
    refine ⟨.call f es opening.location, ⟨hnoWord, hf, hes⟩, ?_⟩
    exact List.rel_append (List.rel_append (List.rel_append (recorded_at hopening) hcallee)
      harguments) (recorded_anywhere hclosing)

end Grammar

end SmallLisp

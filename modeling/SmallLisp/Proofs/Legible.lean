import SmallLisp.Proofs.Failures
import SmallLisp.Proofs.Quoting

/-!
# Legible output

While the host only has texts run, every value comes from a text: integers have the size of a
literal, and texts have no backslash, which a text could not write. So the built-in native writes
one line for each of its calls, and from the line its arguments can be read again.
-/
namespace SmallLisp

open SmallLisp.Lexeme SmallLisp.Scanner

variable {η : Type}

/-! ## Values that come from texts -/

/-- Whether a value may come about where texts are run and nothing else is done. -/
def Value.Legible : Value η → Prop
  | .integer n => 0 ≤ n ∧ n ≤ maxInteger
  | .text contents => '\\' ∉ contents.toList
  | .nothing => True
  | .deferred => False
  | .native name function => name = "debug" ∧ function = .debug

def Value.isLiteral : Value η → Bool
  | .integer _ | .text _ => true
  | _ => false

/-- Whether a token of this kind writes the value. -/
inductive Value.Literal : Value η → Token.Kind → Prop
  | integer (n : Nat) : Literal (.integer n) (.integer n)
  | text (contents : String) : Literal (.text contents) (.text contents)

def Event.Legible : Event η → Prop
  | .bound _ value _ => value.Legible
  | .invoked name function arguments =>
    name = "debug" ∧ function = .debug ∧ ∀ v ∈ arguments, v.Legible
  | .wrote _ | .noted _ => True

namespace Env

/-- Whether all values that are bound, and all that ever were given to a native, are legible. -/
structure Legible (e : Env η) : Prop where
  binds : e.Binds Value.Legible
  history : ∀ event ∈ e.history, event.Legible

theorem legible_initial : (initial : Env η).Legible := by
  constructor
  · intro s hs b hb
    obtain rfl := List.mem_singleton.mp hs
    obtain rfl := List.mem_singleton.mp hb
    exact ⟨rfl, rfl⟩
  · intro event hevent
    obtain rfl := List.mem_singleton.mp hevent
    exact ⟨rfl, rfl⟩

theorem Legible.record {e : Env η} (h : e.Legible) {event : Event η} (hevent : event.Legible) :
    (e.record event).Legible := ⟨h.binds, List.forall_mem_cons.mpr ⟨hevent, h.history⟩⟩

theorem Legible.write {e : Env η} (h : e.Legible) (line : String) : (e.write line).Legible :=
  ⟨h.binds, List.forall_mem_cons.mpr ⟨trivial, h.history⟩⟩

theorem Legible.note {e : Env η} (h : e.Legible) (remark : String) :
    (e.record (.noted remark)).Legible :=
  ⟨h.binds, List.forall_mem_cons.mpr ⟨trivial, h.history⟩⟩

theorem Legible.bind {e e' : Env η} (h : e.Legible) {name : String} {value : Value η}
    (hvalue : value.Legible) {location : Option Location}
    (hbind : e.bind name value location = .ok e') : e'.Legible := by
  obtain ⟨s, hs, rfl⟩ := bind_ok hbind
  have hset : Legible { e with scopes := e.scopes.set e.innermost s } :=
    ⟨h.binds.bind hvalue hs, h.history⟩
  exact hset.record hvalue

end Env

theorem Interpreter.legible_prepare {i : Interpreter η} (h : i.env.Legible) (p : Program) :
    (i.prepare p).Legible := by
  rw [prepare]
  split_ifs
  · exact (h.write (p.tree.outline 0)).note (i.remark p)
  · exact h.note (i.remark p)

/-! ## Lines -/

theorem notMem_intercalate {α : Type} {a : α} {sep : List α} (hsep : a ∉ sep) {lists : List (List α)}
    (h : ∀ l ∈ lists, a ∉ l) : a ∉ sep.intercalate lists := by
  induction lists with
  | nil => simp
  | cons l lists ih =>
    obtain ⟨hl, hlists⟩ := List.forall_mem_cons.mp h
    cases lists with
    | nil => simpa using hl
    | cons l' lists =>
      rw [List.intercalate_cons_cons]
      simp [hl, hsep, ih hlists]

namespace Value

theorem noBreak_render {v : Value η} (h : v.Legible) : '\n' ∉ v.render.toList := by
  cases v with
  | integer n =>
    obtain ⟨k, rfl⟩ := Int.eq_ofNat_of_zero_le h.1
    have hdigits : (render (.integer k : Value η)).toList = Nat.toDigits 10 k := Nat.toList_repr
    rw [hdigits]
    intro hbreak
    cases isDigit_of_mem_toDigits hbreak
  | text contents => exact Escape.notMem_quote (.inl rfl) contents
  | nothing =>
    show '\n' ∉ "none".toList
    decide
  | deferred => exact h.elim
  | native name function =>
    obtain ⟨rfl, rfl⟩ := h
    show '\n' ∉ "<native debug>".toList
    decide

/-- What the built-in native writes for some values. -/
def line (arguments : List (Value η)) : String := " ".intercalate (arguments.map render)

theorem noBreak_line {arguments : List (Value η)} (h : ∀ v ∈ arguments, v.Legible) :
    '\n' ∉ (line arguments).toList := by
  rw [line, String.toList_intercalate]
  apply notMem_intercalate (by decide)
  intro cs hcs
  obtain ⟨v, hv, rfl⟩ : ∃ v ∈ arguments, v.render.toList = cs := by simpa using hcs
  exact noBreak_render (h v hv)

theorem exists_literals {arguments : List (Value η)} (h : ∀ v ∈ arguments, v.Legible)
    (hliteral : ∀ v ∈ arguments, v.isLiteral = true) :
    ∃ ks, List.Forall₂ Literal arguments ks := by
  induction arguments with
  | nil => exact ⟨[], .nil⟩
  | cons v arguments ih =>
    obtain ⟨hv, hrest⟩ := List.forall_mem_cons.mp h
    obtain ⟨hv', hrest'⟩ := List.forall_mem_cons.mp hliteral
    obtain ⟨ks, hks⟩ := ih hrest hrest'
    cases v with
    | integer n =>
      obtain ⟨k, rfl⟩ := Int.eq_ofNat_of_zero_le hv.1
      exact ⟨_, .cons (.integer k) hks⟩
    | text contents => exact ⟨_, .cons (.text contents) hks⟩
    | nothing | deferred | native => cases hv'

theorem lexedAs_literal {v : Value η} {kind : Token.Kind} (h : v.Legible) (hkind : v.Literal kind)
    {rest : List Char} (hrest : Separate rest) : LexedAs v.render.toList [kind] rest := by
  have hends := ends_of_separate hrest kind
  cases hkind with
  | integer n => exact lexedAs_writes (writes_integer n) (Int.ofNat_le.mp h.2) hends
  | text contents => exact lexedAs_writes (writes_text h) trivial hends

/-- A line of literals is lexed as these, each with a space in front but for the first one. -/
theorem lexedAs_line {arguments : List (Value η)} (h : ∀ v ∈ arguments, v.Legible)
    {ks : List Token.Kind} (hks : List.Forall₂ Literal arguments ks) {rest : List Char}
    (hrest : Separate rest) : LexedAs (line arguments).toList ks rest := by
  induction hks with
  | nil => exact fun _ ts e hlexes => ⟨[], rfl, by simpa [line] using hlexes⟩
  | @cons v kind arguments ks hkind hks ih =>
    obtain ⟨hv, harguments⟩ := List.forall_mem_cons.mp h
    have htail := ih harguments
    cases hks with
    | nil => simpa [line] using lexedAs_literal hv hkind hrest
    | @cons v' kind' arguments ks hkind' hks =>
      have hspace : IsGap [' '] := isGap_singleton rfl
      have hseparate : Separate ([' '] ++ (line (v' :: arguments)).toList ++ rest) := by
        rw [List.append_assoc]
        exact separate_gap hspace _
      have hfirst := lexedAs_literal hv hkind hseparate
      have hgap := lexedAs_gap hspace ((line (v' :: arguments)).toList ++ rest)
      have hline : (line (v :: v' :: arguments)).toList =
          v.render.toList ++ ([' '] ++ (line (v' :: arguments)).toList) := by
        simp [line, String.intercalate_cons_cons]
      rw [hline]
      exact hfirst.append (hgap.append htail)

/-- Where a line of literals ends, and some blanks with it, only its literals have been read. -/
theorem tokenize_line {arguments : List (Value η)} (h : ∀ v ∈ arguments, v.Legible)
    {ks : List Token.Kind} (hks : List.Forall₂ Literal arguments ks) {blanks : String}
    (hblanks : ∀ c ∈ blanks.toList, isBlank c = true) :
    (tokenize (line arguments ++ blanks)).1.map Token.kind = ks ++ [.eof] ∧
      (tokenize (line arguments ++ blanks)).2 = none := by
  have hseparate : Separate blanks.toList := by
    cases hcs : blanks.toList with
    | nil => exact fun c hc => by cases hc
    | cons b bs =>
      rw [hcs] at hblanks
      exact separate_blank (hblanks b List.mem_cons_self) bs
  have hend : Lexes (.ofLast ([] ++ (line arguments).toList)) blanks.toList _ _ :=
    .of_cuts (.finish hblanks)
  obtain ⟨us, hus, hlexes⟩ := lexedAs_line h hks hseparate [] _ _ hend
  rw [← String.toList_append] at hlexes
  have htokens := tokenize_eq_iff.mpr hlexes
  rw [htokens]
  exact ⟨by simp [hus], rfl⟩

end Value

/-! ## Evaluation -/

namespace Action

variable {α β : Type}

/-- Whether an action goes from legible environments to legible ones, with a result that is as `post`
says. -/
def Legible (post : α → Prop) (x : Action η α) : Prop :=
  ∀ e : Env η, e.Legible → (x.run.run e).2.Legible ∧ ∀ a, (x.run.run e).1 = .ok a → post a

theorem legible_pure {a : α} {post : α → Prop} (h : post a) : Legible post (pure a : Action η α) := by
  intro e he
  refine ⟨he, fun b hb => ?_⟩
  cases hb
  exact h

theorem legible_fail (cause : EvalError.Cause) (location : Option Location) (post : α → Prop) :
    Legible post (fail cause location : Action η α) := fun _ he => ⟨he, fun _ hb => by cases hb⟩

theorem Legible.bind {x : Action η α} {k : α → Action η β} {post : α → Prop} {post' : β → Prop}
    (hx : Legible post x) (hk : ∀ a, post a → Legible post' (k a)) : Legible post' (x >>= k) := by
  intro e he
  obtain ⟨henv, hpost⟩ := hx e he
  rw [run_bind]
  rcases hrun : x.run.run e with ⟨err | a, e₁⟩
  · rw [hrun] at henv
    exact ⟨henv, fun _ hb => by cases hb⟩
  · rw [hrun] at henv hpost
    exact hk a (hpost a rfl) e₁ henv

theorem legible_resolve (name : String) (location : Option Location) :
    Legible Value.Legible (resolve name location : Action η (Value η)) := by
  intro e he
  rw [run_resolve]
  exact ⟨he, fun value hvalue => he.binds.resolve hvalue⟩

theorem legible_define (name : String) {value : Value η} (hvalue : value.Legible)
    (location : Option Location) :
    Legible (fun _ => True) (Action.bind name value location : Action η Unit) := by
  intro e he
  rw [run_define]
  rcases hbind : e.bind name value location with err | e'
  · exact ⟨he, fun _ _ => trivial⟩
  · exact ⟨he.bind hvalue hbind, fun _ _ => trivial⟩

variable [Host η]

theorem legible_invoke {arguments : List (Value η)} (h : ∀ v ∈ arguments, v.Legible) :
    Legible Value.Legible (invoke "debug" .debug arguments) := by
  intro e he
  have hcall : (e.record (.invoked "debug" .debug arguments)).Legible := he.record ⟨rfl, rfl, h⟩
  refine ⟨hcall.write _, fun value hvalue => ?_⟩
  cases hvalue
  trivial

end Action

variable [Host η]

namespace Expr

open SmallLisp.Action

mutual

theorem eval_legible : (x : Expr) → x.WellFormed →
    Action.Legible Value.Legible (x.eval : Action η (Value η))
  | .symbol s, _ => legible_resolve s.name (some s.location)
  | .integer value _, h => legible_pure ⟨Int.natCast_nonneg value, Int.ofNat_le.mpr h⟩
  | .text contents _, h => legible_pure h
  | .define target value location, h => by
    apply (eval_legible value h.2).bind
    intro v hv
    apply (legible_define target.name hv (some location)).bind
    intro _ _
    exact legible_pure trivial
  | .call callee arguments location, h => by
    apply (eval_legible callee h.2.1).bind
    intro v hv
    cases v with
    | native name function =>
      obtain ⟨rfl, rfl⟩ := hv
      apply (evalAll_legible arguments h.2.2).bind
      intro values hvalues
      exact legible_invoke hvalues
    | integer | text | nothing => exact legible_fail _ _ _
    | deferred => exact hv.elim

theorem evalAll_legible : (xs : List Expr) → AllWellFormed xs →
    Action.Legible (fun values => ∀ v ∈ values, v.Legible) (evalAll xs : Action η (List (Value η)))
  | [], _ => legible_pure fun _ hv => by cases hv
  | x :: xs, h => by
    apply (eval_legible x h.1).bind
    intro v hv
    apply (evalAll_legible xs h.2).bind
    intro values hvalues
    exact legible_pure (List.forall_mem_cons.mpr ⟨hv, hvalues⟩)

end

end Expr

theorem Program.eval_legible {p : Program} (h : p.WellFormed) :
    Action.Legible (fun _ => True) (p.eval : Action η (Value η)) := by
  apply (Expr.evalAll_legible p.exprs h).bind
  intro _ _
  exact Action.legible_pure trivial

theorem Event.legible_replay {event : Event η} (h : event.Legible) {e : Env η} (he : e.Legible) :
    (event.replay e).Legible := by
  cases event with
  | bound name value depth =>
    rw [replay]
    rcases hbind : e.bind name value none with err | e'
    · exact he
    · exact he.bind h hbind
  | invoked name function arguments =>
    obtain ⟨rfl, rfl, harguments⟩ := h
    exact (Action.legible_invoke harguments e he).1
  | wrote | noted => exact he

theorem Env.legible_after {e : Env η} (he : e.Legible) {effects : List (Effect η)}
    (h : ∀ effect ∈ effects, effect.event.Legible) : (e.after effects).Legible := by
  induction effects using List.reverseRecOn with
  | nil => exact he
  | append_singleton effects effect ih =>
    rw [after_snoc]
    apply Event.legible_replay (h effect (by simp))
    exact ih fun effect' heffect => h effect' (List.mem_append_left _ heffect)

/-! ## Interpreters that only run texts -/

namespace Interpreter

/-- The interpreters that come about where texts are loaded and run, by whatever their reporter is
used for, and the host does nothing else. -/
inductive Untouched : Interpreter η → Prop
  | start {r path typed showTree i} (started : start r path typed showTree = .ok i) : Untouched i
  | load {i} (before : Untouched i) (files : Files) : Untouched (i.load files).2
  | run {i} (before : Untouched i) (text : String) : Untouched (i.runText text).2
  | share {i r} (before : Untouched i) (shared : i.reporter.Shared r) :
      Untouched { i with reporter := r }

theorem Untouched.reachable {i : Interpreter η} (h : i.Untouched) : i.Reachable := by
  induction h with
  | start started => exact .start started
  | load before files ih => exact .step ih (.load _ files)
  | run before text ih => exact .step ih (.run _ text)
  | share before shared ih => exact .share ih shared

theorem legible_runText {i : Interpreter η} (h : i.env.Legible) (text : String) :
    (i.runText text).2.env.Legible := by
  rcases hparse : parse text with err | p
  · rw [runText_refused hparse]
    exact h
  · rw [env_runText hparse]
    exact (Program.eval_legible (wellFormed_of_parse hparse) _ (legible_prepare h p)).1

theorem Untouched.legible {i : Interpreter η} (h : i.Untouched) : i.env.Legible := by
  induction h with
  | start started =>
    rw [Interpreter.start] at started
    split_ifs at started
    cases started
    exact Env.legible_initial
  | @load i before files ih =>
    rw [Interpreter.load]
    split
    · exact ih
    · split
      · exact ih
      · exact ih.note _
  | run before text ih => exact legible_runText ih text
  | share before shared ih => exact ih

end Interpreter

/-- Output can be read back. While an interpreter only runs texts, all values that are bound and all
that are given to a native are integers of the size of a literal, texts without a backslash, no value
or the built-in native, at any time. Each call of the native writes one line without a line feed in
it. If its arguments are integers and texts, the line is lexed, with the line feed or any other
blanks behind it, as one literal for each argument, in their order, and as the end of the text. -/
theorem output_reads_back {i : Interpreter η} (hi : i.Untouched) :
    i.env.Legible ∧ ∀ text, match parse text with
    | .error _ => (i.runText text).2.env = i.env
    | .ok p => ∃ effects, i.Leaves p effects (i.runText text).2.env ∧
      (∀ earlier, earlier <+: effects → ((i.prepare p).after earlier).Legible) ∧
      ∀ effect ∈ effects, effect.event.Legible ∧
        ∀ name function arguments, effect.event = .invoked name function arguments →
          ∃ line, effect.event.printed? = some line ∧ '\n' ∉ line.toList ∧
            ((∀ v ∈ arguments, v.isLiteral = true) →
              ∃ ks, List.Forall₂ Value.Literal arguments ks ∧
                ∀ blanks : String, (∀ c ∈ blanks.toList, isBlank c = true) →
                  (tokenize (line ++ blanks)).1.map Token.kind = ks ++ [.eof] ∧
                    (tokenize (line ++ blanks)).2 = none) := by
  refine ⟨hi.legible, fun text => ?_⟩
  rcases hparse : parse text with err | p
  · rw [Interpreter.runText_refused hparse]
  obtain ⟨effects, hleaves, -⟩ := Interpreter.exists_leaves hi.reachable.ready.kept p
  rw [← Interpreter.env_runText hparse] at hleaves
  have hlegible : ∀ effect ∈ effects, effect.event.Legible := by
    intro effect heffect
    have hend := Interpreter.legible_runText hi.legible text
    obtain ⟨new, hnew, hevents⟩ := hleaves.course.recorded
    have hmem : effect.event ∈ Event.effects new.reverse := by
      rw [hevents]
      exact List.mem_map_of_mem heffect
    rw [hleaves.env] at hend
    apply hend.history
    rw [hnew]
    exact List.mem_append_left _ (List.mem_reverse.mp (List.mem_filter.mp hmem).1)
  refine ⟨effects, hleaves, ?_, ?_⟩
  · intro earlier hearlier
    apply Env.legible_after (Interpreter.legible_prepare hi.legible p)
    exact fun effect heffect => hlegible effect (hearlier.subset heffect)
  · intro effect heffect
    refine ⟨hlegible effect heffect, fun name function arguments hevent => ?_⟩
    obtain ⟨rfl, rfl, harguments⟩ : name = "debug" ∧ function = .debug ∧
        ∀ v ∈ arguments, v.Legible := by
      have hcalled := hlegible effect heffect
      rwa [hevent] at hcalled
    refine ⟨Value.line arguments, by rw [hevent]; rfl, Value.noBreak_line harguments, ?_⟩
    intro hliteral
    obtain ⟨ks, hks⟩ := Value.exists_literals harguments hliteral
    exact ⟨ks, hks, fun blanks hblanks => Value.tokenize_line harguments hks hblanks⟩

/-- A text with a quote, a line feed and a parenthesis that goes through a definition. -/
theorem output_reads_back_quoted :
    let i₀ : Interpreter Empty := .create ⟨true, false, []⟩ "file" false false
    let i := (i₀.runText "(define s \"a \\\"b\\n(\")").2
    let i' := (i.runText "(debug s 12 debug) (debug \"\" s)").2
    i.env.Legible ∧ i'.env.Legible ∧ (i.env.scope Env.global).get? "s" = some (.text "a \"b\n(") ∧
      Event.output i'.env.journal =
        "\"a \\\"b\\n(\" 12 <native debug>\n\"\" \"a \\\"b\\n(\"\n" ∧
      (tokenize "\"\" \"a \\\"b\\n(\"\n").1.map Token.kind =
        [.text "", .text "a \"b\n(", .eof] := by
  intro i₀ i i'
  have hstart : Interpreter.start ⟨true, false, []⟩ "file" false false = .ok i₀ := rfl
  have hi : i.Untouched := .run (.start hstart) _
  have hi' : i'.Untouched := .run hi _
  obtain ⟨hlegible, -⟩ := output_reads_back hi
  obtain ⟨hlegible', -⟩ := output_reads_back hi'
  refine ⟨hlegible, hlegible', ?_, ?_, ?_⟩
  · decide +kernel
  · decide +kernel
  · decide +kernel

end SmallLisp

import SmallLisp.Proofs.Interactive
import SmallLisp.Proofs.WriteOnce

/-!
# Runs that fail

An interpreter that was refused a text goes on as if it had not seen it, but for the text that is
kept for reports. One whose program fails keeps what the program did up to then, and nothing else.
-/
namespace SmallLisp

variable {η : Type}

/-! ## Texts of a reporter -/

theorem Keyed.put_of_mem {α : Type} (name : String) (entry : α) {entries : List (String × α)}
    (h : name ∈ entries.map Prod.fst) :
    ∃ before old after, name ∉ before.map Prod.fst ∧ entries = before ++ (name, old) :: after ∧
      put name entry entries = before ++ (name, entry) :: after := by
  induction entries with
  | nil => cases h
  | cons first rest ih =>
    obtain ⟨other, old⟩ := first
    by_cases hname : other = name
    · subst hname
      exact ⟨[], old, rest, List.not_mem_nil, rfl, by simp [put]⟩
    · have hrest : name ∈ rest.map Prod.fst := by simpa [Ne.symm hname] using h
      obtain ⟨before, last, after, hnew, hentries, hput⟩ := ih hrest
      refine ⟨(other, old) :: before, last, after, ?_, by rw [hentries]; rfl, ?_⟩
      · simpa [Ne.symm hname] using hnew
      · rw [put, if_neg hname, hput]
        rfl

namespace Reporter

/-- Whether all that changed is that the text of `path` is now `text`. -/
structure Renewed (r r' : Reporter) (path text : String) : Prop where
  fatal : r'.fatal = r.fatal
  color : r'.color = r.color
  sources : ∃ before old after, path ∉ before.map Prod.fst ∧
    r.sources = before ++ (path, old) :: after ∧ r'.sources = before ++ (path, some text) :: after

theorem renewed_register {r : Reporter} {path : String} (h : path ∈ r.sources.map Prod.fst)
    (text : String) : r.Renewed (r.register path (some text)) path text :=
  ⟨rfl, rfl, Keyed.put_of_mem path (some text) h⟩

theorem mem_register (r : Reporter) (path : String) (text : Option String) :
    path ∈ (r.register path text).sources.map Prod.fst := by
  rw [register, Keyed.names_put]
  by_cases h : path ∈ r.sources.map Prod.fst
  · rwa [if_pos h]
  · simp [h]

/-- What others do to a reporter that they share. -/
inductive Shared : Reporter → Reporter → Prop
  | register (r : Reporter) (path : String) (text : Option String) : Shared r (r.register path text)
  | spare (r : Reporter) : Shared r { r with fatal := false }

theorem Shared.registered {r r' : Reporter} (h : r.Shared r') {path : String}
    (hpath : path ∈ r.sources.map Prod.fst) : path ∈ r'.sources.map Prod.fst := by
  cases h with
  | register other text =>
    rw [Reporter.register, Keyed.names_put]
    by_cases hother : other ∈ r.sources.map Prod.fst
    · rwa [if_pos hother]
    · rw [if_neg hother]
      exact List.mem_append_left _ hpath
  | spare => exact hpath

end Reporter

/-! ## What the effects of a program leave -/

theorem Lines.unlines_append (lines lines' : List String) :
    unlines (lines ++ lines') = unlines lines ++ unlines lines' := by
  rw [unlines, List.map_append, String.join_append]
  rfl

namespace Event

/-- The line that the built-in native writes. -/
def printed? : Event η → Option String
  | invoked _ .debug arguments => some (" ".intercalate (arguments.map Value.render))
  | _ => none

def binding? : Event η → Option (String × Value η)
  | bound name value _ => some (name, value)
  | _ => none

theorem output_append (events events' : List (Event η)) :
    output (events ++ events') = output events ++ output events' := by
  rw [output, List.filterMap_append, Lines.unlines_append]
  rfl

theorem output_record (e : Env η) (event : Event η) :
    output (e.record event).journal = output e.journal ++ output [event] := by
  rw [Env.journal, Env.record, List.reverse_cons, output_append]
  rfl

theorem output_replay [Host η] (event : Event η) (e : Env η) :
    output (event.replay e).journal =
      output e.journal ++ Lines.unlines event.printed?.toList := by
  have hsame : output e.journal = output e.journal ++ "" := String.append_empty.symm
  cases event with
  | bound name value depth =>
    rw [replay]
    rcases hbind : e.bind name value none with err | e'
    · exact hsame
    · obtain ⟨s, -, rfl⟩ := Env.bind_ok hbind
      exact output_record _ _
  | invoked name function arguments =>
    cases function with
    | debug =>
      let called := e.record (.invoked name .debug arguments)
      let line := " ".intercalate (arguments.map Value.render)
      calc output (called.record (.wrote line)).journal
          = output called.journal ++ output [.wrote line] := output_record _ _
        _ = output e.journal ++ "" ++ output [.wrote line] := by rw [output_record]; rfl
        _ = output e.journal ++ output [.wrote line] := by rw [String.append_empty]
    | host function =>
      rw [replay, Action.run_host rfl, Env.journal, Action.history_moves]
      exact output_record _ _
  | wrote | noted => exact hsame

end Event

namespace Interpreter

/-- What use of an interpreter keeps. -/
structure Ready (i : Interpreter η) : Prop where
  kept : i.env.Kept
  registered : i.path ∈ i.reporter.sources.map Prod.fst

theorem ready_of_start {r : Reporter} {path : String} {typed showTree : Bool} {i : Interpreter η}
    (h : start r path typed showTree = .ok i) : i.Ready := by
  rw [start] at h
  split_ifs at h with hreserved
  cases h
  refine ⟨Env.kept_initial, ?_⟩
  have hregistered := r.mem_register path none
  cases typed with
  | false => exact hregistered
  | true => exact hregistered

/-- The environment in which a program is evaluated. -/
def prepare (i : Interpreter η) (p : Program) : Env η :=
  (if i.showTree then i.env.write (p.tree.outline 0) else i.env).record (.noted (i.remark p))

theorem becomes_prepare (i : Interpreter η) (p : Program) : i.env.Becomes (i.prepare p) := by
  rw [prepare]
  split_ifs
  · exact (Env.Step.record _ _).becomes.trans (Env.Step.record _ _).becomes
  · exact (Env.Step.record _ _).becomes

theorem output_prepare (i : Interpreter η) (p : Program) :
    Event.output (i.prepare p).journal = Event.output i.env.journal ++
      if i.showTree then p.tree.outline 0 ++ "\n" else "" := by
  rw [prepare, Event.output_record]
  split_ifs
  · let tree := p.tree.outline 0
    have htree : Event.output [(.wrote tree : Event η)] = tree ++ "\n" := String.empty_append
    rw [Env.write, Event.output_record, htree]
    exact String.append_empty
  · rfl

theorem prepare_eq (i : Interpreter η) (p : Program) :
    ∃ history, i.prepare p = ⟨i.env.scopes, i.env.entered, history⟩ := by
  rw [prepare]
  split_ifs
  · exact ⟨_, rfl⟩
  · exact ⟨_, rfl⟩

theorem gained_prepare {i : Interpreter η} {p : Program} {e : Env η} {names : List String}
    (h : (i.prepare p).Gained e names) : i.env.Gained e names := by
  obtain ⟨history, hprepare⟩ := i.prepare_eq p
  rw [hprepare] at h
  exact ⟨h.entered, h.count, h.outer, h.bindings, h.distinct, h.new⟩

end Interpreter

variable [Host η]

theorem Env.output_after (e : Env η) (effects : List (Effect η)) :
    Event.output (e.after effects).journal = Event.output e.journal ++
      Lines.unlines (effects.filterMap fun effect => effect.event.printed?) := by
  induction effects using List.reverseRecOn with
  | nil => exact String.append_empty.symm
  | append_singleton effects effect ih =>
    rw [after_snoc, Event.output_replay, ih, List.filterMap_append, Lines.unlines_append,
      String.append_assoc]
    cases hprinted : effect.event.printed? with
    | none => simp [hprinted]
    | some line => simp [hprinted]

/-- While no native moves between scopes, all that is bound is bound in one scope. -/
theorem Course.bindings (hstill : Host.Still η) {e : Env η} (he : e.innermost < e.scopes.length)
    {effects : List (Effect η)} (h : Course e effects) :
    ((e.after effects).scope e.innermost).bindings = (e.scope e.innermost).bindings ++
      effects.filterMap fun effect => effect.event.binding? := by
  -- The scope that is innermost stays so before each effect, as `Env.Gained.entered` has it.
  induction h with
  | start => exact (List.append_nil _).symm
  | @step effects effect before follows ih =>
    have hgained := before.gained hstill he
    rw [Env.after_snoc, List.filterMap_append, ← List.append_assoc, ← ih]
    cases follows with
    | define earlier inner nodes evaluated binds =>
      have hinnermost : (e.after (earlier ++ inner)).innermost = e.innermost := by
        rw [Env.innermost, hgained.entered, Env.innermost]
      have hmade : (e.after (earlier ++ inner)).innermost <
          (e.after (earlier ++ inner)).scopes.length := by
        rw [hinnermost, hgained.count]
        exact he
      rw [(Event.replay_bound binds _).1, (Env.scope_bind hmade binds).2, if_pos hinnermost.symm]
      rfl
    | call earlier inner outer nodes evaluated nodes' evaluated' =>
      rw [Env.scope, (Event.scopes_invoked hstill _ _ _ _).1]
      exact (List.append_nil _).symm

theorem Program.eval_traced (p : Program) (e : Env η) :
    Action.Traced (Expr.postorders p.exprs) e (p.eval.run.run e) := by
  rw [← List.append_nil (Expr.postorders p.exprs)]
  apply Action.traced_bind (Expr.evalAll_traced p.exprs e)
  intro _ e₁ _
  exact Action.traced_idle _ e₁

/-! ## Interpreters in use -/

namespace Interpreter

/-- One use that the owner of an interpreter makes of it. -/
inductive Step : Interpreter η → Interpreter η → Prop
  | operate (i) (op : Operation η) : Step i { i with env := op.run i.env }
  | load (i) (files : Files) : Step i (i.load files).2
  | run (i) (text : String) : Step i (i.runText text).2

/-- The interpreters that come about in use, by whatever else their reporter is used for. -/
inductive Reachable : Interpreter η → Prop
  | start {r path typed showTree i} (started : start r path typed showTree = .ok i) : Reachable i
  | step {i i'} (before : Reachable i) (step : Step i i') : Reachable i'
  | share {i r} (before : Reachable i) (shared : i.reporter.Shared r) :
      Reachable { i with reporter := r }

theorem runText_refused {i : Interpreter η} {text : String} {err : ParseError}
    (hparse : parse text = .error err) :
    i.runText text =
      (.error err.fault, { i with reporter := i.reporter.register i.path (some text) }) := by
  simp only [runText, hparse]

theorem runText_parsed {i : Interpreter η} {text : String} {p : Program}
    (hparse : parse text = .ok p) :
    i.runText text =
      let j := { i with reporter := i.reporter.register i.path (some text) }
      match p.eval.run.run (i.prepare p) with
      | (.error err, env) => (.error err.fault, { j with env })
      | (.ok _, env) => (.ok p, { j with env, programs := i.programs ++ [p] }) := by
  simp only [runText, hparse, evaluate, prepare]
  cases hshow : i.showTree with
  | false | true => rfl

theorem reporter_runText (i : Interpreter η) (text : String) :
    (i.runText text).2.reporter = i.reporter.register i.path (some text) ∧
      (i.runText text).2.path = i.path := by
  rcases hparse : parse text with err | p
  · rw [runText_refused hparse]
    exact ⟨rfl, rfl⟩
  · rw [runText_parsed hparse]
    rcases p.eval.run.run (i.prepare p) with ⟨err | v, env⟩
    · exact ⟨rfl, rfl⟩
    · exact ⟨rfl, rfl⟩

theorem env_runText {i : Interpreter η} {text : String} {p : Program} (hparse : parse text = .ok p) :
    (i.runText text).2.env = (p.eval.run.run (i.prepare p)).2 := by
  rw [runText_parsed hparse]
  rcases p.eval.run.run (i.prepare p) with ⟨err | v, env⟩
  · rfl
  · rfl

/-- Whether running a program has left the environment `e`, by way of `effects`: it has written the
tree if it is shown, then the lines of the built-in native, and has kept all scopes with their
bindings in order. While no native moves between scopes, nothing else has been bound than what the
definitions among the effects bound, in the innermost scope. -/
structure Leaves (i : Interpreter η) (p : Program) (effects : List (Effect η)) (e : Env η) :
    Prop where
  course : Course (i.prepare p) effects
  env : e = (i.prepare p).after effects
  nodes : effects.map Effect.node <+: Expr.postorders p.exprs
  output : Event.output e.journal = Event.output i.env.journal ++
    (if i.showTree then p.tree.outline 0 ++ "\n" else "") ++
      Lines.unlines (effects.filterMap fun effect => effect.event.printed?)
  keeps : i.env.Extends e
  gained : Host.Still η →
    i.env.Gained e ((effects.map Effect.node).filterMap Expr.target?)
  bindings : Host.Still η → (e.scope i.env.innermost).bindings =
    (i.env.scope i.env.innermost).bindings ++
      effects.filterMap fun effect => effect.event.binding?

theorem exists_leaves {i : Interpreter η} (hi : i.env.Kept) (p : Program) :
    ∃ effects, i.Leaves p effects (p.eval.run.run (i.prepare p)).2 ∧
      ((p.eval.run.run (i.prepare p)).1.isOk →
        effects.map Effect.node = Expr.postorders p.exprs) := by
  obtain ⟨effects, hcourse, henv, hnodes, hall⟩ := p.eval_traced (i.prepare p)
  have hbecomes := (i.becomes_prepare p).trans (p.eval_steps (i.prepare p))
  have hmade := ((i.becomes_prepare p).kept_extends hi).1.sound.innermost
  refine ⟨effects, ⟨hcourse, henv, hnodes, ?_, (hbecomes.kept_extends hi).2, ?_, ?_⟩, ?_⟩
  · rw [henv, Env.output_after, output_prepare]
  · intro hstill
    rw [henv]
    exact gained_prepare (hcourse.gained hstill hmade)
  · intro hstill
    have hbindings := hcourse.bindings hstill hmade
    rw [henv]
    obtain ⟨history, hprepare⟩ := i.prepare_eq p
    rw [hprepare] at hbindings ⊢
    exact hbindings
  · intro hok
    rcases hresult : (p.eval.run.run (i.prepare p)).1 with err | v
    · rw [hresult] at hok
      cases hok
    · exact hall v hresult

theorem Step.ready {i i' : Interpreter η} (h : Step i i') (hi : i.Ready) : i'.Ready := by
  cases h with
  | operate op => exact ⟨((op.becomes_run i.env).kept_extends hi.kept).1, hi.registered⟩
  | load files =>
    rw [Interpreter.load]
    split
    · exact hi
    · split
      · exact hi
      · exact ⟨(Env.Step.record _ _).kept hi.kept, hi.registered⟩
  | run text =>
    obtain ⟨hreporter, hpath⟩ := i.reporter_runText text
    refine ⟨?_, ?_⟩
    · rcases hparse : parse text with err | p
      · rw [runText_refused hparse]
        exact hi.kept
      · have hbecomes := (i.becomes_prepare p).trans (p.eval_steps (i.prepare p))
        rw [env_runText hparse]
        exact (hbecomes.kept_extends hi.kept).1
    · rw [hreporter, hpath]
      exact i.reporter.mem_register i.path (some text)

theorem Reachable.ready {i : Interpreter η} (h : i.Reachable) : i.Ready := by
  induction h with
  | start started => exact ready_of_start started
  | step _ step ih => exact step.ready ih
  | share _ shared ih => exact ⟨ih.kept, shared.registered ih.registered⟩

end Interpreter

/-- A run of a text fails cleanly. A text that is refused changes nothing but the text kept for
reports, shown or not. A program that fails has done what its calls and definitions did up to the
failure, and is not among the programs that were run; one that succeeds is. The error that comes out
is the one of the parser or of the evaluation. -/
theorem runs_fail_cleanly {i i' : Interpreter η} (hi : i.Reachable) {text : String}
    {result : Except Fault Program} (hrun : i.runText text = (result, i')) :
    (i'.path = i.path ∧ i'.showTree = i.showTree ∧ i.reporter.Renewed i'.reporter i.path text) ∧
    match parse text with
    | .error err => result = .error err.fault ∧ i'.env = i.env ∧ i'.programs = i.programs
    | .ok p =>
      (∃ effects, i.Leaves p effects i'.env ∧
        (result.isOk → effects.map Effect.node = Expr.postorders p.exprs)) ∧
      match (p.eval.run.run (i.prepare p)).1 with
      | .error err => result = .error err.fault ∧ i'.programs = i.programs
      | .ok _ => result = .ok p ∧ i'.programs = i.programs ++ [p] := by
  obtain ⟨hkept, hregistered⟩ := hi.ready
  have hrenewed := Reporter.renewed_register hregistered text
  rcases hparse : parse text with err | p
  · rw [Interpreter.runText_refused hparse] at hrun
    cases hrun
    exact ⟨⟨rfl, rfl, hrenewed⟩, rfl, rfl, rfl⟩
  · obtain ⟨effects, hleaves, hall⟩ := Interpreter.exists_leaves hkept p
    rw [Interpreter.runText_parsed hparse] at hrun
    rcases heval : p.eval.run.run (i.prepare p) with ⟨err | v, env⟩
    · rw [heval] at hrun hleaves
      cases hrun
      refine ⟨⟨rfl, rfl, hrenewed⟩, ⟨effects, hleaves, fun hok => by cases hok⟩, ?_⟩
      rw [heval]
      exact ⟨rfl, rfl⟩
    · rw [heval] at hrun hleaves hall
      cases hrun
      refine ⟨⟨rfl, rfl, hrenewed⟩, ⟨effects, hleaves, fun _ => hall rfl⟩, ?_⟩
      rw [heval]
      exact ⟨rfl, rfl⟩

/-- A text that is not closed, and one with an unbound name, both shown. -/
theorem runs_fail_cleanly_unbound :
    let i : Interpreter Empty := .create ⟨true, false, []⟩ "file" false true
    let refused := "(debug 1) (define x 2"
    let failing := "(debug 1) (define x 2) (debug y (define z 3))"
    let i' := (i.runText failing).2
    (i.runText refused).2.env = i.env ∧ i'.programs = [] ∧ i.env.Extends i'.env ∧
      (i'.env.scope Env.global).names = ["debug", "x"] := by
  intro i refused failing i'
  have hstart : Interpreter.start ⟨true, false, []⟩ "file" false true = .ok i := rfl
  have hi : i.Reachable := .start hstart
  have hrun : i.runText refused = ((i.runText refused).1, (i.runText refused).2) := rfl
  have hrun' : i.runText failing = ((i.runText failing).1, i') := rfl
  obtain ⟨-, hrefused⟩ := runs_fail_cleanly hi hrun
  obtain ⟨-, hfailing⟩ := runs_fail_cleanly hi hrun'
  have hparses : (parse refused).isOk = false ∧ (parse failing).isOk = true := by decide +kernel
  refine ⟨?_, by decide +kernel, ?_, by decide +kernel⟩
  · rcases hparse : parse refused with err | p
    · rw [hparse] at hrefused
      exact hrefused.2.1
    · rw [hparse] at hparses
      cases hparses.1
  · rcases hparse : parse failing with err | p
    · rw [hparse] at hparses
      cases hparses.2
    · rw [hparse] at hfailing
      obtain ⟨⟨effects, hleaves, -⟩, -⟩ := hfailing
      exact hleaves.keeps

end SmallLisp

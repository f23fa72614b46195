import SmallLisp.Prompt
import SmallLisp.Proofs.Composition
import SmallLisp.Proofs.Evaluation

/-!
# Typing a file

A file that runs without a fault may as well be typed line by line. The prompt runs the text
whenever the lines so far are complete, each time between two top-level expressions of the file, and
in the end has done what running the file does.
-/
namespace SmallLisp

variable {η : Type} [Host η]

namespace Interpreter

/-- What is noted before a program is evaluated. -/
def remark (i : Interpreter η) (p : Program) : String :=
  "evaluating " ++ toString p.exprs.length ++ " top-level form(s) from '" ++ i.path ++ "'"

theorem runText_eq {i : Interpreter η} {text : String} {p : Program} (hshow : i.showTree = false)
    (hparse : parse text = .ok p) :
    i.runText text =
      let j := { i with reporter := i.reporter.register i.path (some text) }
      match (Expr.evalAll p.exprs).run.run (i.env.record (.noted (i.remark p))) with
      | (.ok _, env) => (.ok p, { j with env, programs := i.programs ++ [p] })
      | (.error err, env) => (.error err.fault, { j with env }) := by
  simp only [runText, hparse, evaluate, hshow, Program.eval]
  rw [if_neg Bool.false_ne_true, Action.run_bind]
  simp only [note, remark]
  generalize (Expr.evalAll p.exprs : Action η (List (Value η))).run.run _ = outcome
  rcases outcome with ⟨err | values, env⟩
  · rfl
  · rfl

theorem runText_ok {i i' : Interpreter η} {text : String} {p : Program} (hshow : i.showTree = false)
    (h : i.runText text = (.ok p, i')) :
    parse text = .ok p ∧ ∃ values, (Expr.evalAll p.exprs).run.run
      (i.env.record (.noted (i.remark p))) = (.ok values, i'.env) := by
  rcases hparse : parse text with err | q
  · simp only [runText, hparse] at h
    cases h
  · rw [runText_eq hshow hparse] at h
    rcases heval : (Expr.evalAll q.exprs).run.run (i.env.record (.noted (i.remark q))) with
      ⟨err | values, env⟩
    · rw [heval] at h
      cases h
    · rw [heval] at h
      cases h
      exact ⟨rfl, values, heval⟩

/-- What a run of a text does if its tree, moved by `f`, has the outcome `r` from an environment
like the interpreter's: it does the same in its own. -/
inductive Ends (i : Interpreter η) (f : Location → Location) (p : Program) :
    Except Fault Program × Interpreter η → Except EvalError (List (Value η)) × Env η → Prop
  | ok {j : Interpreter η} {values e} (shows : j.showTree = false) (alike : j.env.Alike e)
      (programs : j.programs = i.programs ++ [p]) : Ends i f p (.ok p, j) (.ok values, e)
  | error {err : EvalError} {j : Interpreter η} {e} (alike : j.env.Alike e) :
      Ends i f p (.error err.fault, j) (.error (err.relocate f), e)
  | raised {err : EvalError} {j : Interpreter η} {e} (alike : j.env.Alike e)
      (raised : Host.Raised j.env err) : Ends i f p (.error err.fault, j) (.error err, e)

theorem runText_ends {i : Interpreter η} {text : String} {p : Program} {e : Env η}
    (hshow : i.showTree = false) (hparse : parse text = .ok p) (he : i.env.Alike e)
    (f : Location → Location) :
    i.Ends f p (i.runText text) ((Expr.evalAll (Expr.relocateAll f p.exprs)).run.run e) := by
  have hremark : (i.env.record (.noted (i.remark p))).Alike e := ⟨he.like.remark _, he.tame⟩
  obtain ⟨hmoved, halike, -⟩ := Expr.evalAll_alike f p.exprs _ e hremark
  rw [runText_eq hshow hparse]
  generalize (Expr.evalAll p.exprs).run.run (i.env.record (.noted (i.remark p))) = r at *
  generalize (Expr.evalAll (Expr.relocateAll f p.exprs)).run.run e = r' at *
  cases hmoved with
  | ok => exact .ok hshow halike rfl
  | error => exact .error halike
  | raised hraised => exact .raised halike hraised

end Interpreter

namespace Prompt

/-- The steps of entering lines one after another, and the prompt behind them. -/
def enterAll (q : Prompt η) : List String → List (Step η) × Prompt η
  | [] => ([], q)
  | line :: lines =>
    let step := q.enter line
    let (steps, last) := step.prompt.enterAll lines
    (step :: steps, last)

theorem enterAll_cons {q : Prompt η} {line : String} {step : Step η} (h : q.enter line = step)
    (lines : List String) : q.enterAll (line :: lines) =
      (step :: (step.prompt.enterAll lines).1, (step.prompt.enterAll lines).2) := by
  rw [enterAll, h]

theorem enter_open {q : Prompt η} {line : String}
    (hopen : (Balance.of (join q.pending line)).isOpen = true) :
    q.enter line = ⟨.ok .goOn, { q with pending := join q.pending line }, "", ""⟩ := by
  simp only [enter, extend, hopen, if_true]

theorem enter_closed {q : Prompt η} {line : String} {p : Program} {i : Interpreter η}
    (hopen : (Balance.of (join q.pending line)).isOpen = false)
    (hrun : q.interpreter.runText (join q.pending line) = (.ok p, i)) :
    q.enter line = ⟨.ok .goOn, ⟨i, ""⟩, "", ""⟩ := by
  simp only [enter, extend, hopen, hrun]
  rfl

/-- The text that is still to be run when `lines` are still to be entered. -/
def remaining (pending : String) (lines : List String) : String :=
  "\n".intercalate (if pending = "" then lines else pending :: lines)

theorem remaining_cons (pending line : String) (lines : List String) :
    remaining pending (line :: lines) = "\n".intercalate (join pending line :: lines) := by
  rw [remaining, join]
  split_ifs
  · rfl
  · rw [String.intercalate_cons_cons, ← String.intercalate_cons_append]

theorem enter_complete {q : Prompt η} {line : String} {p : Program} {f : Location → Location}
    {e e' : Env η} {values : List (Value η)} (hshow : q.interpreter.showTree = false)
    (hopen : (Balance.of (join q.pending line)).isOpen = false)
    (hparse : parse (join q.pending line) = .ok p) (he : q.interpreter.env.Alike e)
    (heval : (Expr.evalAll (Expr.relocateAll f p.exprs)).run.run e = (.ok values, e')) :
    ∃ i : Interpreter η, q.enter line = ⟨.ok .goOn, ⟨i, ""⟩, "", ""⟩ ∧ i.showTree = false ∧
      i.env.Alike e' ∧ i.programs = q.interpreter.programs ++ [p] := by
  have hends := Interpreter.runText_ends hshow hparse he f
  rcases hrun : q.interpreter.runText (join q.pending line) with ⟨result, i⟩
  rw [hrun, heval] at hends
  cases hends with
  | ok shows alike programs => exact ⟨i, enter_closed hopen hrun, shows, alike, programs⟩

/-- Whether nothing waits at the prompt, or a text that is open. -/
def Waits (q : Prompt η) : Prop := q.pending = "" ∨ (Balance.of q.pending).isOpen = true

/-- What is asked of the steps of lines that were entered at `q`, and of the prompt behind them, if
a file with the program `p` leaves the environment `e`. -/
structure Follows (q : Prompt η) (p : Program) (e : Env η) (outcome : List (Step η) × Prompt η) :
    Prop where
  answered : ∀ step ∈ outcome.1,
    step.answer = .ok .goOn ∧ step.reported = "" ∧ step.printed = ""
  complete : outcome.2.pending = ""
  alike : outcome.2.interpreter.env.Alike e
  exprs : (outcome.2.interpreter.programs.flatMap Program.exprs).map Expr.bare =
    (q.interpreter.programs.flatMap Program.exprs).map Expr.bare ++ p.exprs.map Expr.bare

theorem parse_empty : parse (remaining "" []) = .ok ⟨⟨-1, 1, 0⟩, []⟩ := by decide +kernel

theorem follows_nil {q : Prompt η} {p : Program} {f : Location → Location} {e e' : Env η}
    {values : List (Value η)} (hwaits : q.Waits)
    (hparse : parse (remaining q.pending []) = .ok p) (he : q.interpreter.env.Alike e)
    (heval : (Expr.evalAll (Expr.relocateAll f p.exprs)).run.run e = (.ok values, e')) :
    q.Follows p e' (q.enterAll []) := by
  have hpending : q.pending = "" := by
    rcases hwaits with hempty | hopen
    · exact hempty
    · by_contra hne
      rw [remaining, if_neg hne, String.intercalate_singleton] at hparse
      rw [not_isOpen_of_parse hparse] at hopen
      cases hopen
  rw [hpending, parse_empty] at hparse
  cases hparse
  cases heval
  exact ⟨List.forall_mem_nil _, hpending, he, by rw [List.map_nil, List.append_nil]; rfl⟩

theorem Follows.cons {q q' : Prompt η} {p p' : Program} {e : Env η} {line : String}
    {lines : List String} (hstep : q.enter line = ⟨.ok .goOn, q', "", ""⟩)
    (h : q'.Follows p' e (q'.enterAll lines))
    (hexprs : (q'.interpreter.programs.flatMap Program.exprs).map Expr.bare ++
        p'.exprs.map Expr.bare =
      (q.interpreter.programs.flatMap Program.exprs).map Expr.bare ++ p.exprs.map Expr.bare) :
    q.Follows p e (q.enterAll (line :: lines)) := by
  rw [enterAll_cons hstep]
  exact ⟨List.forall_mem_cons.mpr ⟨⟨rfl, rfl, rfl⟩, h.answered⟩, h.complete, h.alike,
    h.exprs.trans hexprs⟩

/-- The first of the lines that a file consists of is a file by itself if it is not open. -/
theorem parse_first {text : String} {lines : List String} {p : Program}
    (h : parse ("\n".intercalate (text :: lines)) = .ok p)
    (hopen : (Balance.of text).isOpen = false) :
    ∃ pa pb f, parse text = .ok pa ∧ parse (remaining "" lines) = .ok pb ∧
      p.exprs = pa.exprs ++ pb.exprs.map (Expr.relocate f) := by
  cases lines with
  | nil =>
    rw [String.intercalate_singleton] at h
    exact ⟨p, _, id, h, parse_empty, (List.append_nil _).symm⟩
  | cons line lines =>
    rw [String.intercalate_cons_cons] at h
    obtain ⟨pa, pb, hpa, hpb, hexprs⟩ := parse_cut h hopen
    exact ⟨pa, pb, _, hpa, hpb, hexprs⟩

theorem relocateAll_append_relocate (f g : Location → Location) (es fs : List Expr) :
    Expr.relocateAll f (es ++ fs.map (Expr.relocate g)) =
      Expr.relocateAll f es ++ Expr.relocateAll (f ∘ g) fs := by
  rw [← Expr.relocateAll_eq_map, ← Expr.relocateAll_relocateAll]
  simp only [Expr.relocateAll_eq_map, List.map_append]

theorem follows_enterAll (lines : List String) {q : Prompt η} {p : Program}
    {f : Location → Location} {e e' : Env η} {values : List (Value η)}
    (hshow : q.interpreter.showTree = false) (hwaits : q.Waits)
    (hparse : parse (remaining q.pending lines) = .ok p) (he : q.interpreter.env.Alike e)
    (heval : (Expr.evalAll (Expr.relocateAll f p.exprs)).run.run e = (.ok values, e')) :
    q.Follows p e' (q.enterAll lines) := by
  -- What remains of the file is a file itself: `p` is its program, `e` what the whole file has come
  -- to, and `f` moves the places in `p` to where they are in the whole.
  induction lines generalizing q p f e values with
  | nil => exact follows_nil hwaits hparse he heval
  | cons line lines ih =>
    rw [remaining_cons] at hparse
    rcases hopen : (Balance.of (join q.pending line)).isOpen with - | -
    · obtain ⟨pa, pb, g, hpa, hpb, hexprs⟩ := parse_first hparse hopen
      rw [hexprs, relocateAll_append_relocate, Expr.evalAll_append] at heval
      obtain ⟨_, e₁, hfirst, hrest⟩ := Action.run_bind_ok heval
      obtain ⟨_, e₂, hsecond, hend⟩ := Action.run_bind_ok hrest
      obtain rfl : e₂ = e' := congrArg Prod.snd hend
      obtain ⟨i, hstep, hshow', halike, hprograms⟩ := enter_complete hshow hopen hpa he hfirst
      refine Follows.cons hstep (ih hshow' (.inl rfl) hpb halike hsecond) ?_
      simp only [hprograms, hexprs, List.flatMap_append, List.map_append, List.map_map,
        List.flatMap_singleton, List.append_assoc, List.append_cancel_left_eq]
      apply List.map_congr_left
      intro x _
      exact (Expr.bare_relocate g x).symm
    · have hne : join q.pending line ≠ "" := by
        intro hempty
        rw [hempty] at hopen
        cases hopen
      refine Follows.cons (enter_open hopen) (ih hshow (.inr hopen) ?_ he heval) rfl
      rwa [remaining, if_neg hne]

end Prompt

theorem Env.alike_initial (remark : String) :
    (Env.initial : Env η).Alike (Env.initial.record (.noted remark)) :=
  ⟨Env.Like.remark_right ⟨rfl, rfl, rfl⟩ remark, Env.tame_initial⟩

/-- Entering the lines of a text one at a time does what running the text does, if that succeeds:
nothing is reported and nothing left waiting, the output and the global scope are the same, and the
programs that were run are, but for places, the one program cut into parts. -/
theorem entered_lines_agree {r r' : Reporter} {path path' : String} {typed : Bool}
    {lines : List String} {program : Program} {i : Interpreter η} {steps : List (Prompt.Step η)}
    {last : Prompt η}
    (hrun : (Interpreter.create r path typed false).runText ("\n".intercalate lines) =
      (.ok program, i))
    (henter : (Prompt.start (.create r' path' true false)).enterAll lines = (steps, last)) :
    (∀ step ∈ steps, step.answer = .ok .goOn ∧ step.reported = "" ∧ step.printed = "") ∧
      last.pending = "" ∧
      Event.output last.interpreter.env.journal = Event.output i.env.journal ∧
      last.interpreter.env.scope Env.global = i.env.scope Env.global ∧
      (last.interpreter.programs.flatMap Program.exprs).map Expr.bare =
        program.exprs.map Expr.bare := by
  obtain ⟨hparse, values, heval⟩ := Interpreter.runText_ok rfl hrun
  rw [← Expr.relocateAll_id program.exprs] at heval
  let q : Prompt η := .start (.create r' path' true false)
  have hfollows : q.Follows program i.env (q.enterAll lines) :=
    Prompt.follows_enterAll lines rfl (.inl rfl) hparse (Env.alike_initial _) heval
  rw [henter] at hfollows
  have hlike := hfollows.alike.like
  refine ⟨hfollows.answered, hfollows.complete, hlike.output, ?_, hfollows.exprs⟩
  rw [Env.scope, Env.scope, hlike.scopes]

/-- A text in quotes that goes on in the second line and holds a parenthesis. -/
theorem entered_lines_agree_quoted :
    let lines := ["(debug \"a", ")\") (define x 1)", "(debug x)"]
    let i : Interpreter Empty := .create ⟨true, false, []⟩ "file" false false
    let q : Prompt Empty := .start (.create ⟨false, false, []⟩ "<in>" true false)
    (i.runText ("\n".intercalate lines)).1.isOk = true ∧
      (q.enterAll lines).2.pending = "" ∧
      Event.output (q.enterAll lines).2.interpreter.env.journal = "\"a\\n)\"\n1\n" ∧
      ((q.enterAll lines).2.interpreter.env.scope Env.global).names = ["debug", "x"] := by
  intro lines i q
  have hok : (i.runText ("\n".intercalate lines)).1.isOk = true := by decide +kernel
  have houtput : Event.output (i.runText ("\n".intercalate lines)).2.env.journal =
    "\"a\\n)\"\n1\n" := by decide +kernel
  have hnames : ((i.runText ("\n".intercalate lines)).2.env.scope Env.global).names =
    ["debug", "x"] := by decide +kernel
  refine ⟨hok, ?_⟩
  rcases hrun : i.runText ("\n".intercalate lines) with ⟨err | program, i'⟩
  · rw [hrun] at hok
    cases hok
  · rw [hrun] at houtput hnames
    rcases henter : q.enterAll lines with ⟨steps, last⟩
    obtain ⟨-, hpending, hagrees, hscope, -⟩ := entered_lines_agree hrun henter
    exact ⟨hpending, hagrees.trans houtput, (congrArg Scope.names hscope).trans hnames⟩

end SmallLisp

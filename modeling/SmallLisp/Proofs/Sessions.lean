import SmallLisp.Proofs.Reports
import SmallLisp.Proofs.TypedLines

/-!
# Sessions

In a session, lines are typed and entered one after another, whatever they hold. The lines that were
entered are cut into groups. Each was complete with its last line and no earlier, and was run as one
text, but for the last group, which is open and waits.
-/
namespace SmallLisp

variable {η : Type}

/-! ## Lines as texts -/

/-- Some lines as one text. -/
def joined (lines : List String) : String := "\n".intercalate lines

/-- Joining groups of lines, then these texts, is joining all lines. -/
theorem joined_groups {groups : List (List String)} (h : ∀ group ∈ groups, group ≠ []) :
    joined (groups.map joined) = joined groups.flatten := by
  induction groups with
  | nil => rfl
  | cons group groups ih =>
    obtain ⟨hgroup, hgroups⟩ := List.forall_mem_cons.mp h
    cases groups with
    | nil => simp [joined]
    | cons next groups =>
      have hrest : (next :: groups).flatten ≠ [] := by
        simp [hgroups next List.mem_cons_self]
      calc joined (joined group :: (next :: groups).map joined)
          = joined group ++ "\n" ++ joined ((next :: groups).map joined) :=
            String.intercalate_cons_cons
        _ = joined group ++ "\n" ++ joined (next :: groups).flatten := by rw [ih hgroups]
        _ = joined (group ++ (next :: groups).flatten) :=
            (String.intercalate_append_of_ne_nil hgroup hrest).symm

/-- Whether a text goes on after these lines and after each before them. -/
def Waiting (lines : List String) : Prop :=
  ∀ first, first ≠ [] → first <+: lines → (Balance.of (joined first)).isOpen = true

/-- Whether a text is complete with the last of these lines, and no earlier. -/
def Complete (lines : List String) : Prop :=
  ∃ before last, lines = before ++ [last] ∧ Waiting before ∧
    (Balance.of (joined lines)).isOpen = false

theorem ne_empty_of_isOpen {text : String} (h : (Balance.of text).isOpen = true) : text ≠ "" := by
  rintro rfl
  cases h

theorem waiting_nil : Waiting [] := fun _ hne hfirst => absurd (List.prefix_nil.mp hfirst) hne

theorem Waiting.snoc {lines : List String} (h : Waiting lines) {line : String}
    (hopen : (Balance.of (joined (lines ++ [line]))).isOpen = true) :
    Waiting (lines ++ [line]) := by
  intro first hne hfirst
  rcases List.prefix_concat_iff.mp hfirst with rfl | hbefore
  · exact hopen
  · exact h first hne hbefore

theorem Waiting.joined_eq_empty_iff {lines : List String} (h : Waiting lines) :
    joined lines = "" ↔ lines = [] := by
  constructor
  · intro hempty
    by_contra hne
    exact ne_empty_of_isOpen (h lines hne List.prefix_rfl) hempty
  · rintro rfl
    rfl

/-- A line goes on with lines that wait as it does with their text. -/
theorem Waiting.join {lines : List String} (h : Waiting lines) (line : String) :
    Prompt.join (joined lines) line = joined (lines ++ [line]) := by
  rw [Prompt.join]
  by_cases hnil : lines = []
  · subst hnil
    rfl
  · have hsnoc : joined (lines ++ [line]) = joined lines ++ "\n" ++ joined [line] :=
      String.intercalate_append_of_ne_nil hnil (List.cons_ne_nil line [])
    rw [if_neg (mt h.joined_eq_empty_iff.mp hnil), hsnoc, joined, joined,
      String.intercalate_singleton]

namespace Prompt

/-! ## What one input does -/

/-- What is done at a prompt: a line is typed, or is entered as it is. -/
inductive Input where
  | typed (line : String)
  | entered (line : String)
deriving DecidableEq

/-- The line of program text that an input enters. -/
def Input.entry? : Input → Option String
  | typed line => if Entry.IsCode line then some (Entry.stripped line) else none
  | entered line => some line

/-- The text that a line of program text completes, which is run. -/
def completed? (q : Prompt η) (line : String) : Option String :=
  if (extend q.pending line).2 then none else some (extend q.pending line).1

/-- The text that an input has run. -/
def ran? (q : Prompt η) (input : Input) : Option String := input.entry?.bind q.completed?

variable [Host η]

def take (q : Prompt η) : Input → Step η
  | .typed line => q.type line
  | .entered line => q.enter line

/-- The prompt behind some inputs. -/
def after (q : Prompt η) (inputs : List Input) : Prompt η :=
  inputs.foldl (fun q input => (q.take input).prompt) q

/-- The texts that some inputs have run, in order. -/
def ranAll (q : Prompt η) : List Input → List String
  | [] => []
  | input :: inputs => (q.ran? input).toList ++ (q.take input).prompt.ranAll inputs

theorem after_snoc (q : Prompt η) (inputs : List Input) (input : Input) :
    q.after (inputs ++ [input]) = ((q.after inputs).take input).prompt := by
  simp [after]

theorem ranAll_snoc (q : Prompt η) (inputs : List Input) (input : Input) :
    q.ranAll (inputs ++ [input]) = q.ranAll inputs ++ ((q.after inputs).ran? input).toList := by
  induction inputs generalizing q with
  | nil => simp [ranAll, after]
  | cons first inputs ih =>
    rw [List.cons_append, ranAll, ranAll, ih, List.append_assoc]
    rfl

/-- What enters no line does nothing. -/
theorem take_idle {q : Prompt η} {input : Input} (h : input.entry? = none) :
    (q.take input).prompt = q ∧ (q.take input).reported = "" ∧
      (q.take input).answer.isOk = true := by
  cases input with
  | entered line => cases h
  | typed line =>
    have hcode : ¬ Entry.IsCode line := by
      intro hcode
      simp [Input.entry?, hcode] at h
    obtain ⟨hprompt, hreported⟩ := q.type_noCode hcode
    refine ⟨hprompt, hreported, ?_⟩
    have hreads := Entry.reads_ofLine line
    rw [take, type]
    generalize Entry.ofLine line = entry at hreads ⊢
    cases hreads with
    | code isCode => exact absurd isCode hcode
    | nothing | help | exit | endOfInput => rfl

theorem take_entry {q : Prompt η} {input : Input} {line : String}
    (h : input.entry? = some line) : q.take input = q.enter line := by
  cases input with
  | entered line' =>
    cases h
    rfl
  | typed line' =>
    by_cases hcode : Entry.IsCode line'
    · simp only [Input.entry?, hcode, if_true, Option.some.injEq] at h
      rw [take, q.type_code hcode, h]
    · simp [Input.entry?, hcode] at h

/-- A line that is entered sets the sign by whether the text goes on, and nothing else sets it. -/
theorem sign_take (q : Prompt η) (input : Input) :
    (q.take input).prompt.sign = match input.entry? with
      | none => q.sign
      | some line => if (extend q.pending line).2 then ". " else "> " := by
  rcases hentry : input.entry? with - | line
  · rw [(q.take_idle hentry).1]
  · simp only [take_entry hentry, extend]
    by_cases hopen : (Balance.of (join q.pending line)).isOpen = true
    · simp [enter_open hopen, sign, ne_empty_of_isOpen hopen, hopen]
    · have hclosed := Bool.eq_false_iff.mpr hopen
      simp [enter_settles hclosed, sign, hclosed]

theorem take_quiet {q : Prompt η} {input : Input} (h : q.ran? input = none) :
    (q.take input).prompt.interpreter = q.interpreter ∧ (q.take input).reported = "" ∧
      (q.take input).answer.isOk = true := by
  rcases hentry : input.entry? with - | line
  · obtain ⟨hprompt, hrest⟩ := q.take_idle hentry
    exact ⟨congrArg Prompt.interpreter hprompt, hrest⟩
  · cases hopen : (Balance.of (join q.pending line)).isOpen with
    | true =>
      rw [take_entry hentry, enter_open hopen]
      exact ⟨rfl, rfl, rfl⟩
    | false =>
      rw [ran?, hentry, Option.bind_some, completed?, extend, hopen] at h
      cases h

theorem take_ran {q : Prompt η} {input : Input} {text : String} (h : q.ran? input = some text) :
    q.take input =
      let settled := Interpreter.settle (q.interpreter.runText text)
      ⟨settled.result.map fun _ => .goOn, ⟨settled.interpreter, ""⟩, settled.printed, ""⟩ := by
  obtain ⟨line, hentry, hcompleted⟩ := Option.bind_eq_some_iff.mp h
  rw [completed?] at hcompleted
  cases hopen : (Balance.of (join q.pending line)).isOpen with
  | true =>
    rw [extend, hopen] at hcompleted
    cases hcompleted
  | false =>
    rw [extend, hopen] at hcompleted
    cases hcompleted
    rw [take_entry hentry, enter_settles hopen]

end Prompt

/-! ## What a run does -/

namespace Interpreter

variable [Host η]

/-- The interpreter behind some texts that were run one after another. -/
def runAll (i : Interpreter η) (texts : List String) : Interpreter η :=
  texts.foldl (fun i text => (i.runText text).2) i

theorem runAll_snoc (i : Interpreter η) (texts : List String) (text : String) :
    i.runAll (texts ++ [text]) = ((i.runAll texts).runText text).2 := by
  simp [runAll]

theorem Untouched.runAll {i : Interpreter η} (h : i.Untouched) (texts : List String) :
    (i.runAll texts).Untouched := by
  induction texts generalizing i with
  | nil => exact h
  | cons text texts ih => exact ih (.run h text)

theorem fatal_runAll (i : Interpreter η) (texts : List String) :
    (i.runAll texts).reporter.fatal = i.reporter.fatal := by
  induction texts generalizing i with
  | nil => rfl
  | cons text texts ih =>
    have hfirst := congrArg Reporter.fatal (i.reporter_runText text).1
    exact (ih (i.runText text).2).trans hfirst

omit [Host η] in
theorem settle_interpreter (run : Except Fault Program × Interpreter η) :
    (settle run).interpreter = run.2 := by
  rcases run with ⟨fault | p, i⟩
  · rw [settle]
    split
    · rfl
    · rfl
  · rfl

/-- While reports do not end the program, a run that fails is settled by one. -/
theorem settle_spared {i : Interpreter η} (hi : i.env.Legible) (hspared : i.reporter.fatal = false)
    (text : String) :
    let run := i.runText text
    let settled := settle run
    settled.result.isOk = true ∧
      match run.1 with
      | .ok _ => settled.printed = ""
      | .error fault => ∃ d, fault.reported? = some (d, false) ∧
        settled.printed = run.2.reporter.render d false ++ "\n" := by
  intro run settled
  have hfatal : run.2.reporter.fatal = false := by
    rw [(i.reporter_runText text).1]
    exact hspared
  rcases hrun : run with ⟨fault | p, i'⟩
  · obtain ⟨d, hd⟩ := i.reported_of_runText hi (congrArg Prod.fst hrun)
    have hsettle : settled = ⟨.ok none, i', i'.reporter.render d false ++ "\n"⟩ := by
      rw [hrun] at hfatal
      show settle run = _
      rw [hrun]
      simp only [settle, Reporter.handle_spared hfatal hd]
    rw [hsettle]
    exact ⟨rfl, d, hd, rfl⟩
  · have hsettle : settled = ⟨.ok (some p), i', ""⟩ := by
      show settle run = _
      rw [hrun]
      rfl
    rw [hsettle]
    exact ⟨rfl, rfl⟩

theorem Untouched.extends_runText {i : Interpreter η} (h : i.Untouched) (text : String) :
    i.env.Extends (i.runText text).2.env := by
  have hkept := h.reachable.ready.kept
  rcases hparse : parse text with err | p
  · rw [runText_refused hparse]
    exact Env.extends_of_scopes rfl
  · obtain ⟨effects, hleaves, -⟩ := i.exists_leaves hkept p
    rw [env_runText hparse]
    exact hleaves.keeps

end Interpreter

/-! ## Whole sessions -/

namespace Prompt

variable [Host η]

theorem take_spared {q : Prompt η} (hlegible : q.interpreter.env.Legible)
    (hspared : q.interpreter.reporter.fatal = false) {input : Input} {text : String}
    (h : q.ran? input = some text) :
    let run := q.interpreter.runText text
    let step := q.take input
    step.answer.isOk = true ∧ step.prompt = ⟨run.2, ""⟩ ∧
      match run.1 with
      | .ok _ => step.reported = ""
      | .error fault => ∃ d, fault.reported? = some (d, false) ∧
        step.reported = run.2.reporter.render d false ++ "\n" := by
  intro run step
  obtain ⟨hok, hprinted⟩ := Interpreter.settle_spared hlegible hspared text
  have hinterpreter := Interpreter.settle_interpreter run
  have hstep : step = ⟨(Interpreter.settle run).result.map fun _ => .goOn,
    ⟨(Interpreter.settle run).interpreter, ""⟩, (Interpreter.settle run).printed, ""⟩ := take_ran h
  rw [hstep, hinterpreter]
  refine ⟨?_, rfl, hprinted⟩
  show ((Interpreter.settle run).result.map _).isOk = true
  rcases hresult : (Interpreter.settle run).result with fault | p
  · rw [hresult] at hok
    cases hok
  · rfl

/-- How the lines that some inputs enter at a prompt of `i` are cut: each of `groups` has been run
as one text, and `rest` waits. -/
structure Session (i : Interpreter η) (inputs : List Input) (groups : List (List String))
    (rest : List String) : Prop where
  lines : inputs.filterMap Input.entry? = groups.flatten ++ rest
  complete : ∀ group ∈ groups, Complete group
  waiting : Waiting rest
  ran : (start i).ranAll inputs = groups.map joined
  pending : ((start i).after inputs).pending = joined rest
  interpreter : ((start i).after inputs).interpreter = i.runAll (groups.map joined)

theorem session_nil (i : Interpreter η) : Session i [] [] [] :=
  ⟨rfl, List.forall_mem_nil _, waiting_nil, rfl, rfl, rfl⟩

theorem Session.snoc {i : Interpreter η} {inputs : List Input} {groups : List (List String)}
    {rest : List String} (h : Session i inputs groups rest) (input : Input) :
    ∃ groups' rest', Session i (inputs ++ [input]) groups' rest' := by
  rcases hentry : input.entry? with - | line
  · obtain ⟨hsame, -⟩ := ((start i).after inputs).take_idle hentry
    refine ⟨groups, rest, ⟨?_, h.complete, h.waiting, ?_, ?_, ?_⟩⟩
    · simpa [hentry] using h.lines
    · simpa [ranAll_snoc, ran?, hentry] using h.ran
    · rw [after_snoc, hsame, h.pending]
    · rw [after_snoc, hsame, h.interpreter]
  have hlines : (inputs ++ [input]).filterMap Input.entry? = groups.flatten ++ rest ++ [line] := by
    simp [hentry, h.lines]
  have htext : join ((start i).after inputs).pending line = joined (rest ++ [line]) := by
    rw [h.pending, h.waiting.join]
  cases hopen : (Balance.of (joined (rest ++ [line]))).isOpen with
  | true =>
    have hstep : ((start i).after inputs).take input = _ :=
      (take_entry hentry).trans (enter_open (htext ▸ hopen))
    refine ⟨groups, rest ++ [line], ⟨?_, h.complete, h.waiting.snoc hopen, ?_, ?_, ?_⟩⟩
    · rw [hlines, List.append_assoc]
    · simp [ranAll_snoc, ran?, completed?, extend, hentry, htext, hopen, h.ran]
    · rw [after_snoc, hstep, htext]
    · rw [after_snoc, hstep, h.interpreter]
  | false =>
    have hcomplete : Complete (rest ++ [line]) := ⟨rest, line, rfl, h.waiting, hopen⟩
    have hran : ((start i).after inputs).ran? input = some (joined (rest ++ [line])) := by
      simp [ran?, completed?, extend, hentry, htext, hopen]
    refine ⟨groups ++ [rest ++ [line]], [], ⟨?_, ?_, waiting_nil, ?_, ?_, ?_⟩⟩
    · simp [hlines]
    · intro group hgroup
      rcases List.mem_append.mp hgroup with hgroup | hgroup
      · exact h.complete group hgroup
      · rwa [List.mem_singleton.mp hgroup]
    · simp [ranAll_snoc, hran, h.ran]
    · rw [after_snoc, take_ran hran]
      rfl
    · rw [after_snoc, take_ran hran, List.map_append, List.map_singleton, Interpreter.runAll_snoc,
        ← h.interpreter]
      exact Interpreter.settle_interpreter _

theorem exists_session (i : Interpreter η) (inputs : List Input) :
    ∃ groups rest, Session i inputs groups rest := by
  induction inputs using List.reverseRecOn with
  | nil => exact ⟨[], [], session_nil i⟩
  | append_singleton inputs input ih =>
    obtain ⟨groups, rest, h⟩ := ih
    exact h.snoc input

theorem Session.pending_eq_empty_iff {i : Interpreter η} {inputs : List Input}
    {groups : List (List String)} {rest : List String} (h : Session i inputs groups rest) :
    ((start i).after inputs).pending = "" ↔ rest = [] :=
  h.pending ▸ h.waiting.joined_eq_empty_iff

theorem Session.pending_open_iff {i : Interpreter η} {inputs : List Input}
    {groups : List (List String)} {rest : List String} (h : Session i inputs groups rest) :
    ((start i).after inputs).pending ≠ "" ↔
      (Balance.of ((start i).after inputs).pending).isOpen = true := by
  refine ⟨?_, ne_empty_of_isOpen⟩
  intro hne
  rw [h.pending]
  exact h.waiting rest (mt h.pending_eq_empty_iff.mpr hne) List.prefix_rfl

theorem Session.joined {i : Interpreter η} {inputs : List Input} {groups : List (List String)}
    {rest : List String} (h : Session i inputs groups rest) :
    let q := (start i).after inputs
    joined ((start i).ranAll inputs ++ if q.pending = "" then [] else [q.pending]) =
      joined (inputs.filterMap Input.entry?) := by
  intro q
  have hgroups : ∀ group ∈ groups, group ≠ [] := by
    intro group hgroup
    obtain ⟨before, last, rfl, -⟩ := h.complete group hgroup
    simp
  rw [h.ran, h.lines]
  by_cases hrest : rest = []
  · rw [if_pos (h.pending_eq_empty_iff.mpr hrest), hrest, List.append_nil, List.append_nil,
      joined_groups hgroups]
  · have hall : ∀ group ∈ groups ++ [rest], group ≠ [] := by
      simpa [or_imp, forall_and, hrest] using hgroups
    rw [if_neg (mt h.pending_eq_empty_iff.mp hrest), h.pending]
    simpa using joined_groups hall

end Prompt

/-- Nothing is lost in a session, whatever is typed and entered. Something waits exactly if the text
that waits is open, and the sign shows it, which each line that is entered sets. The texts that were run, with the one that waits, are
the lines that were entered; none of them was complete before its last line. An input runs one text
or none. It does not end the session by an error: a run that fails is reported once, leaves nothing
waiting, and no binding is lost. -/
theorem sessions_lose_nothing [Host η] (r : Reporter) (path : String) (showTree : Bool)
    (inputs : List Prompt.Input) :
    let i : Interpreter η := .create r path true showTree
    let q := (Prompt.start i).after inputs
    let texts := (Prompt.start i).ranAll inputs
    let lines := inputs.filterMap Prompt.Input.entry?
    q.sign = (if (Balance.of q.pending).isOpen then ". " else "> ") ∧
    (q.pending ≠ "" ↔ (Balance.of q.pending).isOpen = true) ∧
    joined (texts ++ if q.pending = "" then [] else [q.pending]) = joined lines ∧
    (∃ groups rest, Prompt.Session i inputs groups rest) ∧
    ∀ input,
      let step := q.take input
      step.answer.isOk = true ∧ q.interpreter.env.Extends step.prompt.interpreter.env ∧
      (step.prompt.sign = match input.entry? with
        | none => q.sign
        | some line => if (Prompt.extend q.pending line).2 then ". " else "> ") ∧
      match q.ran? input with
      | none => step.prompt.interpreter = q.interpreter ∧ step.reported = ""
      | some text =>
        let run := q.interpreter.runText text
        step.prompt = ⟨run.2, ""⟩ ∧
        match run.1 with
        | .ok _ => step.reported = ""
        | .error fault => ∃ d, fault.reported? = some (d, false) ∧
          step.reported = run.2.reporter.render d false ++ "\n" := by
  intro i q texts lines
  obtain ⟨groups, rest, h⟩ := Prompt.exists_session i inputs
  have hstart : Interpreter.start r path true showTree = .ok i := rfl
  have huntouched : q.interpreter.Untouched := by
    rw [h.interpreter]
    exact (Interpreter.Untouched.start hstart).runAll _
  have hspared : q.interpreter.reporter.fatal = false := by
    rw [h.interpreter, Interpreter.fatal_runAll]
    rfl
  have hpending : q.pending ≠ "" ↔ (Balance.of q.pending).isOpen = true := h.pending_open_iff
  refine ⟨?_, hpending, h.joined, ⟨groups, rest, h⟩, ?_⟩
  · simp [Prompt.sign, ← hpending]
  · intro input step
    have hsign := q.sign_take input
    rcases hran : q.ran? input with - | text
    · obtain ⟨hsame, hreported, hok⟩ := Prompt.take_quiet hran
      exact ⟨hok, Env.extends_of_scopes (by rw [hsame]), hsign, hsame, hreported⟩
    · obtain ⟨hok, hprompt, hreported⟩ := Prompt.take_spared huntouched.legible hspared hran
      refine ⟨hok, ?_, hsign, hprompt, hreported⟩
      rw [hprompt]
      exact huntouched.extends_runText text

/-- A failing text over two lines behind a definition, with a call for help between them. -/
example :
    let i : Interpreter Empty := .create ⟨true, false, []⟩ "<in>" true false
    let inputs : List Prompt.Input :=
      [.entered "(define a 1)", .entered "(debug a", .typed "help", .entered " b)", .typed "(a"]
    (Prompt.start i).ranAll inputs = ["(define a 1)", "(debug a\n b)"] ∧
      ((Prompt.start i).after inputs).pending = "(a" ∧
      (((Prompt.start i).after inputs).interpreter.env.scope Env.global).names =
        ["debug", "a"] := by
  decide +kernel

end SmallLisp

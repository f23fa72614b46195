import SmallLisp.Proofs.Interactive

/-!
# Typed lines

What a typed line is depends on the line alone, not on the text that waits: a command is obeyed, and
program text goes on with what waits. Typing program text over several lines does what entering the
lines as one text does, whatever is typed between them.
-/
namespace SmallLisp

variable {η : Type}

namespace Prompt

/-! ## What a line is -/

namespace Entry

/-- A line as it is looked at. -/
def stripped (line : String) : String := String.ofList (Blank.strip line.toList)

/-- What could be the name of a command. -/
def word (line : String) : String :=
  String.ofList ((Blank.strip line.toList).takeWhile isCommandChar)

def quits : List String := ["exit", "EOF"]

/-- Whether a line is program text. -/
def IsCode (line : String) : Prop :=
  Blank.strip line.toList ≠ [] ∧ (Blank.strip line.toList).head? ≠ some '?' ∧
    word line ≠ "help" ∧ word line ∉ quits

instance : DecidablePred IsCode := fun line =>
  inferInstanceAs (Decidable (Blank.strip line.toList ≠ [] ∧
    (Blank.strip line.toList).head? ≠ some '?' ∧ word line ≠ "help" ∧ word line ∉ quits))

/-- How a line is understood. -/
inductive Reads (line : String) : Entry → Prop
  | code (isCode : IsCode line) : Reads line (.code (stripped line))
  | nothing (noCode : ¬ IsCode line) (stays : word line ∉ quits) : Reads line .nothing
  | help (noCode : ¬ IsCode line) (stays : word line ∉ quits) : Reads line .help
  | exit (noCode : ¬ IsCode line) (leaves : word line ∈ quits) : Reads line .exit
  | endOfInput (noCode : ¬ IsCode line) (leaves : word line ∈ quits) : Reads line .endOfInput

theorem reads_ofLine (line : String) : Reads line (ofLine line) := by
  have hnone {cs : List Char} (hcs : Blank.strip line.toList = cs)
      (hword : cs.takeWhile isCommandChar = []) : word line ∉ quits := by
    rw [word, hcs, hword]
    decide
  rw [ofLine]
  split
  · rename_i hnil
    exact .nothing (fun h => h.1 hnil) (hnone hnil rfl)
  · rename_i cs hmark
    refine .help (fun h => h.2.1 (by rw [hmark]; rfl)) (hnone hmark ?_)
    exact List.takeWhile_cons_of_neg (by decide)
  · rename_i hsome hmark
    split
    · rename_i hword
      exact .help (fun h => h.2.2.1 hword) (by rw [word, hword]; decide)
    · rename_i hword
      have hquits : word line ∈ quits := by rw [word, hword]; decide
      exact .exit (fun h => h.2.2.2 hquits) hquits
    · rename_i hword
      have hquits : word line ∈ quits := by rw [word, hword]; decide
      exact .endOfInput (fun h => h.2.2.2 hquits) hquits
    · rename_i hhelp hexit hend
      refine .code ⟨hsome, ?_, hhelp, ?_⟩
      · intro hhead
        obtain ⟨cs, hcs⟩ := List.head?_eq_some_iff.mp hhead
        exact hmark cs hcs
      · intro hquits
        rcases List.mem_cons.mp hquits with hword | hword
        · exact hexit hword
        · exact hend (List.mem_singleton.mp hword)

end Entry

/-! ## What a line does -/

variable [Host η]

theorem type_code (q : Prompt η) {line : String} (h : Entry.IsCode line) :
    q.type line = q.enter (Entry.stripped line) := by
  have hreads := Entry.reads_ofLine line
  rw [type]
  generalize Entry.ofLine line = entry at hreads ⊢
  cases hreads with
  | code => rfl
  | nothing noCode | help noCode | exit noCode | endOfInput noCode => exact absurd h noCode

/-- What is no program text leaves the prompt as it is. -/
theorem type_noCode (q : Prompt η) {line : String} (h : ¬ Entry.IsCode line) :
    (q.type line).prompt = q ∧ (q.type line).reported = "" := by
  have hreads := Entry.reads_ofLine line
  rw [type]
  generalize Entry.ofLine line = entry at hreads ⊢
  cases hreads with
  | code isCode => exact absurd isCode h
  | nothing | help | exit | endOfInput => exact ⟨rfl, rfl⟩

theorem enter_settles {q : Prompt η} {line : String}
    (h : (Balance.of (join q.pending line)).isOpen = false) :
    q.enter line =
      let settled := Interpreter.settle (q.interpreter.runText (join q.pending line))
      ⟨settled.result.map fun _ => .goOn, ⟨settled.interpreter, ""⟩, settled.printed, ""⟩ := by
  simp only [enter, extend, h]
  rfl

theorem enter_answer (q : Prompt η) (line : String) : (q.enter line).answer ≠ .ok .stop := by
  cases hopen : (Balance.of (join q.pending line)).isOpen with
  | true =>
    rw [enter_open hopen]
    simp
  | false =>
    rw [enter_settles hopen]
    show (Interpreter.settle _).result.map (fun _ => Answer.goOn) ≠ .ok .stop
    cases (Interpreter.settle (q.interpreter.runText (join q.pending line))).result with
    | error fault => simp [Except.map]
    | ok p => simp [Except.map]

theorem type_stops_iff (q : Prompt η) (line : String) :
    (q.type line).answer = .ok .stop ↔ Entry.word line ∈ Entry.quits := by
  have hreads := Entry.reads_ofLine line
  rw [type]
  generalize Entry.ofLine line = entry at hreads ⊢
  cases hreads with
  | code isCode => simp [enter_answer, isCode.2.2.2]
  | nothing _ stays | help _ stays => simp [stays]
  | exit _ leaves | endOfInput _ leaves => simp [leaves]

/-! ## Lines that go on -/

/-- The steps of typing lines one after another, and the prompt behind them. -/
def typeAll (q : Prompt η) : List String → List (Step η) × Prompt η
  | [] => ([], q)
  | line :: lines =>
    let step := q.type line
    let (steps, last) := step.prompt.typeAll lines
    (step :: steps, last)

/-- What was reported in some steps. -/
def reports (steps : List (Step η)) : String := String.join (steps.map Step.reported)

/-- The program text that was typed. -/
def kept (lines : List String) : List String :=
  (lines.filter fun line => Entry.IsCode line).map Entry.stripped

/-- Typing lines does what entering the program text among them does. -/
theorem typeAll_eq (q : Prompt η) (lines : List String) :
    (q.typeAll lines).2 = (q.enterAll (kept lines)).2 ∧
      reports (q.typeAll lines).1 = reports (q.enterAll (kept lines)).1 := by
  induction lines generalizing q with
  | nil => exact ⟨rfl, rfl⟩
  | cons line lines ih =>
    by_cases hcode : Entry.IsCode line
    · have hkept : kept (line :: lines) = Entry.stripped line :: kept lines := by
        simp [kept, hcode]
      rw [hkept, enterAll_cons (type_code q hcode).symm, typeAll]
      obtain ⟨hprompt, hreports⟩ := ih (q.type line).prompt
      simp only [reports, List.map_cons, String.join_cons] at hreports ⊢
      exact ⟨hprompt, by rw [hreports]⟩
    · have hkept : kept (line :: lines) = kept lines := by simp [kept, hcode]
      obtain ⟨hsame, hsilent⟩ := type_noCode q hcode
      rw [hkept, typeAll, hsame]
      obtain ⟨hprompt, hreports⟩ := ih q
      simp only [reports, List.map_cons, String.join_cons, hsilent, String.empty_append]
        at hreports ⊢
      exact ⟨hprompt, hreports⟩

theorem remaining_join {pending line : String} (h : join pending line ≠ "") (lines : List String) :
    remaining (join pending line) lines = remaining pending (line :: lines) := by
  rw [remaining, if_neg h, remaining_cons]

/-- Lines that leave the text open until the last one comes to the same as their text at once. -/
theorem enterAll_joined {q : Prompt η} {lines : List String} {line : String}
    (hopen : ∀ first, first ≠ [] → first <+: lines →
      (Balance.of (remaining q.pending first)).isOpen = true) :
    let step := (start q.interpreter).enter (remaining q.pending (lines ++ [line]))
    (q.enterAll (lines ++ [line])).2 = step.prompt ∧
      reports (q.enterAll (lines ++ [line])).1 = step.reported := by
  induction lines generalizing q with
  | nil =>
    rw [List.nil_append, remaining_cons, String.intercalate_singleton]
    exact ⟨rfl, String.empty_append⟩
  | cons first lines ih =>
    have hfirst : (Balance.of (join q.pending first)).isOpen = true := by
      have hsingle := hopen [first] (List.cons_ne_nil _ _) (by simp)
      rwa [remaining_cons, String.intercalate_singleton] at hsingle
    have hne : join q.pending first ≠ "" := by
      intro hempty
      rw [hempty] at hfirst
      cases hfirst
    -- The first line has become part of the text that waits, and the other lines go on from there.
    let q' : Prompt η := { q with pending := join q.pending first }
    have hopen' : ∀ more, more ≠ [] → more <+: lines →
        (Balance.of (remaining q'.pending more)).isOpen = true := by
      intro more hmore hlines
      rw [remaining_join hne]
      exact hopen (first :: more) (List.cons_ne_nil _ _) (by simpa using hlines)
    obtain ⟨hprompt, hreports⟩ := ih hopen'
    rw [remaining_join hne] at hprompt hreports
    rw [List.cons_append, enterAll_cons (enter_open hfirst)]
    refine ⟨hprompt, ?_⟩
    rw [← hreports]
    exact String.empty_append

end Prompt

/-- What is typed at a prompt loses nothing but what the line alone gives up. It quits exactly if it
starts with a command that quits, waiting text or not; no command and no blank line touches the text
that waits; and any other line is entered without the blanks at its ends. So program text that is
typed over several lines, whatever is typed between them, is run as these lines joined by line
feeds, once they leave it complete, also when a text in quotes spans them. -/
theorem typed_lines_joined [Host η] (q : Prompt η) :
    (∀ line, (q.type line).answer = .ok .stop ↔ Prompt.Entry.word line ∈ Prompt.Entry.quits) ∧
    (∀ line, ¬ Prompt.Entry.IsCode line →
      (q.type line).prompt = q ∧ (q.type line).reported = "") ∧
    (∀ line, Prompt.Entry.IsCode line → q.type line = q.enter (Prompt.Entry.stripped line)) ∧
    (∀ lines before last steps q', Prompt.kept lines = before ++ [last] →
      (∀ first, first ≠ [] → first <+: before →
        (Balance.of (Prompt.remaining q.pending first)).isOpen = true) →
      q.typeAll lines = (steps, q') →
      let text := Prompt.remaining q.pending (Prompt.kept lines)
      let settled := Interpreter.settle (q.interpreter.runText text)
      if (Balance.of text).isOpen then
        q' = ⟨q.interpreter, text⟩ ∧ Prompt.reports steps = ""
      else q' = ⟨settled.interpreter, ""⟩ ∧ Prompt.reports steps = settled.printed) := by
  refine ⟨q.type_stops_iff, fun line => q.type_noCode, fun line => q.type_code, ?_⟩
  intro lines before last steps q' hkept hopen htype text settled
  have hall := q.typeAll_eq lines
  have hjoined := @Prompt.enterAll_joined η _ q before last hopen
  rw [← hkept] at hjoined
  rw [htype, hjoined.1, hjoined.2] at hall
  obtain ⟨hprompt, hreports⟩ : q' = ((Prompt.start q.interpreter).enter text).prompt ∧
    Prompt.reports steps = ((Prompt.start q.interpreter).enter text).reported := hall
  have htext : Prompt.join (Prompt.start q.interpreter).pending text = text := if_pos rfl
  by_cases hbalance : (Balance.of text).isOpen = true
  · have hstep := @Prompt.enter_open η _ (Prompt.start q.interpreter) text
    rw [htext] at hstep
    rw [if_pos hbalance, hprompt, hreports, hstep hbalance]
    exact ⟨rfl, rfl⟩
  · have hstep := @Prompt.enter_settles η _ (Prompt.start q.interpreter) text
    rw [htext] at hstep
    rw [if_neg hbalance, hprompt, hreports, hstep (Bool.eq_false_iff.mpr hbalance)]
    exact ⟨rfl, rfl⟩

/-- A text in quotes that spans lines, with a blank line and a call for help between them. -/
theorem typed_lines_joined_quoted :
    let i : Interpreter Empty := .create ⟨false, false, []⟩ "<in>" true false
    let q : Prompt Empty := ((Prompt.start i).type "(debug \"a").prompt
    let lines := ["  ", " 1 (2", "help me", "b\")"]
    q.sign = ". " ∧ (q.typeAll lines).2.pending = "" ∧
      Prompt.reports (q.typeAll lines).1 = "" ∧
      Event.output (q.typeAll lines).2.interpreter.env.journal = "\"a\\n1 (2\\nb\"\n" := by
  intro i q lines
  have hkept : Prompt.kept lines = ["1 (2"] ++ ["b\")"] := by decide +kernel
  have hopen : ∀ first, first ≠ [] → first <+: ["1 (2"] →
      (Balance.of (Prompt.remaining q.pending first)).isOpen = true := by
    intro first hne hfirst
    obtain rfl : first = ["1 (2"] := by
      rcases List.prefix_cons_iff.mp hfirst with hnil | ⟨more, hmore, hnil⟩
      · exact absurd hnil hne
      · rw [hmore, List.prefix_nil.mp hnil]
    decide +kernel
  obtain ⟨-, -, -, hjoined⟩ := typed_lines_joined q
  have hend := hjoined lines _ _ _ _ hkept hopen (Prod.eta _).symm
  have hclosed : (Balance.of (Prompt.remaining q.pending (Prompt.kept lines))).isOpen = false := by
    decide +kernel
  rw [if_neg (Bool.eq_false_iff.mp hclosed)] at hend
  rw [hend.1, hend.2]
  decide +kernel

/-- What is typed while a text waits is not entered as it is: `exit` quits, a blank line is dropped
and the blanks in front of a line are lost, also in a text in quotes. -/
theorem typed_lines_not_entered :
    let i : Interpreter Empty := .create ⟨false, false, []⟩ "<in>" true false
    let q : Prompt Empty := ((Prompt.start i).type "(debug \"a").prompt
    q.sign = ". " ∧
      ((q.type "exit").answer = .ok .stop ∧ (q.type "exit").prompt.pending = "(debug \"a" ∧
        (q.enter "exit").answer = .ok .goOn ∧
        (q.enter "exit").prompt.pending = "(debug \"a\nexit") ∧
      ((q.type "").prompt.pending = "(debug \"a" ∧
        (q.enter "").prompt.pending = "(debug \"a\n") ∧
      ((q.type "  b").prompt.pending = "(debug \"a\nb" ∧
        (q.enter "  b").prompt.pending = "(debug \"a\n  b") := by
  intro i q
  refine ⟨by decide +kernel, ⟨?_, ?_, ?_, ?_⟩, ⟨?_, ?_⟩, ?_, ?_⟩
  all_goals decide +kernel

end SmallLisp

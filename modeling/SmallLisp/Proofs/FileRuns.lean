import SmallLisp.Command
import SmallLisp.Proofs.Reports

/-!
# Runs of a file

The program runs a file or ends with status 1 and one report. Nothing is printed before the report
if the file cannot be read or parsed; if its evaluation fails, all that was written before stands in
front of it.
-/
namespace SmallLisp

/-! ## Arguments -/

namespace CommandLine

theorem classify_operand {argument : String} (h : argument.toList.head? ≠ some '-') :
    classify argument = .ok (.operand argument) := if_pos h

theorem classify_tree : classify "--ast" = .ok (.option "--ast".toList .tree none) := by
  decide +kernel

theorem ofArguments_file {file : String} (h : file.toList.head? ≠ some '-') (showTree : Bool) :
    ofArguments (if showTree then ["--ast", file] else [file]) =
      .ok ⟨some file, showTree, false⟩ := by
  have hfile : classifyAll [file] = .ok [.operand file] := by
    have hseparator : file ≠ "--" := by
      rintro rfl
      exact h rfl
    rw [classifyAll, if_neg hseparator, classify_operand h]
    rfl
  cases showTree with
  | false =>
    simp only [ofArguments, Bool.false_eq_true, if_false, hfile]
    rfl
  | true =>
    have hall : classifyAll ["--ast", file] =
        .ok [.option "--ast".toList .tree none, .operand file] := by
      rw [classifyAll, if_neg (by decide), classify_tree, hfile]
      rfl
    simp only [ofArguments, if_true, hall]
    rfl

end CommandLine

/-! ## Files -/

namespace Command

/-- The text of a file, or why it cannot be had. No file may have the path of typed lines. -/
def source (files : Files) (path : String) : Except Fault String :=
  if path = Interpreter.typedPath then
    .error (.general ("'" ++ Interpreter.typedPath ++ "' is a reserved filename"))
  else
    match files path with
    | .error e => .error (Interpreter.loadFault path e)
    | .ok bytes => Interpreter.textOf path bytes

/-- The interpreter of a file that has been read. -/
def opened (color showTree : Bool) (path : String) (files : Files) : Interpreter Empty :=
  ((Interpreter.create ⟨true, color, []⟩ path false showTree).load files).2

theorem reported_of_source {files : Files} {path : String} {fault : Fault}
    (h : source files path = .error fault) :
    ∃ d internal, fault.reported? = some (d, internal) := by
  rw [source] at h
  split_ifs at h with hreserved
  · cases h
    exact ⟨_, _, rfl⟩
  · split at h
    · rename_i e _
      cases h
      cases e with
      | nullInPath | notFound | isDirectory | notDirectory | nameTooLong | other =>
        exact ⟨_, _, rfl⟩
    · rw [Interpreter.textOf] at h
      split at h
      · cases h
        exact ⟨_, _, rfl⟩
      · cases h

end Command

namespace Interpreter

theorem settle_fatal {η : Type} {i : Interpreter η} (hfatal : i.reporter.fatal = true)
    {fault : Fault} {d : Diagnostic} {internal : Bool}
    (h : fault.reported? = some (d, internal)) :
    settle (.error fault, i) =
      ⟨.error (.exit (.code 1)), i, i.reporter.render d internal ++ "\n"⟩ := by
  simp only [settle, Reporter.handle_fatal hfatal h]

end Interpreter

namespace Command

variable {color showTree : Bool} {path : String} {files : Files}

theorem start_reserved (r : Reporter) (showTree : Bool) :
    (Interpreter.start r Interpreter.typedPath false showTree :
      Except (Fault × Interpreter Empty) (Interpreter Empty)) =
      .error (.general ("'" ++ Interpreter.typedPath ++ "' is a reserved filename"),
        .create r Interpreter.typedPath false showTree) := by
  simp [Interpreter.start]

theorem start_file (h : path ≠ Interpreter.typedPath) (r : Reporter) (showTree : Bool) :
    (Interpreter.start r path false showTree :
      Except (Fault × Interpreter Empty) (Interpreter Empty)) =
      .ok (.create r path false showTree) := if_neg fun hreserved => h hreserved.2

/-- Reading a file changes nothing but that it is noted. -/
theorem load_file (showTree : Bool) (files : Files) (h : path ≠ Interpreter.typedPath)
    (r : Reporter) :
    let i : Interpreter Empty := .create r path false showTree
    match source files path with
    | .error fault => i.load files = (.error fault, i)
    | .ok text => ∃ remark, i.load files = (.ok text, i.note remark) := by
  intro i
  rw [source, if_neg h, Interpreter.load]
  rcases hfiles : files path with e | bytes
  · have hpath : files i.path = .error e := hfiles
    rw [hpath]
    rfl
  · have hpath : files i.path = .ok bytes := hfiles
    have htext : Interpreter.textOf i.path bytes = Interpreter.textOf path bytes := rfl
    rw [hpath]
    simp only [htext]
    rcases Interpreter.textOf path bytes with fault | text
    · rfl
    · exact ⟨_, rfl⟩

theorem ne_typedPath_of_source {text : String} (h : source files path = .ok text) :
    path ≠ Interpreter.typedPath := by
  intro hreserved
  rw [source, if_pos hreserved] at h
  cases h

/-- A file that cannot be read is reported, and nothing else is printed. -/
theorem runFile_unread {fault : Fault} (h : source files path = .error fault) {d : Diagnostic}
    {internal : Bool} (hd : fault.reported? = some (d, internal)) :
    runFile ⟨true, color, []⟩ ⟨some path, showTree, false⟩ path files =
      ⟨Reporter.render ⟨true, color, [(path, none)]⟩ d internal ++ "\n", "",
        .error (.exit (.code 1))⟩ := by
  let i : Interpreter Empty := .create ⟨true, color, []⟩ path false showTree
  have hsettle : Interpreter.settle (.error fault, i) = _ := Interpreter.settle_fatal rfl hd
  by_cases hreserved : path = Interpreter.typedPath
  · subst hreserved
    rw [source, if_pos rfl] at h
    cases h
    simp only [runFile, start_reserved]
    rw [hsettle]
    rfl
  · have hload := load_file showTree files hreserved ⟨true, color, []⟩
    rw [h] at hload
    simp only [runFile, start_file hreserved, Interpreter.runFile, hload]
    rw [hsettle]
    exact congrArg (fun shown => (⟨shown, "", _⟩ : Outcome)) String.empty_append

theorem opened_eq (color showTree : Bool) {text : String} (h : source files path = .ok text) :
    ∃ remark, (Interpreter.create ⟨true, color, []⟩ path false showTree).load files =
      (.ok text, opened color showTree path files) ∧
      opened color showTree path files =
        (Interpreter.create ⟨true, color, []⟩ path false showTree).note remark := by
  have hload := load_file showTree files (ne_typedPath_of_source h) ⟨true, color, []⟩
  rw [h] at hload
  obtain ⟨remark, hload⟩ := hload
  rw [opened, hload]
  exact ⟨remark, rfl, rfl⟩

theorem runFile_read {text : String} (h : source files path = .ok text) :
    let settled := Interpreter.settle ((opened color showTree path files).runText text)
    runFile ⟨true, color, []⟩ ⟨some path, showTree, false⟩ path files =
      ⟨written settled.interpreter ++ settled.printed, "", settled.result.map fun _ => ()⟩ := by
  obtain ⟨remark, hload, -⟩ := opened_eq color showTree h
  simp only [runFile, start_file (ne_typedPath_of_source h), Interpreter.runFile, hload]
  rfl

/-- What holds when a file has been read: nothing is written yet, and one report ends the
program. -/
structure Fresh (color : Bool) (path : String) (i : Interpreter Empty) : Prop where
  reporter : i.reporter = ⟨true, color, [(path, none)]⟩
  path : i.path = path
  output : Event.output i.env.journal = ""
  legible : i.env.Legible
  kept : i.env.Kept

theorem fresh_opened (color showTree : Bool) {text : String}
    (h : source files path = .ok text) :
    Fresh color path (opened color showTree path files) ∧
      (opened color showTree path files).showTree = showTree := by
  obtain ⟨remark, -, hopened⟩ := opened_eq color showTree h
  rw [hopened]
  refine ⟨⟨rfl, rfl, rfl, Env.legible_initial.note remark, ?_⟩, rfl⟩
  exact (Env.Step.record _ _).kept Env.kept_initial

theorem Fresh.reporter_runText {i : Interpreter Empty} (h : Fresh color path i) (text : String) :
    (i.runText text).2.reporter = ⟨true, color, [(path, some text)]⟩ := by
  rw [(i.reporter_runText text).1, h.reporter, h.path]
  simp [Reporter.register, Keyed.put]

/-- What a run of a text that fails comes to. -/
theorem Fresh.settle_error {i : Interpreter Empty} (h : Fresh color path i) {text : String}
    {fault : Fault} (hresult : (i.runText text).1 = .error fault) :
    ∃ d, fault.reported? = some (d, false) ∧
      Interpreter.settle (i.runText text) = ⟨.error (.exit (.code 1)), (i.runText text).2,
        Reporter.render ⟨true, color, [(path, some text)]⟩ d false ++ "\n"⟩ := by
  have hreporter := h.reporter_runText text
  obtain ⟨d, hd⟩ := i.reported_of_runText h.legible hresult
  have hrun : i.runText text = (.error fault, (i.runText text).2) := Prod.ext hresult rfl
  have hfatal : (i.runText text).2.reporter.fatal = true := by rw [hreporter]
  have hsettle := Interpreter.settle_fatal hfatal hd
  rw [← hrun, hreporter] at hsettle
  exact ⟨d, hd, hsettle⟩

end Command

open SmallLisp.Command in
/-- A run of a file ends with status 1 exactly if reading, parsing or evaluating fails, and then
with one report. If the file cannot be read or parsed, the report is all that is printed. Otherwise
the tree is printed, if it is asked for, then the lines of the calls of the native that were made,
in their order, up to the failure if there is one. -/
theorem file_runs_end {file : String} (hfile : file.toList.head? ≠ some '-') (showTree : Bool)
    (files : Files) (input : String) (color : Bool) :
    let outcome := run (if showTree then ["--ast", file] else [file]) files input color
    let failed (shown : String) : Outcome := ⟨shown ++ "\n", "", .error (.exit (.code 1))⟩
    match source files file with
    | .error fault => ∃ d internal, fault.reported? = some (d, internal) ∧
      outcome = failed (Reporter.render ⟨true, color, [(file, none)]⟩ d internal)
    | .ok text =>
      let r : Reporter := ⟨true, color, [(file, some text)]⟩
      match parse text with
      | .error err => ∃ d, err.fault.reported? = some (d, false) ∧
        outcome = failed (r.render d false)
      | .ok p =>
        let i := opened color showTree file files
        ∃ effects, i.Leaves p effects (i.runText text).2.env ∧
        let shown := (if showTree then p.tree.outline 0 ++ "\n" else "") ++
          Lines.unlines (effects.filterMap fun effect => effect.event.printed?)
        match (p.eval.run.run (i.prepare p)).1 with
        | .error err => ∃ d, err.fault.reported? = some (d, false) ∧
          outcome = failed (shown ++ r.render d false)
        | .ok _ => effects.map Effect.node = Expr.postorders p.exprs ∧
          outcome = ⟨shown, "", .ok ()⟩ := by
  intro outcome failed
  have houtcome : outcome = runFile ⟨true, color, []⟩ ⟨some file, showTree, false⟩ file files := by
    show run _ files input color = _
    simp only [run, CommandLine.ofArguments_file hfile]
  rcases hsource : source files file with fault | text
  · obtain ⟨d, internal, hd⟩ := reported_of_source hsource
    exact ⟨d, internal, hd, houtcome.trans (runFile_unread hsource hd)⟩
  obtain ⟨hfresh, hshow⟩ := fresh_opened color showTree hsource
  rw [runFile_read hsource] at houtcome
  generalize opened color showTree file files = i at hfresh hshow houtcome ⊢
  dsimp only
  rcases hparse : parse text with err | p
  · have hrun := Interpreter.runText_refused (i := i) hparse
    have hwritten : written (i.runText text).2 = "" := by
      rw [hrun]
      exact hfresh.output
    obtain ⟨d, hd, hsettle⟩ := hfresh.settle_error (congrArg Prod.fst hrun)
    refine ⟨d, hd, ?_⟩
    rw [houtcome, hsettle, hwritten, String.empty_append]
    rfl
  · obtain ⟨effects, hleaves, hall⟩ := Interpreter.exists_leaves hfresh.kept p
    have hrun := Interpreter.runText_parsed (i := i) hparse
    rw [← Interpreter.env_runText hparse] at hleaves
    have hwritten : written (i.runText text).2 =
        (if showTree then p.tree.outline 0 ++ "\n" else "") ++
          Lines.unlines (effects.filterMap fun effect => effect.event.printed?) := by
      rw [written, hleaves.output, hfresh.output, hshow, String.empty_append]
    refine ⟨effects, hleaves, ?_⟩
    rcases heval : p.eval.run.run (i.prepare p) with ⟨err | v, env⟩
    · rw [heval] at hrun
      obtain ⟨d, hd, hsettle⟩ := hfresh.settle_error (congrArg Prod.fst hrun)
      refine ⟨d, hd, ?_⟩
      rw [houtcome, hsettle, hwritten]
      simp only [failed, String.append_assoc]
      rfl
    · rw [heval] at hrun hall
      have hsettle : Interpreter.settle (i.runText text) =
          ⟨.ok (some p), (i.runText text).2, ""⟩ := by
        rw [hrun]
        rfl
      refine ⟨hall rfl, ?_⟩
      rw [houtcome, hsettle, hwritten, String.append_empty]
      rfl

/-- A file with an unbound name behind a call, its tree shown. -/
theorem file_runs_end_unbound :
    let files : Files := fun _ => .ok "(debug 1)\nb".toUTF8
    let outcome := Command.run ["--ast", "f"] files "" false
    (parse "(debug 1)\nb").isOk = true ∧ outcome.result = .error (.exit (.code 1)) ∧
      outcome.stdout = "Program(location=1:1, nodes=[\n" ++
        "    CallExpr(location=1:1, nodes=[\n" ++
        "        IdentifierExpr(location=1:2, name='debug'),\n" ++
        "        IntegerLiteral(location=1:8, value=1)\n" ++
        "    ]),\n" ++
        "    IdentifierExpr(location=2:1, name='b')\n" ++
        "])\n1\nf:2:1: Unbound: 'b' is not bound\n  b\n  ^\n" := by
  intro files outcome
  have hsource : Command.source files "f" = .ok "(debug 1)\nb" := by decide +kernel
  have hparses : (parse "(debug 1)\nb").isOk = true := by decide +kernel
  have hfails : outcome.result.isOk = false := by decide +kernel
  have hfile : "f".toList.head? ≠ some '-' := by decide
  have hends := file_runs_end hfile true files "" false
  rw [hsource] at hends
  refine ⟨hparses, ?_, by decide +kernel⟩
  rcases hparse : parse "(debug 1)\nb" with err | p
  · rw [hparse] at hparses
    cases hparses
  · simp only [hparse] at hends
    obtain ⟨effects, -, hend⟩ := hends
    rcases heval : (p.eval.run.run ((Command.opened false true "f" files).prepare p)).1 with err | v
    · rw [heval] at hend
      obtain ⟨d, -, houtcome⟩ := hend
      exact congrArg Command.Outcome.result houtcome
    · rw [heval] at hend
      have hok : outcome.result = .ok () := congrArg Command.Outcome.result hend.2
      rw [hok] at hfails
      cases hfails

end SmallLisp

import SmallLisp.Proofs.Interactive

/-!
# Texts one after another

A text that parses and another one below it make a text that is to the two what running the one
after the other is to a run: its expressions are theirs, and what is wrong with the second text is
wrong with the whole, only further down.
-/
namespace SmallLisp

open SmallLisp.Parser

variable {η : Type}

/-! ## Parsing -/

theorem Location.after_eq (p : Location) (cs : List Char) :
    (p.after cs).offset = p.offset + cs.length ∧ (p.after cs).row = p.row + cs.count '\n' := by
  induction cs generalizing p with
  | nil => simp
  | cons c cs ih =>
    obtain ⟨hoffset, hrow⟩ := ih (p.next c)
    rw [after_cons, hoffset, hrow, List.length_cons, next]
    by_cases hc : c = '\n'
    · rw [if_pos hc, hc, List.count_cons_self]
      dsimp only
      omega
    · rw [if_neg hc, List.count_cons_of_ne hc]
      dsimp only
      omega

/-- Below a text, places are further by its characters and its lines. -/
theorem Location.below_eq (a : String) (p : Location) :
    below a p = ⟨p.offset + (a.length + 1), p.row + (1 + a.toList.count '\n'), p.col⟩ := by
  obtain ⟨hoffset, hrow⟩ := after_eq start (a.toList ++ ['\n'])
  rw [below, shift, hoffset, hrow]
  simp only [start, List.length_append, List.count_append, List.length_singleton,
    String.length_toList, List.count_singleton_self, mk.injEq, and_true]
  omega

theorem parse_below {a : String} {pa : Program} (ha : parse a = .ok pa) (b : String) :
    ∃ location, parse (a ++ "\n" ++ b) =
      match parse b with
      | .ok pb =>
        .ok ⟨location, pa.exprs ++ pb.exprs.map (Expr.relocate (Location.below a))⟩
      | .error err => .error (err.relocate (Location.below a)) := by
  obtain ⟨us, t, hus, -, -, hread⟩ := exists_reading_of_parse ha
  rcases hvs : tokenize b with ⟨vs, stop⟩
  have hall := Progress.feedAll_append_ok hread (vs.map (Token.relocate (Location.below a)))
  rw [Progress.feedAll_behind] at hall
  rw [parse_eq (a ++ "\n" ++ b), tokenize_append hus hvs, hall, parse_eq b, hvs]
  rcases Progress.start.feedAll vs with err | g
  · exact ⟨default, rfl⟩
  · cases stop with
    | some e => exact ⟨default, rfl⟩
    | none => exact ⟨_, rfl⟩

/-! ## Running -/

def Fault.relocate (f : Location → Location) : Fault → Fault
  | .diagnostic d => .diagnostic ⟨d.problem, d.location.map f⟩
  | fault => fault

theorem EvalError.fault_relocate (f : Location → Location) (err : EvalError) :
    (err.relocate f).fault = err.fault.relocate f := by
  obtain ⟨cause, location⟩ := err
  cases cause with
  | alreadyBound | unbound | notCallable | onlyGlobal => rfl

theorem EvalError.relocate_id (err : EvalError) : err.relocate id = err := by
  rw [relocate, Option.map_id_fun, id]

variable [Host η]

/-- Whether what was called last is a native of the host that raised what is now the fault. -/
def Fault.Raised (e : Env η) (fault : Fault) : Prop := ∃ err, Host.Raised e err ∧ err.fault = fault

namespace Interpreter

/-- Runs a text, and if that succeeds another one. -/
def runBoth (i : Interpreter η) (a b : String) : Except Fault Program × Interpreter η :=
  match i.runText a with
  | (.error fault, j) => (.error fault, j)
  | (.ok _, j) => j.runText b

/-- Whether a run of a text and another one below it, whose program is `p`, does the same as running
the one and, if that succeeds, the other. -/
structure Composes (i : Interpreter η) (a b : String) (p : Program) : Prop where
  like : (i.runBoth a b).2.env.Like (i.runText (a ++ "\n" ++ b)).2.env
  output : Event.output (i.runText (a ++ "\n" ++ b)).2.env.journal =
    Event.output (i.runBoth a b).2.env.journal
  success : ∀ pb, (i.runBoth a b).1 = .ok pb → (i.runText (a ++ "\n" ++ b)).1 = .ok p
  /-- A fault of the first text stays as it is. -/
  above : ∀ fault, (i.runText a).1 = .error fault →
    (i.runText (a ++ "\n" ++ b)).1 = .error fault
  /-- A fault of the second text moves with it, but for what a native of the host raised. -/
  below : ∀ pa j fault, i.runText a = (.ok pa, j) → (j.runText b).1 = .error fault →
    (i.runText (a ++ "\n" ++ b)).1 = .error (fault.relocate (Location.below a)) ∨
      (i.runText (a ++ "\n" ++ b)).1 = .error fault ∧ Fault.Raised (j.runText b).2.env fault

theorem composes_above {i j i' : Interpreter η} {a b : String} {fault : Fault}
    (hparts : i.runText a = (.error fault, j))
    (hwhole : i.runText (a ++ "\n" ++ b) = (.error fault, i')) (hlike : j.env.Like i'.env)
    (p : Program) : i.Composes a b p := by
  have hboth : i.runBoth a b = (.error fault, j) := by rw [runBoth, hparts]
  refine ⟨?_, ?_, ?_, ?_, ?_⟩
  · rw [hwhole, hboth]
    exact hlike
  · rw [hwhole, hboth]
    exact hlike.output.symm
  · intro pb hok
    rw [hboth] at hok
    cases hok
  · intro fault' hfault
    rw [hparts] at hfault
    rw [hwhole]
    exact hfault
  · intro pa j' fault' hok
    rw [hparts] at hok
    cases hok

theorem composes_below {i j j' i' : Interpreter η} {a b : String} {pa p : Program}
    {result result' : Except Fault Program} (hparts : i.runText a = (.ok pa, j))
    (hrest : j.runText b = (result, j')) (hwhole : i.runText (a ++ "\n" ++ b) = (result', i'))
    (hlike : j'.env.Like i'.env) (hsuccess : ∀ pb, result = .ok pb → result' = .ok p)
    (hfault : ∀ fault, result = .error fault →
      result' = .error (fault.relocate (Location.below a)) ∨
        result' = .error fault ∧ Fault.Raised j'.env fault) : i.Composes a b p := by
  have hboth : i.runBoth a b = (result, j') := by rw [runBoth, hparts, ← hrest]
  refine ⟨?_, ?_, ?_, ?_, ?_⟩
  · rw [hwhole, hboth]
    exact hlike
  · rw [hwhole, hboth]
    exact hlike.output.symm
  · intro pb hok
    rw [hboth] at hok
    rw [hwhole]
    exact hsuccess pb hok
  · intro fault hfault'
    rw [hparts] at hfault'
    cases hfault'
  · intro pa' j₁ fault hok hfault'
    rw [hparts] at hok
    cases hok
    rw [hrest] at hfault' ⊢
    rw [hwhole]
    exact hfault fault hfault'

theorem composes_of_ends {i j i' : Interpreter η} {a b : String} {pa pb p : Program}
    {r : Except EvalError (List (Value η))} (hparts : i.runText a = (.ok pa, j))
    (hends : j.Ends (Location.below a) pb (j.runText b) (r, i'.env))
    (hwhole : i.runText (a ++ "\n" ++ b) = ((r.mapError EvalError.fault).map fun _ => p, i')) :
    i.Composes a b p := by
  rcases hrest : j.runText b with ⟨result, j'⟩
  rw [hrest] at hends
  cases hends with
  | ok shows alike =>
    apply composes_below hparts hrest hwhole alike.like
    · intro _ _
      rfl
    · intro _ hfault
      cases hfault
  | error alike =>
    apply composes_below hparts hrest hwhole alike.like
    · intro _ hok
      cases hok
    · intro _ hfault
      cases hfault
      exact .inl (congrArg Except.error (EvalError.fault_relocate _ _))
  | raised alike raised =>
    apply composes_below hparts hrest hwhole alike.like
    · intro _ hok
      cases hok
    · intro _ hfault
      cases hfault
      exact .inr ⟨rfl, _, raised, rfl⟩

theorem runText_of_evalAll {i : Interpreter η} {text : String} {p : Program}
    {r : Except EvalError (List (Value η))} {e : Env η} (hshow : i.showTree = false)
    (hparse : parse text = .ok p)
    (heval : (Expr.evalAll p.exprs).run.run (i.env.record (.noted (i.remark p))) = (r, e)) :
    ∃ i', i.runText text = ((r.mapError EvalError.fault).map fun _ => p, i') ∧ i'.env = e := by
  rw [runText_eq hshow hparse, heval]
  cases r with
  | error err => exact ⟨_, rfl, rfl⟩
  | ok values => exact ⟨_, rfl, rfl⟩

theorem composes {i : Interpreter η} {a b : String} {pa pb p : Program} (ha : parse a = .ok pa)
    (hb : parse b = .ok pb) (hp : parse (a ++ "\n" ++ b) = .ok p)
    (hexprs : p.exprs = pa.exprs ++ pb.exprs.map (Expr.relocate (Location.below a)))
    (hshow : i.showTree = false) (htame : i.env.Tame) : i.Composes a b p := by
  let e := i.env.record (.noted (i.remark p))
  have halike : i.env.Alike e := ⟨Env.Like.remark_right ⟨rfl, rfl, rfl⟩ _, htame⟩
  have hfirst := runText_ends hshow ha halike id
  rw [Expr.relocateAll_id] at hfirst
  let below : List Expr := pb.exprs.map (Expr.relocate (Location.below a))
  have hsplit : (Expr.evalAll p.exprs).run.run e =
      (Expr.evalAll pa.exprs >>= fun values =>
        Expr.evalAll below >>= fun rest => pure (values ++ rest)).run.run e := by
    rw [hexprs, Expr.evalAll_append]
  rw [Action.run_bind] at hsplit
  rcases hparts : i.runText a with ⟨result, j⟩
  rw [hparts] at hfirst
  rcases hpa : (Expr.evalAll pa.exprs).run.run e with ⟨err | values, e₁⟩
  · rw [hpa] at hsplit hfirst
    obtain ⟨i', hwhole, rfl⟩ := runText_of_evalAll hshow hp hsplit
    cases hfirst with
    | error alike =>
      rw [EvalError.relocate_id] at hwhole
      exact composes_above hparts hwhole alike.like p
    | raised alike => exact composes_above hparts hwhole alike.like p
  · rw [hpa] at hsplit hfirst
    cases hfirst with
    | ok shows alike =>
      have hsecond := runText_ends shows hb alike (Location.below a)
      rw [Expr.relocateAll_eq_map] at hsecond
      simp only [Action.run_bind] at hsplit
      rcases hpb : (Expr.evalAll below).run.run e₁ with ⟨err | rest, e₂⟩
      · rw [hpb] at hsplit hsecond
        obtain ⟨i', hwhole, rfl⟩ := runText_of_evalAll hshow hp hsplit
        exact composes_of_ends hparts hsecond hwhole
      · rw [hpb] at hsplit hsecond
        obtain ⟨i', hwhole, rfl⟩ := runText_of_evalAll hshow hp hsplit
        exact composes_of_ends hparts hsecond hwhole

end Interpreter

/-- A text `a` that parses and another one `b` below it. Places in `b` are further by the characters
and the lines of `a`. The whole parses if `b` does, to the expressions of both; else it has the
error of `b`. If both parse, running the whole is as running the one and then, if that succeeds, the
other: to the environment, which differs in remarks for the log only, to the output and to the
fault, whose place is as far down as `b` is unless a native of the host gave it. -/
theorem sources_compose {a : String} {pa : Program} (ha : parse a = .ok pa) (b : String) :
    (∀ p, Location.below a p =
      ⟨p.offset + (a.length + 1), p.row + (1 + a.toList.count '\n'), p.col⟩) ∧
    (∀ err, parse b = .error err →
      parse (a ++ "\n" ++ b) = .error (err.relocate (Location.below a))) ∧
    (∀ pb, parse b = .ok pb → ∃ p, parse (a ++ "\n" ++ b) = .ok p ∧
      p.exprs = pa.exprs ++ pb.exprs.map (Expr.relocate (Location.below a)) ∧
      ∀ i : Interpreter η, i.showTree = false → i.env.Tame → i.Composes a b p) := by
  obtain ⟨location, hwhole⟩ := parse_below ha b
  refine ⟨Location.below_eq a, ?_, ?_⟩
  · intro err hb
    rwa [hb] at hwhole
  · intro pb hb
    rw [hb] at hwhole
    refine ⟨_, hwhole, rfl, ?_⟩
    intro i hshow htame
    exact Interpreter.composes ha hb hwhole rfl hshow htame

/-- A text in two lines, whose second part has a name that is not bound. -/
theorem sources_compose_unbound :
    let a := "(define x\n 1)"
    let b := "(debug x)\n(debug y)"
    let i : Interpreter Empty := .create ⟨true, false, []⟩ "file" false false
    let r := i.runText (a ++ "\n" ++ b)
    r.1 = .error (.diagnostic ⟨.eval (.unbound "y"), some ⟨31, 4, 8⟩⟩) ∧
      Event.output r.2.env.journal = "1\n" ∧
      r.2.env.scopes = (i.runBoth a b).2.env.scopes := by
  intro a b i r
  let pa : Program := (parse a).toOption.getD ⟨.start, []⟩
  let pb : Program := (parse b).toOption.getD ⟨.start, []⟩
  have ha : parse a = .ok pa := by decide +kernel
  have hb : parse b = .ok pb := by decide +kernel
  obtain ⟨-, -, hboth⟩ := @sources_compose Empty _ a pa ha b
  obtain ⟨p, -, -, hruns⟩ := hboth pb hb
  have hcomposes : i.Composes a b p := hruns i rfl Env.tame_initial
  have houtput : Event.output (i.runBoth a b).2.env.journal = "1\n" := by decide +kernel
  refine ⟨?_, hcomposes.output.trans houtput, hcomposes.like.scopes⟩
  have hok : i.runText a = (.ok pa, (i.runText a).2) := Prod.ext (by decide +kernel) rfl
  have hfault : ((i.runText a).2.runText b).1 =
    .error (.diagnostic ⟨.eval (.unbound "y"), some ⟨17, 2, 8⟩⟩) := by decide +kernel
  rcases hcomposes.below _ _ _ hok hfault with hmoved | ⟨-, err, ⟨_, function, -⟩, -⟩
  · rw [hmoved]
    decide +kernel
  · exact function.elim

end SmallLisp

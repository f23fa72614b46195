import SmallLisp.Proofs.Blame
import SmallLisp.Proofs.Gaps
import SmallLisp.Proofs.Sequence

/-!
# Layout

Nothing but reports depends on where the tokens of a text stand. Two texts with the same tokens have
the same trees up to places, do the same when they are run, and fail alike, each at its own token.
-/
namespace SmallLisp

open SmallLisp.Lexeme SmallLisp.Parser

variable {η : Type}

/-! ## Tokens by their numbers -/

/-- Tokens that have their numbers in the place of an offset. -/
def Token.numbered (kinds : List Token.Kind) : List Token :=
  kinds.mapIdx fun k kind => ⟨kind, ⟨k, 0, 0⟩⟩

/-- The place in a text of the token that `p` numbers, or of the last one if there are fewer. -/
def Token.placeIn (ts : List Token) (p : Location) : Location :=
  (ts[min p.offset.toNat (ts.length - 1)]?.map Token.location).getD default

theorem Token.numbered_relocate (ts : List Token) :
    (numbered (ts.map Token.kind)).map (Token.relocate (placeIn ts)) = ts := by
  apply List.ext_getElem
  · simp [numbered]
  · intro k hk hk'
    have hmin : min k (ts.length - 1) = k := by omega
    simp [numbered, relocate, placeIn, hmin, hk']

theorem Token.exists_placeIn {ts : List Token} (h : ts ≠ []) (p : Location) :
    ∃ t, ts[min p.offset.toNat (ts.length - 1)]? = some t ∧ placeIn ts p = t.location := by
  have hlength := List.length_pos_of_ne_nil h
  have hlt : min p.offset.toNat (ts.length - 1) < ts.length := by omega
  have hget := List.getElem?_eq_getElem hlt
  exact ⟨_, hget, by simp [placeIn, hget]⟩

/-- A text is parsed as the numbers of its tokens are read, each being replaced by the place of the
token. -/
theorem parse_numbered (text : String) :
    let ts := (tokenize text).1
    match Progress.start.feedAll (Token.numbered (ts.map Token.kind)), (tokenize text).2 with
    | .error err, _ => parse text = .error (err.relocate (Token.placeIn ts))
    | .ok _, some e => parse text = .error (.malformed e)
    | .ok g, none => ∃ p, parse text = .ok p ∧
      p.exprs = Expr.relocateAll (Token.placeIn ts) g.finished := by
  intro ts
  have hread := Progress.feedAll_relocate (Token.placeIn ts) .start
    (Token.numbered (ts.map Token.kind))
  rw [Token.numbered_relocate] at hread
  replace hread : Progress.start.feedAll ts = _ := hread
  rw [parse_eq, hread]
  rcases Progress.start.feedAll (Token.numbered (ts.map Token.kind)) with err | g
  · rfl
  · cases (tokenize text).2 with
    | some e => rfl
    | none =>
      refine ⟨_, rfl, ?_⟩
      rw [Expr.relocateAll_eq_map]
      rfl

/-! ## Nodes -/

theorem Expr.trees_eq_map (es : List Expr) : Expr.trees es = es.map Expr.tree := by
  induction es with
  | nil => rfl
  | cons e es ih => rw [trees, ih, List.map_cons]

theorem Expr.tree_location (x : Expr) : x.tree.location = x.location := by
  cases x with
  | symbol | integer | text | define | call => rfl

namespace Expr

/-- Whether a node of the tree has the place `p`, which is the same one wherever the text stands. -/
def HasNode (x : Expr) (p : Location) : Prop :=
  ∃ path, ∀ f, ∃ t, (x.relocate f).tree.descend? path = some t ∧ t.location = f p

/-- Whether a node of one of the trees has the place `p`. -/
def AnyHasNode (xs : List Expr) (p : Location) : Prop :=
  ∃ (i : Nat) (x : Expr), xs[i]? = some x ∧ x.HasNode p

theorem hasNode_self (x : Expr) : x.HasNode x.location :=
  ⟨[], fun f => ⟨_, rfl, by rw [tree_location, location_relocate]⟩⟩

theorem HasNode.value {value : Expr} {p : Location} (h : value.HasNode p) (target : Symbol)
    (location : Location) : (define target value location).HasNode p := by
  obtain ⟨path, hpath⟩ := h
  exact ⟨1 :: path, hpath⟩

theorem HasNode.callee {callee : Expr} {p : Location} (h : callee.HasNode p)
    (arguments : List Expr) (location : Location) : (call callee arguments location).HasNode p := by
  obtain ⟨path, hpath⟩ := h
  exact ⟨0 :: path, hpath⟩

theorem descend?_trees {xs : List Expr} {i : Nat} {x : Expr} (hi : xs[i]? = some x)
    (f : Location → Location) (path : List Nat) :
    ((trees (relocateAll f xs))[i]?.bind fun t => t.descend? path) =
      (x.relocate f).tree.descend? path := by
  simp [trees_eq_map, relocateAll_eq_map, hi]

theorem AnyHasNode.argument {arguments : List Expr} {p : Location} (h : AnyHasNode arguments p)
    (callee : Expr) (location : Location) : (call callee arguments location).HasNode p := by
  obtain ⟨i, x, hi, path, hpath⟩ := h
  refine ⟨(i + 1) :: path, fun f => ?_⟩
  obtain ⟨t, ht, hlocation⟩ := hpath f
  exact ⟨t, (descend?_trees hi f path).trans ht, hlocation⟩

theorem HasNode.head {x : Expr} {p : Location} (h : x.HasNode p) (xs : List Expr) :
    AnyHasNode (x :: xs) p := ⟨0, x, rfl, h⟩

theorem AnyHasNode.tail {xs : List Expr} {p : Location} (h : AnyHasNode xs p) (x : Expr) :
    AnyHasNode (x :: xs) p := by
  obtain ⟨i, y, hi, hy⟩ := h
  exact ⟨i + 1, y, hi, hy⟩

end Expr

/-! ## Evaluation -/

section

variable [Host η] {α β : Type} {nodes : Location → Prop} {e : Env η}

/-- Whether what `F f` does from `e` depends on `f` only in the place of an error, which is then the
one of a node. What the host raised, and what has no place, does not depend on it. -/
inductive Uniform (nodes : Location → Prop) (e : Env η) (F : (Location → Location) → Action η α) :
    Prop
  | ok {a e'} (runs : ∀ f, (F f).run.run e = (.ok a, e'))
  | error {cause p e'} (node : nodes p)
      (runs : ∀ f, (F f).run.run e = (.error ⟨cause, some (f p)⟩, e'))
  | fixed {err e'} (foreign : err.location = none ∨ Host.Raised e' err)
      (runs : ∀ f, (F f).run.run e = (.error err, e'))

/-- An error of a native has no place, unless the native is the host's and raised it. -/
theorem Action.foreign_of_invoke {name : String} {function : Native η} {arguments : List (Value η)}
    {err : EvalError} {e' : Env η}
    (h : (invoke name function arguments).run.run e = (.error err, e')) :
    err.location = none ∨ Host.Raised e' err := by
  cases function with
  | debug => cases h
  | host function =>
    rw [run_invoke rfl, follow, run_bind] at h
    generalize hcalled : e.record (.invoked name (.host function) arguments) = called at h
    have hhead : called.history.head? = some (.invoked name (.host function) arguments) := by
      rw [← hcalled]
      rfl
    rcases hmoves : ((Host.react function arguments called).moves.forM perform).run.run called with
      ⟨err' | _, e₁⟩
    · rw [hmoves] at h
      cases h
      exact .inl (placeless_moves _ called err (congrArg Prod.fst hmoves))
    · rw [hmoves] at h
      rcases hresult : (Host.react function arguments called).result with err' | value
      · rw [hresult] at h
        cases h
        exact .inr (raised_of_moves hhead hmoves hresult)
      · rw [hresult] at h
        cases h

namespace Uniform

theorem mono {nodes' : Location → Prop} {F : (Location → Location) → Action η α}
    (h : Uniform nodes e F) (hnodes : ∀ p, nodes p → nodes' p) : Uniform nodes' e F := by
  cases h with
  | ok runs => exact .ok runs
  | error node runs => exact .error (hnodes _ node) runs
  | fixed foreign runs => exact .fixed foreign runs

theorem bind {F : (Location → Location) → Action η α} {G : (Location → Location) → α → Action η β}
    (hF : Uniform nodes e F) (hG : ∀ a e', Uniform nodes e' fun f => G f a) :
    Uniform nodes e fun f => F f >>= G f := by
  cases hF with
  | error node runs => exact .error node fun f => by rw [Action.run_bind, runs f]
  | fixed foreign runs => exact .fixed foreign fun f => by rw [Action.run_bind, runs f]
  | @ok a e' runs =>
    have hrun (f : Location → Location) : (F f >>= G f).run.run e = (G f a).run.run e' := by
      rw [Action.run_bind, runs f]
    cases hG a e' with
    | ok runs' => exact .ok fun f => (hrun f).trans (runs' f)
    | error node runs' => exact .error node fun f => (hrun f).trans (runs' f)
    | fixed foreign runs' => exact .fixed foreign fun f => (hrun f).trans (runs' f)

theorem resolve (name : String) {p : Location} (hp : nodes p) :
    Uniform nodes e fun f => Action.resolve name (some (f p)) := by
  rcases hfound : e.stack.findSome? fun number => (e.scope number).get? name with - | value
  · have hruns (f : Location → Location) : (Action.resolve name (some (f p))).run.run e =
        (.error ⟨.unbound name, some (f p)⟩, e) := by
      rw [Action.run_resolve, Env.resolve, hfound]
    exact .error hp hruns
  · have hruns (f : Location → Location) : (Action.resolve name (some (f p))).run.run e =
        (.ok value, e) := by
      rw [Action.run_resolve, Env.resolve, hfound]
    exact .ok hruns

theorem define (name : String) (value : Value η) {p : Location} (hp : nodes p) :
    Uniform nodes e fun f => Action.bind name value (some (f p)) := by
  rcases hbound : (e.scope e.innermost).bind? name value with - | s
  · have hruns (f : Location → Location) : (Action.bind name value (some (f p))).run.run e =
        (.error ⟨.alreadyBound name, some (f p)⟩, e) := by
      rw [Action.run_define, Env.bind, hbound]
    exact .error hp hruns
  · obtain ⟨e', hbind⟩ : ∃ e', ∀ location, e.bind name value location = .ok e' :=
      ⟨_, fun _ => by rw [Env.bind, hbound]⟩
    have hruns (f : Location → Location) : (Action.bind name value (some (f p))).run.run e =
        (.ok (), e') := by
      rw [Action.run_define, hbind]
    exact .ok hruns

theorem notCallable (callee : Expr) (value : Value η) (hp : nodes callee.location) :
    Uniform nodes e fun f => (Action.fail (.notCallable ((callee.relocate f).calleeName value))
      (some (callee.relocate f).location) : Action η (Value η)) := by
  have hruns (f : Location → Location) :
      (Action.fail (.notCallable ((callee.relocate f).calleeName value))
        (some (callee.relocate f).location) : Action η (Value η)).run.run e =
        (.error ⟨.notCallable (callee.calleeName value), some (f callee.location)⟩, e) := by
    rw [Expr.calleeName_relocate, Expr.location_relocate]
    rfl
  exact .error hp hruns

theorem invoke (name : String) (function : Native η) (arguments : List (Value η)) :
    Uniform nodes e fun _ => Action.invoke name function arguments := by
  rcases hrun : (Action.invoke name function arguments).run.run e with ⟨err | v, e'⟩
  · exact .fixed (Action.foreign_of_invoke hrun) fun _ => hrun
  · exact .ok fun _ => hrun

end Uniform

namespace Expr

mutual

theorem eval_uniform : (x : Expr) → (e : Env η) → Uniform x.HasNode e fun f => (x.relocate f).eval
  | .symbol s, _ => .resolve s.name (hasNode_self (.symbol s))
  | .integer .., _ => .ok fun _ => rfl
  | .text .., _ => .ok fun _ => rfl
  | .define target value location, e => by
    have hvalue := (eval_uniform value e).mono fun p hp => hp.value target location
    apply hvalue.bind
    intro v e'
    have hdefine : Uniform (define target value location).HasNode e' fun f =>
        Action.bind target.name v (some (f location)) :=
      .define target.name v (hasNode_self (.define target value location))
    exact hdefine.bind fun _ _ => .ok fun _ => rfl
  | .call callee arguments location, e => by
    have hcallee := (eval_uniform callee e).mono fun p hp => hp.callee arguments location
    apply hcallee.bind
    intro v e'
    cases v with
    | native name function =>
      have harguments := (evalAll_uniform arguments e').mono fun p hp => hp.argument callee location
      exact harguments.bind fun values _ => .invoke name function values
    | integer | text | nothing | deferred =>
      exact .notCallable callee _ ((hasNode_self callee).callee arguments location)

theorem evalAll_uniform : (xs : List Expr) → (e : Env η) →
    Uniform (AnyHasNode xs) e fun f => evalAll (relocateAll f xs)
  | [], _ => .ok fun _ => rfl
  | x :: xs, e => by
    have hfirst := (eval_uniform x e).mono fun p hp => hp.head xs
    apply hfirst.bind
    intro v e'
    have hrest := (evalAll_uniform xs e').mono fun p hp => hp.tail x
    exact hrest.bind fun _ _ => .ok fun _ => rfl

end

end Expr

/-! ## Runs -/

def Fault.place? : Fault → Option Location
  | .diagnostic d => d.location
  | _ => none

theorem EvalError.place?_fault {err : EvalError} (h : err.location = none) :
    err.fault.place? = none := by
  obtain ⟨cause, location⟩ := err
  obtain rfl : location = none := h
  cases cause with
  | alreadyBound | unbound | notCallable | onlyGlobal => rfl

/-- Whether two texts that were run from the same state came to the same: to programs that differ in
places only, or to the same problem. Each text is blamed for it at the token that was refused, at
what no token can be cut from, or at a node of its tree, and these have the same number among the
tokens or the same position in the tree. What the host raised, and what has no place, is the same
fault. -/
inductive SameResult (a b : String) (e : Env η) :
    Except Fault Program → Except Fault Program → Prop
  | ok {p q : Program} (exprs : q.exprs.map Expr.bare = p.exprs.map Expr.bare) :
      SameResult a b e (.ok p) (.ok q)
  | token {k : Nat} {t u : Token} {message : String} (first : (tokenize a).1[k]? = some t)
      (second : (tokenize b).1[k]? = some u) :
      SameResult a b e (.error (.diagnostic ⟨.syntactic message, some t.location⟩))
        (.error (.diagnostic ⟨.syntactic message, some u.location⟩))
  | lexeme {err err' : LexError} (first : (tokenize a).2 = some err)
      (second : (tokenize b).2 = some err') (message : err'.message = err.message) :
      SameResult a b e (.error (.diagnostic ⟨.malformed err.message, some err.location⟩))
        (.error (.diagnostic ⟨.malformed err.message, some err'.location⟩))
  | node {p q : Program} {path : List Nat} {t u : Tree} {cause : EvalError.Cause}
      (first : parse a = .ok p) (second : parse b = .ok q)
      (reaches : p.tree.descend? path = some t) (reaches' : q.tree.descend? path = some u) :
      SameResult a b e (.error (.diagnostic ⟨.eval cause, some t.location⟩))
        (.error (.diagnostic ⟨.eval cause, some u.location⟩))
  | fixed {fault : Fault} (foreign : fault.place? = none ∨ fault.Raised e) :
      SameResult a b e (.error fault) (.error fault)

/-- Whether running two texts does the same. -/
structure Interpreter.SameRun (i : Interpreter η) (a b : String) : Prop where
  result : SameResult a b (i.runText a).2.env (i.runText a).1 (i.runText b).1
  env : (i.runText b).2.env = (i.runText a).2.env

theorem Program.exists_node {xs : List Expr} {q : Location} (hq : Expr.AnyHasNode xs q) :
    ∃ path, ∀ (f : Location → Location) (p : Program), p.exprs = Expr.relocateAll f xs →
      ∃ t, p.tree.descend? path = some t ∧ t.location = f q := by
  obtain ⟨i, x, hi, path, hpath⟩ := hq
  refine ⟨i :: path, fun f p hp => ?_⟩
  obtain ⟨t, ht, hlocation⟩ := hpath f
  refine ⟨t, ?_, hlocation⟩
  rw [← ht, ← Expr.descend?_trees hi f path, ← hp]
  rfl

namespace Interpreter

variable {i : Interpreter η} {a b : String}

theorem sameRun_refused (h : SameTokens a b) {err : ParseError}
    (hread : Progress.start.feedAll (Token.numbered ((tokenize a).1.map Token.kind)) = .error err)
    (ha : parse a = .error (err.relocate (Token.placeIn (tokenize a).1)))
    (hb : parse b = .error (err.relocate (Token.placeIn (tokenize b).1))) : i.SameRun a b := by
  have hlength : (tokenize b).1.length = (tokenize a).1.length := by
    simpa using congrArg List.length h.kinds
  obtain ⟨us, t, vs, g, htokens, -, hfeed⟩ := Progress.feedAll_error hread
  have hne : (tokenize a).1 ≠ [] := by
    intro hnil
    simp [hnil, Token.numbered] at htokens
  have hne' : (tokenize b).1 ≠ [] := by
    intro hnil
    rw [hnil] at hlength
    exact hne (List.length_eq_zero_iff.mp hlength.symm)
  refine ⟨?_, ?_⟩
  · rw [runText_refused ha, runText_refused hb]
    rcases Progress.feed_error hfeed with ⟨cause, rfl⟩ | ⟨rfl, -⟩
    · obtain ⟨u, hu, hplace⟩ := Token.exists_placeIn hne t.location
      obtain ⟨v, hv, hplace'⟩ := Token.exists_placeIn hne' t.location
      rw [hlength] at hv
      simp only [ParseError.relocate, ParseError.fault, hplace, hplace']
      exact .token hu hv
    · exact .fixed (.inl rfl)
  · rw [runText_refused ha, runText_refused hb]

theorem sameRun_malformed (h : SameTokens a b) {err err' : LexError}
    (hstop : (tokenize a).2 = some err) (hstop' : (tokenize b).2 = some err')
    (ha : parse a = .error (.malformed err)) (hb : parse b = .error (.malformed err')) :
    i.SameRun a b := by
  have hmessage : err'.message = err.message := by
    have hsame := h.stop
    rw [hstop, hstop'] at hsame
    exact Option.some.inj hsame
  refine ⟨?_, ?_⟩
  · rw [runText_refused ha, runText_refused hb]
    simp only [ParseError.fault, hmessage]
    exact .lexeme hstop hstop' hmessage
  · rw [runText_refused ha, runText_refused hb]

theorem sameRun_of_evalAll (hshow : i.showTree = false) {p q : Program} (ha : parse a = .ok p)
    (hb : parse b = .ok q) {r r' : Except EvalError (List (Value η))} {e e' : Env η}
    (hremark : i.env.record (.noted (i.remark p)) = e)
    (hremark' : i.env.record (.noted (i.remark q)) = e)
    (hp : (Expr.evalAll p.exprs).run.run e = (r, e'))
    (hq : (Expr.evalAll q.exprs).run.run e = (r', e'))
    (hresult : SameResult a b e' ((r.mapError EvalError.fault).map fun _ => p)
      ((r'.mapError EvalError.fault).map fun _ => q)) : i.SameRun a b := by
  obtain ⟨i₁, hrun, henv⟩ := runText_of_evalAll hshow ha (hremark ▸ hp)
  obtain ⟨i₂, hrun', henv'⟩ := runText_of_evalAll hshow hb (hremark' ▸ hq)
  constructor
  · rw [hrun, hrun', henv]
    exact hresult
  · rw [hrun, hrun', henv, henv']

theorem sameRun_parsed (hshow : i.showTree = false) {xs : List Expr} {f g : Location → Location}
    {p q : Program} (ha : parse a = .ok p) (hp : p.exprs = Expr.relocateAll f xs)
    (hb : parse b = .ok q) (hq : q.exprs = Expr.relocateAll g xs) : i.SameRun a b := by
  have hremark : i.remark q = i.remark p := by
    simp [remark, hp, hq, Expr.relocateAll_eq_map]
  -- Both programs are one tree with its places replaced, so one run of that tree tells both runs.
  have hsame {r r' : Except EvalError (List (Value η))} {e' : Env η} :=
    @sameRun_of_evalAll η _ i a b hshow p q ha hb r r' _ e' rfl (by rw [hremark])
  rw [hp, hq] at hsame
  cases Expr.evalAll_uniform xs (i.env.record (.noted (i.remark p))) with
  | ok runs =>
    apply hsame (runs f) (runs g)
    exact .ok (by simp [hp, hq, Expr.relocateAll_eq_map, Expr.bare_relocate])
  | @error cause place e' node runs =>
    apply hsame (runs f) (runs g)
    obtain ⟨path, hpath⟩ := Program.exists_node node
    obtain ⟨t, ht, hplace⟩ := hpath f p hp
    obtain ⟨u, hu, hplace'⟩ := hpath g q hq
    rw [← hplace, ← hplace']
    cases cause with
    | onlyGlobal => exact .fixed (.inl rfl)
    | alreadyBound | unbound | notCallable => exact .node ha hb ht hu
  | fixed foreign runs =>
    apply hsame (runs f) (runs g)
    rcases foreign with hnone | hraised
    · exact .fixed (.inl (EvalError.place?_fault hnone))
    · exact .fixed (.inr ⟨_, hraised, rfl⟩)

end Interpreter

theorem SameTokens.sameRun {a b : String} (h : SameTokens a b) {i : Interpreter η}
    (hshow : i.showTree = false) : i.SameRun a b := by
  have ha := parse_numbered a
  have hb := parse_numbered b
  have hstop := h.stop
  simp only [h.kinds] at ha hb
  rcases hread :
    Progress.start.feedAll (Token.numbered ((tokenize a).1.map Token.kind)) with err | g
  · rw [hread] at ha hb
    exact Interpreter.sameRun_refused h hread ha hb
  · rw [hread] at ha hb
    rcases hfirst : (tokenize a).2 with - | err
    · rcases hsecond : (tokenize b).2 with - | err'
      · rw [hfirst] at ha
        rw [hsecond] at hb
        obtain ⟨p, hparse, hp⟩ := ha
        obtain ⟨q, hparse', hq⟩ := hb
        exact Interpreter.sameRun_parsed hshow hparse hp hparse' hq
      · rw [hfirst, hsecond] at hstop
        cases hstop
    · rcases hsecond : (tokenize b).2 with - | err'
      · rw [hfirst, hsecond] at hstop
        cases hstop
      · rw [hfirst] at ha
        rw [hsecond] at hb
        exact Interpreter.sameRun_malformed h hfirst hsecond ha hb

/-- The layout of a text has no meaning. Where trees are not shown, since a shown tree holds places,
running two texts that are cut into the same tokens and end alike leaves the same environment
behind, and gives the same program up to places or the same problem, at the same token, lexeme or
node of each text. Two texts are so if one has other blanks behind the end of a token, or in front
of the first one, than the other: in every text there is such an end in front of each token, of its
end and of what no token can be cut from. -/
theorem layout_has_no_meaning :
    (∀ (i : Interpreter η) (a b : String), i.showTree = false → SameTokens a b → i.SameRun a b) ∧
    ∀ (text : String) (before after : List Token), (tokenize text).1 = before ++ after →
      (∀ t ∈ before, t.kind ≠ .eof) →
      ∃ us gap rest, text.toList = us ++ (gap ++ rest) ∧
        CutsInto (gap ++ rest) us (before.map Token.kind) ∧
        Cuts us (gap ++ rest) after (tokenize text).2 ∧
        (∀ c ∈ gap, isBlank c = true) ∧ (∀ c ∈ rest.head?, isBlank c = false) ∧
        ∀ gap', IsGap gap' → SameTokens text (String.ofList (us ++ (gap' ++ rest))) :=
  ⟨fun _ _ _ hshow h => h.sameRun hshow, fun text _ _ htext => exists_gap text htext⟩

end

/-- A text in one row and in five, and an unclosed text with a gap in front of its quote. -/
theorem layout_has_no_meaning_rows :
    let i : Interpreter Empty := .create ⟨true, false, []⟩ "file" false false
    let a := "(define x 1)(debug x y)"
    let b := "\n(define\tx 1 )\r\n\n (debug x\n  y)"
    i.SameRun a b ∧
      (i.runText a).1 = .error (.diagnostic ⟨.eval (.unbound "y"), some ⟨21, 1, 22⟩⟩) ∧
      (i.runText b).1 = .error (.diagnostic ⟨.eval (.unbound "y"), some ⟨29, 5, 3⟩⟩) ∧
      ∃ us gap rest, "(f\"a".toList = us ++ (gap ++ rest) ∧
        i.SameRun "(f\"a" (String.ofList (us ++ (['\r', '\n'] ++ rest))) := by
  intro i a b
  obtain ⟨hruns, hgaps⟩ := @layout_has_no_meaning Empty _
  have hsame : SameTokens a b := ⟨by decide +kernel, by decide +kernel⟩
  have htokens : (tokenize "(f\"a").1 = (tokenize "(f\"a").1 ++ [] := by simp
  have hnoEof : ∀ t ∈ (tokenize "(f\"a").1, t.kind ≠ .eof := by decide +kernel
  obtain ⟨us, gap, rest, htext, -, -, -, -, hgap⟩ := hgaps "(f\"a" _ _ htokens hnoEof
  have hbreak : IsGap ['\r', '\n'] := ⟨List.cons_ne_nil _ _, List.all_eq_true.mp rfl⟩
  refine ⟨hruns i a b rfl hsame, ?_, ?_, us, gap, rest, htext, hruns i _ _ rfl (hgap _ hbreak)⟩
  · decide +kernel
  · decide +kernel

end SmallLisp

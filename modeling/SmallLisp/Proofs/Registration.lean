import SmallLisp.Proofs.Blame

/-!
# Shared reporters

Interpreters that share a reporter register their paths with it when they are opened, and a text
whenever they run one. The reporter keeps the text of each path that came last. But it blames faults
on the path that came last as a new one, whichever interpreter is running.
-/
namespace SmallLisp

variable {η : Type}

namespace Keyed

variable {α : Type}

theorem mem_put {name : String} {entry : α} {entries : List (String × α)}
    (h : (entries.map Prod.fst).Nodup) (other : String) (a : α) :
    (other, a) ∈ put name entry entries ↔
      (other = name ∧ a = entry) ∨ (other ≠ name ∧ (other, a) ∈ entries) := by
  induction entries with
  | nil => simp [put]
  | cons first rest ih =>
    obtain ⟨n, old⟩ := first
    obtain ⟨hn, hrest⟩ := List.nodup_cons.mp h
    by_cases hname : n = name
    · subst hname
      have hne : (other, a) ∈ rest → other ≠ n := by
        rintro hmem rfl
        exact hn (List.mem_map.mpr ⟨_, hmem, rfl⟩)
      simp only [put, if_true, List.mem_cons, Prod.mk.injEq]
      tauto
    · rw [put, if_neg hname, List.mem_cons, ih hrest, List.mem_cons, Prod.mk.injEq]
      constructor
      · rintro (⟨rfl, rfl⟩ | hput)
        · exact .inr ⟨hname, .inl ⟨rfl, rfl⟩⟩
        · tauto
      · tauto

end Keyed

namespace Reporter

/-! ## Calls of a reporter -/

/-- Whether the last call for `path` gave this text. -/
def Latest (calls : List (String × Option String)) (path : String) (text : Option String) : Prop :=
  ∃ before after, calls = before ++ (path, text) :: after ∧ path ∉ after.map Prod.fst

/-- Whether `path` came as a new path, and no new path came behind it. -/
def Newest (calls : List (String × Option String)) (path : String) : Prop :=
  ∃ before text after, calls = before ++ (path, text) :: after ∧ path ∉ before.map Prod.fst ∧
    ∀ other ∈ after.map Prod.fst, other ∈ path :: before.map Prod.fst

theorem latest_concat (calls : List (String × Option String)) (name : String)
    (entry : Option String) (path : String) (text : Option String) :
    Latest (calls ++ [(name, entry)]) path text ↔
      (path = name ∧ text = entry) ∨ (path ≠ name ∧ Latest calls path text) := by
  constructor
  · rintro ⟨before, after, hcalls, hafter⟩
    rcases List.eq_nil_or_concat after with rfl | ⟨after, last, rfl⟩
    · obtain ⟨-, hlast⟩ := List.append_inj' hcalls rfl
      obtain ⟨rfl, rfl⟩ := Prod.mk.inj (List.singleton_inj.mp hlast)
      exact .inl ⟨rfl, rfl⟩
    · rw [List.concat_eq_append, ← List.cons_append, ← List.append_assoc] at hcalls
      obtain ⟨hearlier, hlast⟩ := List.append_inj' hcalls rfl
      obtain rfl := List.singleton_inj.mp hlast
      simp only [List.concat_eq_append, List.map_append, List.map_cons, List.map_nil,
        List.mem_append, List.mem_singleton, not_or] at hafter
      exact .inr ⟨hafter.2, before, after, hearlier, hafter.1⟩
  · rintro (⟨rfl, rfl⟩ | ⟨hne, before, after, rfl, hafter⟩)
    · exact ⟨calls, [], rfl, List.not_mem_nil⟩
    · exact ⟨before, after ++ [(name, entry)], by simp, by simpa [hne] using hafter⟩

theorem Latest.mem {calls : List (String × Option String)} {path : String} {text : Option String}
    (h : Latest calls path text) : path ∈ calls.map Prod.fst := by
  obtain ⟨before, after, rfl, -⟩ := h
  simp

theorem exists_latest {calls : List (String × Option String)} {path : String}
    (h : path ∈ calls.map Prod.fst) : ∃ text, Latest calls path text := by
  induction calls using List.reverseRecOn with
  | nil => cases h
  | append_singleton calls call ih =>
    obtain ⟨name, entry⟩ := call
    by_cases hname : path = name
    · exact ⟨entry, (latest_concat ..).mpr (.inl ⟨hname, rfl⟩)⟩
    · obtain ⟨text, hlatest⟩ := ih (by simpa [hname] using h)
      exact ⟨text, (latest_concat ..).mpr (.inr ⟨hname, hlatest⟩)⟩

theorem Newest.concat {calls : List (String × Option String)} {path name : String}
    (h : Newest calls path) (hname : name ∈ calls.map Prod.fst) (entry : Option String) :
    Newest (calls ++ [(name, entry)]) path := by
  obtain ⟨before, text, after, rfl, hbefore, hafter⟩ := h
  refine ⟨before, text, after ++ [(name, entry)], by simp, hbefore, ?_⟩
  -- No path among the calls is new, and this one is among them.
  have hknown : name ∈ path :: before.map Prod.fst := by
    simp only [List.map_append, List.map_cons, List.mem_append, List.mem_cons] at hname
    rcases hname with hname | rfl | hname
    · exact List.mem_cons_of_mem _ hname
    · exact List.mem_cons_self
    · exact hafter name hname
  simp only [List.map_append, List.map_cons, List.map_nil, List.mem_append, List.mem_singleton]
  rintro other (hother | rfl)
  · exact hafter other hother
  · exact hknown

theorem Newest.unique {calls : List (String × Option String)} {path other : String}
    (h : Newest calls path) (h' : Newest calls other) : path = other := by
  obtain ⟨before, text, after, rfl, hbefore, hafter⟩ := h
  obtain ⟨before', text', after', hcalls, hbefore', hafter'⟩ := h'
  -- The one that came first has the other one behind it, which is not new then.
  rcases List.append_eq_append_iff.mp hcalls with ⟨more, rfl, hmore⟩ | ⟨more, rfl, hmore⟩
  · cases more with
    | nil => exact (Prod.mk.inj (List.cons.inj hmore).1).1
    | cons first more =>
      obtain ⟨rfl, rfl⟩ := List.cons.inj hmore
      have hold := hafter other (by simp)
      simp only [List.map_append, List.map_cons, List.mem_append, List.mem_cons] at hbefore' hold
      tauto
  · cases more with
    | nil => exact (Prod.mk.inj (List.cons.inj hmore).1).1.symm
    | cons first more =>
      obtain ⟨rfl, rfl⟩ := List.cons.inj hmore
      have hold := hafter' path (by simp)
      simp only [List.map_append, List.map_cons, List.mem_append, List.mem_cons] at hbefore hold
      tauto

/-! ## What a reporter keeps of its calls -/

/-- Whether a reporter has been called so, by interpreters that share it and otherwise. -/
inductive Called (η : Type) [Host η] : Reporter → List (String × Option String) → Prop
  | fresh (fatal color : Bool) : Called η ⟨fatal, color, []⟩ []
  | register {r calls} (before : Called η r calls) (path : String) (text : Option String) :
      Called η (r.register path text) (calls ++ [(path, text)])
  | opened {r calls} (before : Called η r calls) (path : String) (typed showTree : Bool) :
      Called η (Interpreter.create r path typed showTree : Interpreter η).reporter
        (calls ++ [(path, none)])
  | ran {r calls} (before : Called η r calls) (i : Interpreter η) (text : String) :
      Called η (({ i with reporter := r } : Interpreter η).runText text).2.reporter
        (calls ++ [(i.path, some text)])

/-- What is kept of some calls: the last text of each path, with the newest path at the end. -/
structure Keeps (r : Reporter) (calls : List (String × Option String)) : Prop where
  nodup : (r.sources.map Prod.fst).Nodup
  latest : ∀ path text, (path, text) ∈ r.sources ↔ Latest calls path text
  newest : ∀ path ∈ (r.sources.map Prod.fst).getLast?, Newest calls path

theorem Keeps.known_iff {r : Reporter} {calls : List (String × Option String)} (h : r.Keeps calls)
    {path : String} : path ∈ r.sources.map Prod.fst ↔ path ∈ calls.map Prod.fst := by
  constructor
  · intro hpath
    obtain ⟨⟨path, text⟩, hmem, rfl⟩ := List.mem_map.mp hpath
    exact ((h.latest path text).mp hmem).mem
  · intro hpath
    obtain ⟨text, hlatest⟩ := exists_latest hpath
    exact List.mem_map_of_mem ((h.latest path text).mpr hlatest)

theorem Keeps.register {r : Reporter} {calls : List (String × Option String)} (h : r.Keeps calls)
    (path : String) (text : Option String) :
    (r.register path text).Keeps (calls ++ [(path, text)]) where
  nodup := Keyed.nodup_put path text h.nodup
  latest other entry := by
    rw [Reporter.register, Keyed.mem_put h.nodup, latest_concat, h.latest]
  newest last hlast := by
    rw [Reporter.register, Keyed.names_put] at hlast
    by_cases hpath : path ∈ r.sources.map Prod.fst
    · rw [if_pos hpath] at hlast
      exact (h.newest last hlast).concat (h.known_iff.mp hpath) text
    · rw [if_neg hpath, List.getLast?_append, List.getLast?_singleton] at hlast
      obtain rfl := Option.some.inj hlast
      exact ⟨calls, text, [], rfl, mt h.known_iff.mpr hpath, by simp⟩

theorem Called.keeps [Host η] {r : Reporter} {calls : List (String × Option String)}
    (h : r.Called η calls) : r.Keeps calls := by
  induction h with
  | fresh fatal color =>
    exact ⟨List.nodup_nil, fun path text => by simp [Latest], fun path hpath => by cases hpath⟩
  | register before path text ih => exact ih.register path text
  | opened before path typed showTree ih =>
    have hkeeps := ih.register path none
    cases typed with
    | false => exact hkeeps
    | true => exact ⟨hkeeps.nodup, hkeeps.latest, hkeeps.newest⟩
  | @ran r calls before i text ih =>
    obtain ⟨hreporter, -⟩ := ({ i with reporter := r } : Interpreter η).reporter_runText text
    rw [hreporter]
    exact ih.register i.path (some text)

end Reporter

open Reporter in
/-- A reporter that was called, by interpreters that share it or otherwise, blames faults on the
path that came last as a new one, and quotes the text that came last with this path. The path of the
last call, which ran last, is blamed exactly if no new path has come since its own first call. -/
theorem newest_path_blamed [Host η] {r : Reporter} {calls : List (String × Option String)}
    (h : r.Called η calls) (hcalls : calls ≠ []) :
    ∃ path text, Newest calls path ∧ Latest calls path text ∧ r.path = path ∧
      (∀ d p internal, d.location = some p → r.render d internal =
        r.bold (path ++ ":" ++ p.text ++ ": ") ++ (if internal then r.alarm "[internal] " else "") ++
          r.alarm (d.kind ++ ": ") ++ d.message ++
          ((text.bind (Lines.row? · p.row)).map fun line => "\n" ++ r.quote line p.col).getD "") ∧
      ∀ last ∈ calls.getLast?,
        (r.path = last.1 ↔ Newest calls last.1) ∧ (r.path = last.1 → text = last.2) := by
  have hkeeps := h.keeps
  obtain ⟨earlier, ⟨name, entry⟩, rfl⟩ := (List.eq_nil_or_concat' calls).resolve_left hcalls
  have hknown : (name, entry) ∈ r.sources :=
    (hkeeps.latest name entry).mpr ((latest_concat ..).mpr (.inl ⟨rfl, rfl⟩))
  obtain ⟨⟨path, text⟩, hlast⟩ : ∃ last, r.sources.getLast? = some last :=
    Option.isSome_iff_exists.mp (by simpa using List.ne_nil_of_mem hknown)
  have hnewest : Newest (earlier ++ [(name, entry)]) path :=
    hkeeps.newest path (by rw [List.getLast?_map, hlast]; rfl)
  have hlatest := (hkeeps.latest path text).mp (List.mem_of_getLast? hlast)
  have hpath : r.path = path := by simp [Reporter.path, hlast]
  refine ⟨path, text, hnewest, hlatest, hpath, ?_, ?_⟩
  · intro d p internal hd
    have hline : r.line? p.row = text.bind (Lines.row? · p.row) := by
      simp [Reporter.line?, Reporter.text?, hlast]
    have hexcerpt : r.excerpt (some p) =
        ((text.bind (Lines.row? · p.row)).map fun line => "\n" ++ r.quote line p.col).getD "" := by
      simp only [Reporter.excerpt, hline]
      cases text.bind (Lines.row? · p.row) with
      | none | some => rfl
    rw [Reporter.render, hd, Reporter.position, hpath, hexcerpt]
  · intro last hmem
    rw [List.getLast?_append, List.getLast?_singleton] at hmem
    obtain rfl := Option.some.inj hmem
    rw [hpath]
    refine ⟨⟨fun hsame => hsame ▸ hnewest, hnewest.unique⟩, fun hsame => ?_⟩
    rcases (latest_concat ..).mp hlatest with ⟨-, htext⟩ | ⟨hne, -⟩
    · exact htext
    · exact absurd hsame hne

/-- Two interpreters that were opened one after the other, and ran in turn. -/
theorem newest_path_blamed_shared :
    let a : Interpreter Empty := .create ⟨false, false, []⟩ "a" false false
    let b : Interpreter Empty := .create a.reporter "b" false false
    let b' := (b.runText "in b").2
    let r := (({ a with reporter := b'.reporter } : Interpreter Empty).runText "x").2.reporter
    r.Called Empty [("a", none), ("b", none), ("b", some "in b"), ("a", some "x")] ∧
      r.path = "b" ∧
      ¬ Reporter.Newest [("a", none), ("b", none), ("b", some "in b"), ("a", some "x")] "a" := by
  intro a b b' r
  have hopened : b.reporter.Called Empty [("a", none), ("b", none)] :=
    ((Reporter.Called.fresh false false).opened "a" false false).opened "b" false false
  have hcalled : r.Called Empty [("a", none), ("b", none), ("b", some "in b"), ("a", some "x")] :=
    (hopened.ran b "in b").ran a "x"
  have hpath : r.path = "b" := by decide +kernel
  obtain ⟨_, _, _, _, _, _, hlast⟩ := newest_path_blamed hcalled (by decide)
  obtain ⟨hblamed, -⟩ := hlast ("a", some "x") rfl
  refine ⟨hcalled, hpath, fun hnewest => ?_⟩
  rw [hpath] at hblamed
  exact absurd (hblamed.mpr hnewest) (by decide)

/-- A path that was registered again is not the one that is blamed: the fault of a text of `a` is
reported for `b`, and with a row of that path's text. -/
theorem newest_path_not_last :
    let r : Reporter := ⟨false, false, []⟩
    let again := ((r.register "a" (some "in a")).register "b" (some "in b")).register "a"
      (some "new a")
    let a : Interpreter Empty := .create r "a" false false
    let b : Interpreter Empty := .create a.reporter "b" false false
    let a' : Interpreter Empty := { a with reporter := (b.runText "in b").2.reporter }
    again.path = "b" ∧
      again.render ⟨.eval (.unbound "x"), some ⟨0, 1, 1⟩⟩ false =
        "b:1:1: Unbound: 'x' is not bound\n  in b\n  ^" ∧
      (Interpreter.settle (a'.runText "x")).printed =
        "b:1:1: Unbound: 'x' is not bound\n  in b\n  ^\n" := by
  intro r again a b a'
  refine ⟨?_, ?_, ?_⟩
  all_goals decide +kernel

end SmallLisp

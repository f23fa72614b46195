import SmallLisp.Expr.Tree
import SmallLisp.Proofs.Rows
import SmallLisp.Proofs.Source

/-!
# Places of nodes

The nodes of a program in preorder have the places of some of its tokens, in their order. So no two
nodes have one place, and at the place of a node the text has the character that the node starts
with.
-/
namespace SmallLisp

open SmallLisp.Lexeme SmallLisp.Parser

/-! ## Tokens start where nothing goes on -/

namespace Lexeme

/-- Whether no run of digits goes on from `before` to `rest`. -/
def Apart (before rest : List Char) : Prop :=
  ∀ c ∈ before.getLast?, ∀ d ∈ rest.head?, isDigit c = true → isDigit d = false

theorem Ends.apart {w rest : List Char} {kind : Token.Kind} (hends : Ends kind rest)
    (h : Writes w kind) : Apart w rest := by
  intro c hc d hd hdigit
  cases h with
  | opening | closing =>
    obtain rfl := Option.some.inj hc
    cases hdigit
  | symbol =>
    by_contra hrun
    have hsymbol := isSymbolChar_of_isDigit (by simpa using hrun)
    rw [hends d hd] at hsymbol
    cases hsymbol
  | integer => exact hends d hd
  | text =>
    rw [List.getLast?_append, List.getLast?_singleton] at hc
    obtain rfl := Option.some.inj hc
    cases hdigit

theorem Apart.append {done blanks rest : List Char} (h : Apart done (blanks ++ rest))
    (hblanks : ∀ b ∈ blanks, isBlank b = true) : Apart (done ++ blanks) rest := by
  rcases List.eq_nil_or_concat blanks with rfl | ⟨bs, b, rfl⟩
  · rwa [List.append_nil]
  · intro c hc d _ hdigit
    have hblank : isBlank b = true := hblanks b (by simp)
    obtain rfl : b = c := by simpa using hc
    have hseparate := separate_blank hblank [] b rfl
    rw [isSymbolChar_of_isDigit hdigit] at hseparate
    cases hseparate

end Lexeme

namespace Cuts

/-- Where a token other than the end starts: its place, and the text on both sides of it. -/
def StartsAt (cs : List Char) (t : Token) : Prop :=
  ∃ before rest w, cs = before ++ rest ∧ t.location = .ofNext before ∧ Munch rest w t.kind ∧
    Apart before rest

theorem startsAt {done cs : List Char} {ts : List Token} {e : Option LexError}
    (h : Cuts done cs ts e) (hdone : Apart done cs) :
    ∀ t ∈ ts, t.kind ≠ .eof → StartsAt (done ++ cs) t := by
  induction h with
  | finish => simp
  | @lexeme done blanks w rest kind ts e blank munch fits tail ih =>
    have hstart := hdone.append blank
    have happend : done ++ (blanks ++ (w ++ rest)) = done ++ blanks ++ w ++ rest := by simp
    have hrest : Apart (done ++ blanks ++ w) rest := by
      obtain ⟨c, cs, hw, -⟩ := munch.writes.head_noBlank
      have hlast : (done ++ blanks ++ w).getLast? = w.getLast? := by
        rw [List.getLast?_append, Option.or_of_isSome (by simp [hw])]
      have hends := (ends_of_munch munch).apart munch.writes
      rwa [Apart, hlast]
    rw [happend]
    refine List.forall_mem_cons.mpr ⟨fun _ => ?_, ih hrest⟩
    exact ⟨done ++ blanks, w ++ rest, w, List.append_assoc .., rfl, munch, hstart⟩
  | tooLarge | malformed => exact List.forall_mem_nil _

theorem offsets_rise {done cs : List Char} {ts : List Token} {e : Option LexError}
    (h : Cuts done cs ts e) :
    (∀ t ∈ ts, t.kind ≠ .eof → done.length ≤ t.location.offset) ∧
      (ts.filter (·.kind ≠ .eof)).Pairwise fun t t' => t.location.offset < t'.location.offset := by
  induction h with
  | finish => simp
  | @lexeme done blanks w rest kind ts e blank munch fits tail ih =>
    obtain ⟨hlater, hrises⟩ := ih
    obtain ⟨c, cs, rfl, -⟩ := munch.writes.head_noBlank
    have hkind : kind ≠ .eof := by
      rintro rfl
      cases munch.writes
    have hoffset : (Location.ofNext (done ++ blanks)).offset = done.length + blanks.length := by
      simp [Location.ofNext]
    have hbehind : ∀ t ∈ ts, t.kind ≠ .eof →
        (Location.ofNext (done ++ blanks)).offset < t.location.offset := by
      intro t ht hne
      have hle := hlater t ht hne
      simp only [List.length_append, List.length_cons] at hle
      omega
    constructor
    · refine List.forall_mem_cons.mpr ⟨fun _ => ?_, fun t ht hne => ?_⟩
      · rw [hoffset]
        omega
      · have hlt := hbehind t ht hne
        omega
    · rw [List.filter_cons_of_pos (by simpa using hkind)]
      refine List.pairwise_cons.mpr ⟨fun t ht => ?_, hrises⟩
      obtain ⟨hmem, hne⟩ := List.mem_filter.mp ht
      exact hbehind t hmem (by simpa using hne)
  | tooLarge | malformed => simp

end Cuts

/-! ## Nodes and their tokens -/

namespace Tree

/-- The kind of the token that a node starts with. A program has none of its own. -/
def Label.start? : Label → Option Token.Kind
  | program => none
  | define | call => some .opening
  | symbol name => some (.symbol name)
  | integer value => some (.integer value)
  | text contents => some (.text contents)

/-- Whether a node of this label may start behind the characters `before`, where `rest` follows:
with a parenthesis, the first letter of a name, the first one of the digits of an integer, or a
quote. -/
def Label.StartsBetween (before rest : List Char) : Label → Prop
  | program => False
  | define | call => rest.head? = some '('
  | symbol name => ∃ c, isLetter c = true ∧ name.toList.head? = some c ∧ rest.head? = some c
  | integer value => ∃ d ds behind, rest = d :: ds ++ behind ∧
      (∀ c ∈ d :: ds, isDigit c = true) ∧ Nat.ofDigitChars 10 (d :: ds) 0 = value ∧
      (∀ c ∈ before.getLast?, isDigit c = false) ∧ ∀ c ∈ behind.head?, isDigit c = false
  | text _ => rest.head? = some '"'

theorem startsBetween_of_munch {before rest w : List Char} {label : Label} {kind : Token.Kind}
    (hkind : label.start? = some kind) (munch : Munch rest w kind) (hapart : Apart before rest) :
    label.StartsBetween before rest := by
  obtain ⟨behind, rfl⟩ := munch.starts
  have hends := ends_of_munch munch
  cases label with
  | program => cases hkind
  | define | call =>
    cases hkind
    cases munch.writes
    rfl
  | symbol name =>
    cases hkind
    cases hwrites : munch.writes with
    | @symbol c cs letter _ => exact ⟨c, letter, by simp, rfl⟩
  | integer value =>
    cases hkind
    cases munch.writes with
    | @integer d ds digits =>
      refine ⟨d, ds, behind, rfl, digits, rfl, fun c hc => ?_, hends⟩
      -- A digit in front would belong to the same run.
      by_contra hdigit
      have hrun := hapart c hc d rfl (by simpa using hdigit)
      rw [digits d List.mem_cons_self] at hrun
      cases hrun
  | text contents =>
    cases hkind
    cases munch.writes
    rfl

end Tree

/-- The kind and the place of a token whose place is recorded. -/
def Mark.placed? (m : Mark) : Option (Option Token.Kind × Location) :=
  m.location.map fun p => (some m.kind, p)

@[simp] theorem Mark.placed?_placed (kind : Token.Kind) (p : Location) :
    Mark.placed? ⟨kind, some p⟩ = some (some kind, p) := rfl

@[simp] theorem Mark.placed?_unplaced (kind : Token.Kind) : Mark.placed? ⟨kind, none⟩ = none := rfl

mutual

/-- The tokens of an expression whose places are recorded are those that its nodes start with. -/
theorem Expr.filterMap_yield : (e : Expr) → (d : Nat) → e.yield.filterMap Mark.placed? =
    (e.tree.preorder d).map fun n => (n.2.1.start?, n.2.2)
  | .symbol _, _ | .integer .., _ | .text .., _ => rfl
  | .define target value location, d => by
    have hvalue := Expr.filterMap_yield value (d + 1)
    simp [yield, tree, Symbol.tree, Tree.preorder, Tree.preorders, hvalue, openingMark, defineMark,
      closingMark, Symbol.mark, List.filterMap_cons]
    exact ⟨rfl, rfl⟩
  | .call callee arguments location, d => by
    have hcallee := Expr.filterMap_yield callee (d + 1)
    have harguments := Expr.filterMap_yields arguments (d + 1)
    simp [yield, tree, Tree.preorder, Tree.preorders, hcallee, harguments, openingMark,
      closingMark, List.filterMap_cons]
    exact rfl

theorem Expr.filterMap_yields : (es : List Expr) → (d : Nat) →
    (Expr.yields es).filterMap Mark.placed? =
      (Tree.preorders d (Expr.trees es)).map fun n => (n.2.1.start?, n.2.2)
  | [], _ => rfl
  | e :: es, d => by
    rw [yields_cons, List.filterMap_append, Expr.filterMap_yield e d, Expr.filterMap_yields es d,
      trees, Tree.preorders, List.map_append]

end

theorem Recorded.exists_sublist {ts : List Token} {ms : List Mark} (h : Recorded ts ms) :
    ∃ us : List Token, us.Sublist ts ∧
      us.map (fun t => (some t.kind, t.location)) = ms.filterMap Mark.placed? := by
  induction h with
  | nil => exact ⟨[], .slnil, rfl⟩
  | @cons t m ts ms hfits _ ih =>
    obtain ⟨us, hsub, hus⟩ := ih
    obtain ⟨kind, location⟩ := m
    cases location with
    | none => exact ⟨us, hsub.cons t, hus⟩
    | some p =>
      refine ⟨t :: us, hsub.cons_cons t, ?_⟩
      have ht : t.location = p := hfits.2 p rfl
      have hk : t.kind = kind := hfits.1
      simp [Mark.placed?, hus, ht, hk]

/-- The nodes of a program from a text are tokens of the text, each in its place and in order. -/
theorem exists_tokens_of_parse {text : String} {p : Program} (h : parse text = .ok p) :
    ∃ us : List Token, us.Sublist ((tokenize text).1.filter (·.kind ≠ .eof)) ∧
      us.map (fun t => (some t.kind, t.location)) =
        (Tree.preorders 1 (Expr.trees p.exprs)).map fun n => (n.2.1.start?, n.2.2) := by
  obtain ⟨ts, htokens, hrecorded⟩ := recorded_of_parse h
  obtain ⟨vs, last, rfl, hvs, -⟩ := hrecorded.split
  obtain ⟨us, hsub, hus⟩ := hvs.exists_sublist
  rw [Expr.filterMap_yields p.exprs 1] at hus
  refine ⟨us, ?_, hus⟩
  have hkinds : ∀ t ∈ us, t.kind ≠ .eof := by
    intro t ht heof
    have hmem : (some t.kind, t.location) ∈
        (Tree.preorders 1 (Expr.trees p.exprs)).map fun n => (n.2.1.start?, n.2.2) :=
      hus ▸ List.mem_map_of_mem ht
    obtain ⟨⟨d, label, location⟩, -, hn⟩ := List.mem_map.mp hmem
    have hstart : label.start? = some .eof := by
      rw [← heof]
      exact congrArg Prod.fst hn
    cases label <;> cases hstart
  have hall : us.filter (·.kind ≠ .eof) = us := by
    rw [List.filter_eq_self]
    intro t ht
    simpa using hkinds t ht
  rw [htokens, ← hall]
  exact (hsub.trans (List.sublist_append_left vs last)).filter _

theorem Program.location_of_parse {text : String} {p : Program} (h : parse text = .ok p) :
    p.location = match p.exprs with
      | [] => .ofLast text.toList
      | e :: _ => e.location := by
  obtain ⟨ts, g, htokens, hread, rfl⟩ := parse_ok_iff.mp h
  obtain ⟨finished, state⟩ := g
  cases finished with
  | cons e es => rfl
  | nil =>
    -- Without expressions the end is the only token.
    obtain ⟨ts', htokens', hrecorded⟩ := recorded_of_parse h
    obtain rfl : ts' = ts := by
      rw [htokens] at htokens'
      exact (congrArg Prod.fst htokens').symm
    obtain ⟨t, rfl, hkind, -⟩ := hrecorded.single
    have hcuts := cuts_tokenize text
    rw [htokens] at hcuts
    rcases hcuts.place_of_mem t (List.mem_singleton.mpr rfl) with
      ⟨-, hplace⟩ | ⟨_, _, _, -, -, hmunch⟩
    · exact hplace
    · rw [hkind] at hmunch
      cases hmunch.writes

/-- A place tells a node. In a program from a text the nodes but for the program itself have rising
offsets in preorder. The place of each is that of a character of the text, its row and its column
included, and the character is the one that the node starts with. The program has the place of its
first expression, or that of the last character of the text if there is none. -/
theorem nodes_have_own_places {text : String} {p : Program} (h : parse text = .ok p) :
    ∃ nodes, p.tree.preorder 0 = (0, .program, p.location) :: nodes ∧
      nodes.Pairwise (fun n n' => n.2.2.offset < n'.2.2.offset) ∧
      (nodes.map fun n => n.2.2).Nodup ∧
      (∀ n ∈ nodes, ∃ before rest, text.toList = before ++ rest ∧ n.2.2 = .ofNext before ∧
        n.2.1.StartsBetween before rest) ∧
      p.location = match p.exprs with
        | [] => .ofLast text.toList
        | e :: _ => e.location := by
  obtain ⟨us, hsub, hus⟩ := exists_tokens_of_parse h
  have hcuts := cuts_tokenize text
  have hrises := hcuts.offsets_rise.2.sublist hsub
  have hplaces : us.map Token.location =
      (Tree.preorders 1 (Expr.trees p.exprs)).map fun n => n.2.2 := by
    simpa [Function.comp_def] using congrArg (List.map Prod.snd) hus
  have hpairwise : (Tree.preorders 1 (Expr.trees p.exprs)).Pairwise
      fun n n' => n.2.2.offset < n'.2.2.offset := by
    have hmapped : (us.map Token.location).Pairwise fun q q' => q.offset < q'.offset :=
      List.pairwise_map.mpr hrises
    rwa [hplaces, List.pairwise_map] at hmapped
  refine ⟨_, rfl, hpairwise, ?_, ?_, Program.location_of_parse h⟩
  · refine List.pairwise_map.mpr (hpairwise.imp fun hlt heq => ?_)
    rw [heq] at hlt
    exact Int.lt_irrefl _ hlt
  · intro n hn
    have hmem : (n.2.1.start?, n.2.2) ∈ us.map fun t => (some t.kind, t.location) :=
      hus ▸ List.mem_map_of_mem hn
    obtain ⟨t, ht, hstart⟩ := List.mem_map.mp hmem
    obtain ⟨hkind, hplace⟩ := Prod.mk.inj hstart
    obtain ⟨htoken, hne⟩ := List.mem_filter.mp (hsub.subset ht)
    have hapart : Apart [] text.toList := fun c hc => by cases hc
    obtain ⟨before, rest, w, htext, hlocation, hmunch, hapart⟩ :=
      hcuts.startsAt hapart t htoken (by simpa using hne)
    exact ⟨before, rest, htext, hplace ▸ hlocation,
      Tree.startsBetween_of_munch hkind.symm hmunch hapart⟩

/-- A definition on two lines, of a call with an integer that has zeros in front. -/
theorem nodes_have_own_places_rows :
    let e : Expr := .define ⟨"x", ⟨8, 1, 9⟩⟩
      (.call (.symbol ⟨"f", ⟨12, 2, 3⟩⟩) [.integer 7 ⟨14, 2, 5⟩] ⟨11, 2, 2⟩) ⟨0, 1, 1⟩
    let text := "(define x\n (f 007))"
    parse text = .ok ⟨⟨0, 1, 1⟩, [e]⟩ ∧
      (Tree.preorders 1 [e.tree]).map (fun n => n.2.2.offset) = [0, 8, 11, 12, 14] ∧
      ∃ before rest, text.toList = before ++ rest ∧ Location.ofNext before = ⟨14, 2, 5⟩ ∧
        (Tree.Label.integer 7).StartsBetween before rest := by
  intro e text
  have hparse : parse text = .ok ⟨⟨0, 1, 1⟩, [e]⟩ := by decide +kernel
  obtain ⟨nodes, hnodes, -, -, hstarts, -⟩ := nodes_have_own_places hparse
  obtain rfl : Tree.preorders 1 [e.tree] = nodes := (List.cons.inj hnodes).2
  obtain ⟨before, rest, htext, hplace, hstart⟩ := hstarts (3, .integer 7, ⟨14, 2, 5⟩) (by decide)
  exact ⟨hparse, rfl, before, rest, htext, hplace.symm, hstart⟩

end SmallLisp

import SmallLisp.Expr.Tree
import SmallLisp.Proofs.Legible
import SmallLisp.Proofs.Relocation
import SmallLisp.Proofs.Rows

/-!
# Outlines

An outline shows the nodes of a tree in preorder, and its lines can be told from the depths of these
nodes alone. The outline of a program from a text shows all of the program but the offsets: however
a text literal mimics an outline, its quotes are escaped, and no line of an outline is broken.
-/
namespace SmallLisp

open SmallLisp.Lexeme

namespace Tree

/-! ## Lines from depths -/

/-- The comma behind the last line of a node at depth `d`, if a sibling follows. The next node has
the depth `next?`, if there is one. -/
def comma (next? : Option Nat) (d : Nat) : String := if next? = some d then "," else ""

/-- The lines that close the nodes around a node at depth `d` of which it is the last descendant. -/
def closings (k d : Nat) (next? : Option Nat) : List String :=
  ((List.range d).reverse.filter (next?.getD 0 ≤ ·)).map fun e =>
    indentation (k + e : Nat) ++ "])" ++ comma next? e

/-- What a node's line ends with. The next node is its child if it is one deeper. -/
def ending (d : Nat) (next? : Option Nat) : String :=
  if next? = some (d + 1) then ", nodes=[" else ")" ++ comma next? d

/-- The depth of the first of some nodes. -/
def depth? (nodes : List (Nat × Label × Location)) : Option Nat := nodes.head?.map (·.1)

/-- The lines of an outline at level `k` for its nodes in preorder, each with its depth. -/
def printed (k : Nat) : List (Nat × Label × Location) → List String
  | [] => []
  | (d, label, location) :: rest =>
    (heading (k + d : Nat) label location ++ ending d (depth? rest)) ::
      (closings k d (depth? rest) ++ printed k rest)

theorem depth?_preorders (d : Nat) (t : Tree) (ts : List Tree)
    (rest : List (Nat × Label × Location)) : depth? (preorders d (t :: ts) ++ rest) = some d := by
  cases t
  simp [preorders, preorder, depth?]

theorem closings_of_le {k d e : Nat} (h : d ≤ e) : closings k d (some e) = [] := by
  simp [closings]
  omega

theorem closings_succ {k d : Nat} {next? : Option Nat} (h : ∀ n ∈ next?, n ≤ d) :
    closings k (d + 1) next? =
      (indentation (k + d : Nat) ++ "])" ++ comma next? d) :: closings k d next? := by
  have hle : next?.getD 0 ≤ d := by
    cases next? with
    | none => exact Nat.zero_le d
    | some n => exact h n rfl
  simp [closings, List.range_succ, hle]

mutual

-- What follows a node in preorder is no deeper than the node: a sibling, or behind a parent.
theorem printed_preorder (k : Nat) : (t : Tree) → (d : Nat) →
    (rest : List (Nat × Label × Location)) → (∀ n ∈ depth? rest, n ≤ d) →
    printed k (t.preorder d ++ rest) =
      t.lines (k + d : Nat) (comma (depth? rest) d) ++
        (closings k d (depth? rest) ++ printed k rest)
  | node label location [], d, rest, h => by
    have hending : ending d (depth? rest) = ")" ++ comma (depth? rest) d := by
      rw [ending, if_neg]
      intro hdeeper
      have hle := h (d + 1) hdeeper
      omega
    simp [preorder, preorders, printed, lines, hending, String.append_assoc]
  | node label location (t :: ts), d, rest, h => by
    have hnext : depth? (preorders (d + 1) (t :: ts) ++ rest) = some (d + 1) :=
      depth?_preorders (d + 1) t ts rest
    have hforest := printed_preorders k (t :: ts) (List.cons_ne_nil t ts) d rest h
    rw [preorder, List.cons_append, printed, hnext, closings_of_le (Nat.le_succ d), hforest, lines]
    simp [ending, String.append_assoc]

theorem printed_preorders (k : Nat) : (ts : List Tree) → ts ≠ [] → (d : Nat) →
    (rest : List (Nat × Label × Location)) → (∀ n ∈ depth? rest, n ≤ d) →
    printed k (preorders (d + 1) ts ++ rest) =
      forestLines ((k + d : Nat) + 1) ts ++
        ((indentation (k + d : Nat) ++ "])" ++ comma (depth? rest) d) ::
          (closings k d (depth? rest) ++ printed k rest))
  | [], hne, _, _, _ => absurd rfl hne
  | [t], _, d, rest, h => by
    have hcomma : comma (depth? rest) (d + 1) = "" := by
      rw [comma, if_neg]
      intro hdeeper
      have hle := h (d + 1) hdeeper
      omega
    have htree := printed_preorder k t (d + 1) rest fun n hn => Nat.le_succ_of_le (h n hn)
    rw [hcomma, closings_succ h] at htree
    simpa [preorders, forestLines, Int.add_assoc] using htree
  | t :: u :: us, _, d, rest, h => by
    have hnext : depth? (preorders (d + 1) (u :: us) ++ rest) = some (d + 1) :=
      depth?_preorders (d + 1) u us rest
    have htree := printed_preorder k t (d + 1) (preorders (d + 1) (u :: us) ++ rest)
      (by simp [hnext])
    rw [hnext, closings_of_le (Nat.le_refl _),
      printed_preorders k (u :: us) (List.cons_ne_nil u us) d rest h] at htree
    rw [preorders, List.append_assoc, htree, forestLines]
    simp [comma, Int.add_assoc]

end

theorem lines_eq_printed (t : Tree) (k : Nat) : t.lines k "" = printed k (t.preorder 0) := by
  have h := printed_preorder k t 0 [] (by simp [depth?])
  simpa [depth?, comma, closings, printed] using h.symm

theorem indentation_add (k m : Nat) :
    indentation (k + m) = indentation k ++ indentation m := by
  have hwidth : (4 * ((k : Int) + m)).toNat = (4 * (k : Int)).toNat + (4 * (m : Int)).toNat := by
    omega
  rw [indentation, indentation, indentation, hwidth, List.replicate_add, String.ofList_append]

theorem printed_shift (k : Nat) (nodes : List (Nat × Label × Location)) :
    printed k nodes = (printed 0 nodes).map (indentation k ++ ·) := by
  have hclosings (d : Nat) (next? : Option Nat) :
      closings k d next? = (closings 0 d next?).map (indentation k ++ ·) := by
    simp [closings, indentation_add k, String.append_assoc]
  induction nodes with
  | nil => rfl
  | cons n rest ih =>
    rw [printed, printed, ih, hclosings, List.map_cons, List.map_append]
    simp [heading, indentation_add k, String.append_assoc]

/-! ## Trees of programs from texts -/

/-- Whether the content of a node can be written. -/
def Label.WellFormed : Label → Prop
  | symbol name => IsName name
  | integer value => value ≤ maxInteger
  | text contents => '\\' ∉ contents.toList
  | program | define | call => True

mutual

def WellFormed : Tree → Prop
  | node label _ children => label.WellFormed ∧ AllWellFormed children

def AllWellFormed : List Tree → Prop
  | [] => True
  | t :: ts => t.WellFormed ∧ AllWellFormed ts

end

theorem AllWellFormed.of_mem {ts : List Tree} (h : AllWellFormed ts) {t : Tree} (ht : t ∈ ts) :
    t.WellFormed := by
  induction ts with
  | nil => cases ht
  | cons u us ih =>
    cases ht with
    | head => exact h.1
    | tail _ ht => exact ih h.2 ht

theorem WellFormed.descend? {t u : Tree} (h : t.WellFormed) {path : List Nat}
    (hu : t.descend? path = some u) : u.WellFormed := by
  induction path generalizing t with
  | nil =>
    cases hu
    exact h
  | cons i path ih =>
    obtain ⟨child, hchild, hrest⟩ := Option.bind_eq_some_iff.mp hu
    cases t with
    | node label location children =>
      exact ih (h.2.of_mem (List.mem_of_getElem? hchild)) hrest

mutual

theorem WellFormed.preorder : (t : Tree) → t.WellFormed → (d : Nat) →
    ∀ n ∈ t.preorder d, n.2.1.WellFormed
  | node label location children, h, d => by
    rw [Tree.preorder, List.forall_mem_cons]
    exact ⟨h.1, AllWellFormed.preorders children h.2 (d + 1)⟩

theorem AllWellFormed.preorders : (ts : List Tree) → AllWellFormed ts → (d : Nat) →
    ∀ n ∈ preorders d ts, n.2.1.WellFormed
  | [], _, _ => List.forall_mem_nil _
  | t :: ts, h, d => by
    rw [Tree.preorders, List.forall_mem_append]
    exact ⟨WellFormed.preorder t h.1 d, AllWellFormed.preorders ts h.2 d⟩

end

end Tree

mutual

theorem Expr.WellFormed.tree : (e : Expr) → e.WellFormed → e.tree.WellFormed
  | .symbol _, h => ⟨h, trivial⟩
  | .integer .., h => ⟨h, trivial⟩
  | .text .., h => ⟨h, trivial⟩
  | .define _ value _, h => ⟨trivial, ⟨h.1, trivial⟩, WellFormed.tree value h.2, trivial⟩
  | .call callee arguments _, h =>
    ⟨trivial, WellFormed.tree callee h.2.1, AllWellFormed.trees arguments h.2.2⟩

theorem Expr.AllWellFormed.trees : (es : List Expr) → Expr.AllWellFormed es →
    Tree.AllWellFormed (Expr.trees es)
  | [], _ => trivial
  | e :: es, h => ⟨WellFormed.tree e h.1, AllWellFormed.trees es h.2⟩

end

theorem Program.WellFormed.tree {p : Program} (h : p.WellFormed) : p.tree.WellFormed :=
  ⟨trivial, Expr.AllWellFormed.trees p.exprs h⟩

/-! ## No line is broken -/

namespace Lines

theorem split_of_noBreak {cs : List Char} (h : '\n' ∉ cs) : split cs = [cs] := by
  induction cs with
  | nil => rfl
  | cons c cs ih =>
    rw [List.mem_cons, not_or] at h
    rw [split, ih h.2, if_neg (Ne.symm h.1)]

theorem split_intercalate {lines : List String} (hne : lines ≠ [])
    (h : ∀ line ∈ lines, '\n' ∉ line.toList) :
    split ("\n".intercalate lines).toList = lines.map String.toList := by
  induction lines with
  | nil => exact absurd rfl hne
  | cons line lines ih =>
    obtain ⟨hline, hlines⟩ := List.forall_mem_cons.mp h
    cases lines with
    | nil => simpa using split_of_noBreak hline
    | cons line' lines =>
      have hcut : ("\n".intercalate (line :: line' :: lines)).toList =
          line.toList ++ '\n' :: ("\n".intercalate (line' :: lines)).toList := by
        simp [String.intercalate_cons_cons]
      rw [hcut, split_append_newline, split_of_noBreak hline, ih (List.cons_ne_nil _ _) hlines]
      rfl

end Lines

/-- The characters that an integer is shown with. -/
def isNumeral (c : Char) : Bool := isDigit c || c == '-'

theorem toList_repr_ofNat (n : Nat) : (Int.ofNat n).repr.toList = Nat.toDigits 10 n :=
  Nat.toList_repr

theorem toList_repr_negSucc (n : Nat) :
    (Int.negSucc n).repr.toList = '-' :: Nat.toDigits 10 (n + 1) := by
  simp [Int.repr]

theorem isNumeral_of_mem {i : Int} {c : Char} (h : c ∈ i.repr.toList) : isNumeral c = true := by
  cases i with
  | ofNat n =>
    rw [toList_repr_ofNat] at h
    simp [isNumeral, isDigit_of_mem_toDigits h]
  | negSucc n =>
    rw [toList_repr_negSucc] at h
    cases h with
    | head => rfl
    | tail _ h => simp [isNumeral, isDigit_of_mem_toDigits h]

theorem Location.noBreak_text (p : Location) : '\n' ∉ p.text.toList := by
  have hint (i : Int) : '\n' ∉ i.repr.toList := fun h => by cases isNumeral_of_mem h
  simp [text, hint]

namespace Tree

theorem Label.noBreak_detail {label : Label} (h : label.WellFormed) :
    '\n' ∉ label.detail.toList := by
  cases label with
  | program | define | call => simp [detail]
  | symbol name =>
    obtain ⟨c, cs, hname, letter, hcs⟩ := h
    have hc : c ≠ '\n' := by
      rintro rfl
      cases letter
    have hbreak : '\n' ∉ cs := fun hmem => by cases hcs _ hmem
    simp [detail, hname, hc.symm, hbreak]
  | integer value =>
    have hvalue : '\n' ∉ Nat.toDigits 10 value := fun hmem => by
      cases isDigit_of_mem_toDigits hmem
    simp [detail, hvalue]
  | text contents => simp [detail, Escape.notMem_quote]

theorem noBreak_indentation (level : Int) : '\n' ∉ (indentation level).toList := by
  simp [indentation]

theorem noBreak_comma (next? : Option Nat) (d : Nat) : '\n' ∉ (comma next? d).toList := by
  rw [comma]
  split_ifs
  · decide
  · decide

theorem noBreak_printed {nodes : List (Nat × Label × Location)}
    (h : ∀ n ∈ nodes, n.2.1.WellFormed) (k : Nat) :
    ∀ line ∈ printed k nodes, '\n' ∉ line.toList := by
  induction nodes with
  | nil => exact List.forall_mem_nil _
  | cons n rest ih =>
    obtain ⟨hn, hrest⟩ := List.forall_mem_cons.mp h
    obtain ⟨d, label, location⟩ := n
    rw [printed, List.forall_mem_cons, List.forall_mem_append]
    refine ⟨?_, ?_, ih hrest⟩
    · have hkind : '\n' ∉ label.kind.toList := by cases label <;> simp [Label.kind]
      have hending : '\n' ∉ (ending d (depth? rest)).toList := by
        rw [ending]
        split_ifs
        · decide
        · simp [noBreak_comma]
      simp [heading, noBreak_indentation, hkind, location.noBreak_text, Label.noBreak_detail hn,
        hending]
    · intro line hline
      obtain ⟨e, -, rfl⟩ := List.mem_map.mp hline
      simp [noBreak_indentation, noBreak_comma]

theorem split_outline {t : Tree} (h : t.WellFormed) (k : Nat) :
    Lines.split (t.outline k).toList = (printed k (t.preorder 0)).map String.toList := by
  have hne : printed k (t.preorder 0) ≠ [] := by
    cases t
    simp [preorder, printed]
  rw [outline, lines_eq_printed]
  exact Lines.split_intercalate hne (noBreak_printed (h.preorder t 0) k)

end Tree

/-! ## Outlines determine trees -/

/-- The place as outlines show it. -/
def Location.shown (p : Location) : Location := { p with offset := 0 }

theorem append_inj_of_head {p : Char → Bool} {us us' vs vs' : List Char}
    (hus : ∀ c ∈ us, p c = true) (hus' : ∀ c ∈ us', p c = true)
    (hvs : ∀ c ∈ vs.head?, p c = false) (hvs' : ∀ c ∈ vs'.head?, p c = false)
    (h : us ++ vs = us' ++ vs') : us = us' ∧ vs = vs' := by
  have htake := congrArg (List.takeWhile p) h
  rw [takeWhile_append_of_head hus hvs, takeWhile_append_of_head hus' hvs'] at htake
  subst htake
  exact ⟨rfl, List.append_cancel_left h⟩

/-- A lexeme that ends tells its token and its end. -/
theorem Lexeme.writes_append_inj {w w' rest rest' : List Char} {kind kind' : Token.Kind}
    (hw : Writes w kind) (hw' : Writes w' kind') (fits : kind.Fits) (fits' : kind'.Fits)
    (hrest : Ends kind rest) (hrest' : Ends kind' rest') (h : w ++ rest = w' ++ rest') :
    kind = kind' ∧ rest = rest' := by
  have hread := read_of_writes hw hrest
  rw [h, read_of_writes hw' hrest', token?_of_fits fits, token?_of_fits fits',
    Reading.mk.injEq] at hread
  obtain ⟨-, hrests⟩ := List.append_inj h hread.1.symm
  exact ⟨Except.ok.inj hread.2.symm, hrests⟩

theorem toDigits_inj {m n : Nat} (h : Nat.toDigits 10 m = Nat.toDigits 10 n) : m = n := by
  have hvalue := congrArg (Nat.ofDigitChars 10 · 0) h
  simpa using hvalue

theorem toDigits_ne_minus {n : Nat} {ds : List Char} : Nat.toDigits 10 n ≠ '-' :: ds := by
  intro h
  have hminus : '-' ∈ Nat.toDigits 10 n := by simp [h]
  cases isDigit_of_mem_toDigits hminus

theorem eq_of_repr {i j : Int} (h : i.repr.toList = j.repr.toList) : i = j := by
  cases i with
  | ofNat m =>
    rw [toList_repr_ofNat] at h
    cases j with
    | ofNat n => exact congrArg Int.ofNat (toDigits_inj (h.trans (toList_repr_ofNat n)))
    | negSucc n => exact absurd (h.trans (toList_repr_negSucc n)) toDigits_ne_minus
  | negSucc m =>
    rw [toList_repr_negSucc] at h
    cases j with
    | ofNat n => exact absurd (h.trans (toList_repr_ofNat n)).symm toDigits_ne_minus
    | negSucc n =>
      rw [toList_repr_negSucc, List.cons.injEq] at h
      exact congrArg Int.negSucc (Nat.succ.inj (toDigits_inj h.2))

theorem Location.text_append_inj {p p' : Location} {vs vs' : List Char}
    (hvs : ∀ c ∈ vs.head?, isNumeral c = false) (hvs' : ∀ c ∈ vs'.head?, isNumeral c = false)
    (h : p.text.toList ++ vs = p'.text.toList ++ vs') : p.shown = p'.shown ∧ vs = vs' := by
  have htext (q : Location) (ws : List Char) :
      q.text.toList ++ ws = q.row.repr.toList ++ (':' :: (q.col.repr.toList ++ ws)) := by
    simp [text]
  have hcolon (ws : List Char) : ∀ c ∈ (':' :: ws).head?, isNumeral c = false := by
    intro c hc
    cases hc
    rfl
  rw [htext, htext] at h
  obtain ⟨hrow, hrest⟩ := append_inj_of_head (fun _ => isNumeral_of_mem)
    (fun _ => isNumeral_of_mem) (hcolon _) (hcolon _) h
  obtain ⟨hcol, hend⟩ := append_inj_of_head (fun _ => isNumeral_of_mem)
    (fun _ => isNumeral_of_mem) hvs hvs' (List.cons.inj hrest).2
  refine ⟨?_, hend⟩
  rw [shown, shown, eq_of_repr hrow, eq_of_repr hcol]

namespace Tree

/-- Whether `cs` can follow the content of a node in its line. -/
def Closing (cs : List Char) : Prop := ∀ c ∈ cs.head?, c = ')' ∨ c = ','

theorem Closing.head {cs : List Char} (h : Closing cs) {p : Char → Bool} (hclose : p ')' = false)
    (hcomma : p ',' = false) : ∀ c ∈ cs.head?, p c = false := by
  intro c hc
  rcases h c hc with rfl | rfl
  · exact hclose
  · exact hcomma

theorem closing_detail (label : Label) {cs : List Char} (h : Closing cs) :
    Closing (label.detail.toList ++ cs) := by
  cases label with
  | program | define | call => simpa [Label.detail] using h
  | symbol | integer | text => simp [Closing, Label.detail]

theorem Label.detail_append_inj {label label' : Label} (hwell : label.WellFormed)
    (hwell' : label'.WellFormed) (hkind : label.kind = label'.kind) {cs cs' : List Char}
    (hcs : Closing cs) (hcs' : Closing cs')
    (h : label.detail.toList ++ cs = label'.detail.toList ++ cs') : label = label' ∧ cs = cs' := by
  cases label <;> cases label' <;> simp only [kind, String.reduceEq] at hkind
  case program.program | define.define | call.call => simpa [detail] using h
  case symbol.symbol name name' =>
    have hquote (ds : List Char) : Ends (.symbol name) ('\'' :: ds) := fun c hc => by
      cases hc
      rfl
    have hnames := writes_append_inj (writes_symbol hwell) (writes_symbol hwell') trivial trivial
      (hquote cs) (hquote cs') (by simpa [detail] using h)
    simpa using hnames
  case integer.integer value value' =>
    have hends (n : Nat) {ds : List Char} (hds : Closing ds) : Ends (.integer n) ds :=
      hds.head rfl rfl
    have hvalues := writes_append_inj (writes_integer value) (writes_integer value') hwell hwell'
      (hends value hcs) (hends value' hcs') (by simpa [detail] using h)
    simpa using hvalues
  case text.text contents contents' =>
    have hends (t : String) (ds : List Char) : Ends (.text t) ds := trivial
    have htexts := writes_append_inj (writes_text hwell) (writes_text hwell') trivial trivial
      (hends contents cs) (hends contents' cs') (by simpa [detail] using h)
    simpa using htexts

theorem Label.parenthesis_notMem_kind (label : Label) : '(' ∉ label.kind.toList := by
  cases label with
  | program | define | call | symbol | integer | text => simp [kind]

theorem heading_append_inj {level : Int} {label label' : Label} {p p' : Location}
    (hwell : label.WellFormed) (hwell' : label'.WellFormed) {cs cs' : List Char}
    (hcs : Closing cs) (hcs' : Closing cs')
    (h : (heading level label p).toList ++ cs = (heading level label' p').toList ++ cs') :
    label = label' ∧ p.shown = p'.shown ∧ cs = cs' := by
  have hparts (l : Label) (q : Location) (ds : List Char) :
      (heading level l q).toList ++ ds = (indentation level).toList ++ (l.kind.toList ++
        ('(' :: ("location=".toList ++ (q.text.toList ++ (l.detail.toList ++ ds))))) := by
    simp [heading]
  have hnone (l : Label) : ∀ c ∈ l.kind.toList, (c != '(') = true := by
    intro c hc
    simp only [bne_iff_ne, ne_eq]
    rintro rfl
    exact l.parenthesis_notMem_kind hc
  rw [hparts, hparts, List.append_cancel_left_eq] at h
  obtain ⟨hkind, hrest⟩ := append_inj_of_head (hnone label) (hnone label') (by simp) (by simp) h
  have hplace := List.append_cancel_left (List.cons.inj hrest).2
  obtain ⟨hshown, hdetail⟩ := Location.text_append_inj ((closing_detail label hcs).head rfl rfl)
    ((closing_detail label' hcs').head rfl rfl) hplace
  obtain ⟨hlabel, hend⟩ :=
    Label.detail_append_inj hwell hwell' (String.toList_inj.mp hkind) hcs hcs' hdetail
  exact ⟨hlabel, hshown, hend⟩

theorem line_inj {level : Int} {label label' : Label} {p p' : Location}
    (hwell : label.WellFormed) (hwell' : label'.WellFormed) {tail tail' : String}
    (htail : Closing tail.toList) (htail' : Closing tail'.toList)
    (h : heading level label p ++ tail = heading level label' p' ++ tail') :
    label = label' ∧ p.shown = p'.shown ∧ tail = tail' := by
  have hcs := congrArg String.toList h
  rw [String.toList_append, String.toList_append] at hcs
  obtain ⟨hlabel, hshown, hend⟩ := heading_append_inj hwell hwell' htail htail' hcs
  exact ⟨hlabel, hshown, String.toList_inj.mp hend⟩

section Relocate

variable (f : Location → Location)

mutual

def relocate : Tree → Tree
  | node label location children => node label (f location) (relocateAll children)

def relocateAll : List Tree → List Tree
  | [] => []
  | t :: ts => t.relocate :: relocateAll ts

end

end Relocate

theorem closing_leaf (trailer : String) : Closing (")" ++ trailer).toList := by
  simp [Closing]

theorem closing_inner : Closing ", nodes=[".toList := by
  simp [Closing]

mutual

-- What follows the lines of a node need not be known, since each node tells where it ends.
theorem lines_append_inj : (t t' : Tree) → t.WellFormed → t'.WellFormed →
    {level : Int} → {trailer trailer' : String} → {rest rest' : List String} →
    t.lines level trailer ++ rest = t'.lines level trailer' ++ rest' →
    t.relocate Location.shown = t'.relocate Location.shown ∧ trailer = trailer' ∧ rest = rest'
  | node label p [], node label' p' [], hwell, hwell', level, trailer, trailer', rest, rest',
      h => by
    simp only [lines, List.cons_append, List.nil_append, List.cons.injEq,
      String.append_assoc] at h
    obtain ⟨hlabel, hshown, htrailer⟩ :=
      line_inj hwell.1 hwell'.1 (closing_leaf trailer) (closing_leaf trailer') h.1
    rw [relocate, relocate, hlabel, hshown]
    exact ⟨rfl, by simpa using htrailer, h.2⟩
  | node label p [], node label' p' (t' :: ts'), hwell, hwell', level, trailer, trailer', rest,
      rest', h => by
    simp only [lines, List.cons_append, List.nil_append, List.cons.injEq,
      String.append_assoc] at h
    obtain ⟨-, -, htail⟩ := line_inj hwell.1 hwell'.1 (closing_leaf trailer) closing_inner h.1
    simpa using congrArg (·.toList.head?) htail
  | node label p (t :: ts), node label' p' [], hwell, hwell', level, trailer, trailer', rest,
      rest', h => by
    simp only [lines, List.cons_append, List.nil_append, List.cons.injEq,
      String.append_assoc] at h
    obtain ⟨-, -, htail⟩ := line_inj hwell.1 hwell'.1 closing_inner (closing_leaf trailer') h.1
    simpa using congrArg (·.toList.head?) htail
  | node label p (t :: ts), node label' p' (t' :: ts'), hwell, hwell', level, trailer, trailer',
      rest, rest', h => by
    simp only [lines, List.cons_append, List.append_assoc, List.nil_append, List.cons.injEq,
      String.append_assoc] at h
    obtain ⟨hlabel, hshown, -⟩ := line_inj hwell.1 hwell'.1 closing_inner closing_inner h.1
    obtain ⟨hchildren, hclose⟩ := forestLines_append_inj (t :: ts) (t' :: ts') hwell.2 hwell'.2
      (List.cons_ne_nil t ts) (List.cons_ne_nil t' ts') h.2
    obtain ⟨hline, hrest⟩ := List.cons.inj hclose
    rw [relocate, relocate, hlabel, hshown, hchildren]
    exact ⟨rfl, by simpa using hline, hrest⟩

theorem forestLines_append_inj : (ts ts' : List Tree) → AllWellFormed ts → AllWellFormed ts' →
    ts ≠ [] → ts' ≠ [] → {level : Int} → {rest rest' : List String} →
    forestLines level ts ++ rest = forestLines level ts' ++ rest' →
    relocateAll Location.shown ts = relocateAll Location.shown ts' ∧ rest = rest'
  | [], _, _, _, hne, _, _, _, _, _ => absurd rfl hne
  | _, [], _, _, _, hne, _, _, _, _ => absurd rfl hne
  | [t], [t'], hwell, hwell', _, _, level, rest, rest', h => by
    rw [forestLines, forestLines] at h
    obtain ⟨htree, -, hrest⟩ := lines_append_inj t t' hwell.1 hwell'.1 h
    rw [relocateAll, relocateAll, htree]
    exact ⟨rfl, hrest⟩
  | [t], t' :: u' :: us', hwell, hwell', _, _, level, rest, rest', h => by
    rw [forestLines, forestLines, List.append_assoc] at h
    obtain ⟨-, hcomma, -⟩ := lines_append_inj t t' hwell.1 hwell'.1 h
    simp at hcomma
  | t :: u :: us, [t'], hwell, hwell', _, _, level, rest, rest', h => by
    rw [forestLines, forestLines, List.append_assoc] at h
    obtain ⟨-, hcomma, -⟩ := lines_append_inj t t' hwell.1 hwell'.1 h
    simp at hcomma
  | t :: u :: us, t' :: u' :: us', hwell, hwell', _, _, level, rest, rest', h => by
    rw [forestLines, forestLines, List.append_assoc, List.append_assoc] at h
    obtain ⟨htree, -, hforest⟩ := lines_append_inj t t' hwell.1 hwell'.1 h
    obtain ⟨htrees, hrest⟩ := forestLines_append_inj (u :: us) (u' :: us') hwell.2 hwell'.2
      (List.cons_ne_nil u us) (List.cons_ne_nil u' us') hforest
    exact ⟨congrArg₂ List.cons htree htrees, hrest⟩

end

theorem relocate_of_outline {t t' : Tree} (h : t.WellFormed) (h' : t'.WellFormed) {k : Nat}
    (heq : t.outline k = t'.outline k) :
    t.relocate Location.shown = t'.relocate Location.shown := by
  have hsplit := congrArg (Lines.split ·.toList) heq
  simp only [split_outline h, split_outline h', ← lines_eq_printed] at hsplit
  have hlines : t.lines k "" = t'.lines k "" :=
    List.map_injective_iff.mpr (fun _ _ => String.toList_inj.mp) hsplit
  exact (lines_append_inj t t' h h' (congrArg (· ++ []) hlines)).1

end Tree

/-! ## Trees determine programs -/

namespace Expr

variable (f : Location → Location)

mutual

theorem tree_relocate : (e : Expr) → (e.relocate f).tree = e.tree.relocate f
  | .symbol _ | .integer .. | .text .. => rfl
  | .define target value location => by
    rw [relocate, tree, tree, tree_relocate value]
    rfl
  | .call callee arguments location => by
    rw [relocate, tree, tree, tree_relocate callee, trees_relocate arguments]
    rfl

theorem trees_relocate : (es : List Expr) →
    trees (relocateAll f es) = Tree.relocateAll f (trees es)
  | [] => rfl
  | e :: es => by
    rw [relocateAll, trees, trees, tree_relocate e, trees_relocate es]
    rfl

end

mutual

theorem eq_of_tree : (e e' : Expr) → e.tree = e'.tree → e = e'
  | .symbol s, e', h => by
    cases e' with
    | symbol s' =>
      cases s
      cases s'
      simpa [tree, Symbol.tree] using h
    | integer | text | define | call => simp [tree, Symbol.tree] at h
  | .integer value location, e', h => by
    cases e' with
    | integer value' location' => simpa [tree] using h
    | symbol | text | define | call => simp [tree, Symbol.tree] at h
  | .text contents location, e', h => by
    cases e' with
    | text contents' location' => simpa [tree] using h
    | symbol | integer | define | call => simp [tree, Symbol.tree] at h
  | .define target value location, e', h => by
    cases e' with
    | define target' value' location' =>
      cases target
      cases target'
      simp only [tree, Symbol.tree, Tree.node.injEq, List.cons.injEq] at h
      obtain ⟨-, hlocation, htarget, hvalue, -⟩ := h
      rw [hlocation, eq_of_tree value value' hvalue]
      simpa using htarget
    | symbol | integer | text | call => simp [tree, Symbol.tree] at h
  | .call callee arguments location, e', h => by
    cases e' with
    | call callee' arguments' location' =>
      simp only [tree, Tree.node.injEq, List.cons.injEq] at h
      obtain ⟨-, hlocation, hcallee, harguments⟩ := h
      rw [hlocation, eq_of_tree callee callee' hcallee,
        eq_of_trees arguments arguments' harguments]
    | symbol | integer | text | define => simp [tree, Symbol.tree] at h

theorem eq_of_trees : (es es' : List Expr) → trees es = trees es' → es = es'
  | [], es', h => by
    cases es' with
    | nil => rfl
    | cons => cases h
  | e :: es, es', h => by
    cases es' with
    | nil => cases h
    | cons e' es' =>
      simp only [trees, List.cons.injEq] at h
      rw [eq_of_tree e e' h.1, eq_of_trees es es' h.2]

end

end Expr

namespace Program

def relocate (f : Location → Location) (p : Program) : Program :=
  ⟨f p.location, Expr.relocateAll f p.exprs⟩

theorem tree_relocate (f : Location → Location) (p : Program) :
    (p.relocate f).tree = p.tree.relocate f := by
  rw [relocate, tree, tree, Expr.trees_relocate]
  rfl

theorem eq_of_tree {p p' : Program} (h : p.tree = p'.tree) : p = p' := by
  cases p
  cases p'
  simp only [tree, Tree.node.injEq] at h
  rw [h.2.1, Expr.eq_of_trees _ _ h.2.2]

end Program

/-- An outline is faithful. Its lines are those of the outline at level 0 behind four spaces per
level, and they can be told from the nodes in preorder: each has a line at its depth, and each with
children is closed at its depth behind its last descendant, with commas between siblings. Programs
with one outline are the same but for offsets. -/
theorem outline_is_faithful {text : String} {p : Program} (h : parse text = .ok p)
    {path : List Nat} {t : Tree} (ht : p.tree.descend? path = some t) (k : Nat) :
    Lines.split (t.outline k).toList =
      (Lines.split (t.outline 0).toList).map (List.replicate (4 * k) ' ' ++ ·) ∧
    Lines.split (t.outline k).toList = (Tree.printed k (t.preorder 0)).map String.toList ∧
    ∀ text' p', parse text' = .ok p' → p'.tree.outline k = p.tree.outline k →
      p'.relocate Location.shown = p.relocate Location.shown := by
  have hprogram : p.tree.WellFormed := (wellFormed_of_parse h).tree
  have htree : t.WellFormed := hprogram.descend? ht
  refine ⟨?_, Tree.split_outline htree k, ?_⟩
  · have hzero : Lines.split (t.outline 0).toList =
        (Tree.printed 0 (t.preorder 0)).map String.toList := Tree.split_outline htree 0
    have hwidth : (4 * (k : Int)).toNat = 4 * k := by omega
    rw [Tree.split_outline htree k, hzero, Tree.printed_shift]
    simp [Tree.indentation, hwidth]
  · intro text' p' h' heq
    have hprogram' : p'.tree.WellFormed := (wellFormed_of_parse h').tree
    apply Program.eq_of_tree
    rw [Program.tree_relocate, Program.tree_relocate]
    exact Tree.relocate_of_outline hprogram' hprogram heq

/-- A text literal that mimics a node with children, and a text that differs in a blank at the end
of a line. -/
theorem outline_is_faithful_mimicry :
    let text := "a\n(b \", nodes=[\")"
    let f : Symbol := ⟨"b", ⟨3, 2, 2⟩⟩
    let call : Expr := .call (.symbol f) [.text ", nodes=[" ⟨5, 2, 4⟩] ⟨2, 2, 1⟩
    let p : Program := ⟨⟨0, 1, 1⟩, [.symbol ⟨"a", ⟨0, 1, 1⟩⟩, call]⟩
    parse text = .ok p ∧ p.tree.descend? [1] = some call.tree ∧
      Lines.split (call.tree.outline 1).toList = [
        "    CallExpr(location=2:1, nodes=[".toList,
        "        IdentifierExpr(location=2:2, name='b'),".toList,
        "        StringLiteral(location=2:4, value=\", nodes=[\")".toList,
        "    ])".toList] ∧
      ∀ p', parse "a \n(b \", nodes=[\")" = .ok p' →
        p'.relocate Location.shown = p.relocate Location.shown := by
  intro text f call p
  have hparse : parse text = .ok p := by decide +kernel
  have hnode : p.tree.descend? [1] = some call.tree := rfl
  obtain ⟨-, hlines, hsame⟩ := outline_is_faithful hparse hnode 1
  refine ⟨hparse, hnode, ?_, ?_⟩
  · apply hlines.trans
    decide +kernel
  · intro p' hparse'
    apply hsame _ p' hparse'
    have hmoved : parse "a \n(b \", nodes=[\")" = .ok ⟨⟨0, 1, 1⟩, [.symbol ⟨"a", ⟨0, 1, 1⟩⟩,
        .call (.symbol ⟨"b", ⟨4, 2, 2⟩⟩) [.text ", nodes=[" ⟨6, 2, 4⟩] ⟨3, 2, 1⟩]⟩ := by
      decide +kernel
    obtain rfl := Except.ok.inj (hparse'.symm.trans hmoved)
    rfl

end SmallLisp

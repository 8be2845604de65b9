import Mathlib
import ByteLayout.Dump.Tree

set_option autoImplicit false

/-!
# What the printed tree shows

Printing a forest writes one line per node it reaches and one line per array that leaves
elements out, in preorder. The lines are placed at paths of child positions from the roots
(`Tree.Printed`), and preorder is the lexicographic order of the paths: a node's own line
before the lines below it, the lines below a child before those below the next child, and an
array's count of the elements it leaves out at the position just after the last element it
prints (`Tree.InOrder`).

Which lines there are is said one node at a time (`Tree.Below`): a shown node writes its own
line at its depth; if the lines below its depth are printed (no depth limit, or the next level
is within it), it writes the lines of each child it considers and shows, one level down, and
an array with an element limit below its number of children writes the count of those left
out. A pointer's only child is its target; an array with an element limit considers its first
elements, hidden ones counted.

## Main definitions

* `Tree.Line`, `Tree.Line.text` — a printed line and its text.
* `Tree.Below`, `Tree.Printed` — the lines printing a node and a forest writes, at their paths.
* `Tree.InOrder` — lines in preorder of their paths.

## Main results

* `Tree.nodeLines_all` — a node prints, in preorder, exactly the lines below it.
* `Tree.lines_in_preorder` — the printed forest is the text of its lines, in preorder.

## Design

Each branch of the printer has its own equation (`Tree.node_hidden`, `Tree.node_cut`,
`Tree.node_pointer`, `Tree.node_array`, `Tree.node_other`) and its own step lemma, which
builds the lines of a node from the lines of the forest below it. The run lemma follows the
printer's own recursion (`Tree.node.induct`). A forest's lines are counted from an offset, so
that the lines of the rest of a list shift by one position.
-/

namespace ByteLayout

namespace OutputSettings

/-- Whether a node is printed where it is reached: hidden nodes only when they are shown. -/
def Shows (s : OutputSettings) (n : Node) : Prop := n.hidden = false ∨ s.showHidden = true

/-- Whether the lines below a node at depth `d` are printed. -/
def Descends (s : OutputSettings) (d : Nat) : Prop := s.maxDepth = 0 ∨ d + 1 < s.maxDepth

/-- Whether the child at position `j` of a node is considered: every child, except that an
array with an element limit considers only its first elements, hidden ones counted. -/
def Considers (s : OutputSettings) (n : Node) (j : Nat) : Prop :=
  n.isArray = true → 0 < s.maxArrayElements → j < s.maxArrayElements

end OutputSettings

namespace Tree

/-- The nodes printed below a node: a pointer's target, else the node's children. -/
def branches (n : Node) : List Node :=
  match n.kind with
  | .pointer target => [target]
  | _ => n.children

/-- A line of a printed tree: a node at its depth, or the number of elements an array leaves
out, at the array's depth. -/
inductive Line where
  | node (depth : Nat) (n : Node)
  | more (depth : Nat) (left : Nat)

/-- The text of a line, indented by two blanks per level. -/
def Line.text (shown : Node → Except EvalError String) : Line → String
  | .node d n => String.ofList (List.replicate (2 * d) ' ') ++ header shown n
  | .more d r => String.ofList (List.replicate (2 * d) ' ') ++ "  ... " ++ toString r ++ " more\n"

/-- `Below s d n q l`: printing a node `n` at depth `d` writes the line `l` at the path `q` of
child positions below it. -/
inductive Below (s : OutputSettings) : Nat → Node → List Nat → Line → Prop
  /-- The node's own line. -/
  | self (d : Nat) (n : Node) : Below s d n [] (.node d n)
  /-- The number of elements an array leaves out, just after the ones it prints. -/
  | more {d : Nat} {n : Node} (hd : s.Descends d) (ha : n.isArray = true)
      (hm : 0 < s.maxArrayElements) (hlen : s.maxArrayElements < n.children.length) :
      Below s d n [s.maxArrayElements] (.more d (n.children.length - s.maxArrayElements))
  /-- The lines of a considered child that is shown, one level down. -/
  | child {d j : Nat} {n c : Node} {q : List Nat} {l : Line} (hd : s.Descends d)
      (hc : (branches n)[j]? = some c) (hj : s.Considers n j) (hs : s.Shows c) :
      Below s (d + 1) c q l → Below s d n (j :: q) l

/-- The lines of a printed forest, at their paths from the roots: those below each shown root,
at depth zero. -/
def Printed (s : OutputSettings) (nodes : List Node) (p : List Nat) (l : Line) : Prop :=
  ∃ i q n, p = i :: q ∧ nodes[i]? = some n ∧ s.Shows n ∧ Below s 0 n q l

/-- The number of children of an array that are printed. -/
def arrayLimit (s : OutputSettings) (n : Node) : Nat :=
  if s.maxArrayElements > 0 then s.maxArrayElements else n.children.length

/-- The count of the elements an array leaves out, if it leaves any, at the position just
after the last element it prints. -/
def elided (s : OutputSettings) (d : Nat) (n : Node) : List (List Nat × Line) :=
  if n.children.length > arrayLimit s n then
    [([arrayLimit s n], .more d (n.children.length - arrayLimit s n))]
  else []

/-- Lines in preorder: their paths increase in the lexicographic order, a node's path before
the paths below it. -/
def InOrder (L : List (List Nat × Line)) : Prop :=
  L.Pairwise fun a b => List.Lex (· < ·) a.1 b.1

/-- The text of lines. -/
def text (shown : Node → Except EvalError String) (L : List (List Nat × Line)) : String :=
  String.join (L.map fun e => e.2.text shown)

/-! ### Lines in preorder -/

section Order

/-- A line below the child at position `k`, at its path from the parent. -/
def under (k : Nat) (e : List Nat × Line) : List Nat × Line := (k :: e.1, e.2)

lemma inOrder_nil : InOrder [] := List.Pairwise.nil

lemma InOrder.under {L : List (List Nat × Line)} (h : InOrder L) (k : Nat) :
    InOrder (L.map (under k)) :=
  List.pairwise_map.mpr (h.imp List.Lex.cons)

lemma InOrder.append {A B : List (List Nat × Line)} (hA : InOrder A) (hB : InOrder B)
    (h : ∀ a ∈ A, ∀ b ∈ B, List.Lex (· < ·) a.1 b.1) : InOrder (A ++ B) :=
  List.pairwise_append.mpr ⟨hA, hB, h⟩

/-- A node's own line comes before the lines below it. -/
lemma InOrder.root {L : List (List Nat × Line)} (h : InOrder L) (l : Line)
    (hne : ∀ e ∈ L, e.1 ≠ []) : InOrder (([], l) :: L) := by
  refine List.pairwise_cons.mpr ⟨fun e he => ?_, h⟩
  obtain ⟨_ | ⟨j, q⟩, l'⟩ := e
  · exact absurd rfl (hne _ he)
  · exact List.Lex.nil

variable (shown : Node → Except EvalError String)

@[simp] lemma text_nil : text shown [] = "" := rfl

@[simp] lemma text_cons (e : List Nat × Line) (L : List (List Nat × Line)) :
    text shown (e :: L) = e.2.text shown ++ text shown L := by
  simp [text, String.join_cons]

@[simp] lemma text_append (A B : List (List Nat × Line)) :
    text shown (A ++ B) = text shown A ++ text shown B := by
  simp [text, String.join_append]

@[simp] lemma text_under (L : List (List Nat × Line)) (k : Nat) :
    text shown (L.map (under k)) = text shown L := by
  simp [text, under, Function.comp_def]

end Order

/-! ### Printing one node -/

section Printer

variable {shown : Node → Except EvalError String} {s : OutputSettings} {d : Nat} {n : Node}

lemma not_shows_iff : ¬ s.Shows n ↔ (n.hidden && !s.showHidden) = true := by
  cases hh : n.hidden <;> cases hs : s.showHidden <;> simp [OutputSettings.Shows, hh, hs]

lemma not_descends_iff :
    ¬ s.Descends d ↔ (decide (s.maxDepth ≠ 0) && decide (d + 1 ≥ s.maxDepth)) = true := by
  simp [OutputSettings.Descends]

lemma shows_iff : s.Shows n ↔ ¬ (n.hidden && !s.showHidden) = true := by
  rw [← not_shows_iff, not_not]

lemma descends_iff :
    s.Descends d ↔ ¬ (decide (s.maxDepth ≠ 0) && decide (d + 1 ≥ s.maxDepth)) = true := by
  rw [← not_descends_iff, not_not]

lemma node_hidden (h : ¬ s.Shows n) : node shown s d n = "" := by
  obtain ⟨⟩ := n
  rw [node.eq_1, if_pos (not_shows_iff.mp h)]

lemma node_cut (hs : s.Shows n) (hd : ¬ s.Descends d) :
    node shown s d n = (Line.node d n).text shown := by
  obtain ⟨⟩ := n
  rw [node.eq_1, if_neg (not_shows_iff.not_right.mp hs), if_pos (not_descends_iff.mp hd)]
  rfl

lemma node_pointer {target : Node} (hs : s.Shows n) (hd : s.Descends d)
    (hk : n.kind = .pointer target) :
    node shown s d n = (Line.node d n).text shown ++ node shown s (d + 1) target := by
  obtain ⟨⟩ := n
  subst hk
  rw [node.eq_1, if_neg (not_shows_iff.not_right.mp hs), if_neg (not_descends_iff.not_right.mp hd)]
  rfl

lemma node_array (hs : s.Shows n) (hd : s.Descends d) (hk : n.kind = .array) :
    node shown s d n = (Line.node d n).text shown ++
      forest shown s (d + 1) (arrayLimit s n) n.children ++ text shown (elided s d n) := by
  obtain ⟨⟩ := n
  subst hk
  rw [node.eq_1, if_neg (not_shows_iff.not_right.mp hs), if_neg (not_descends_iff.not_right.mp hd)]
  simp only [elided, arrayLimit]
  split_ifs <;> simp [Line.text, String.append_assoc]

lemma node_other (hs : s.Shows n) (hd : s.Descends d) (hp : ∀ t, n.kind ≠ .pointer t)
    (ha : n.kind ≠ .array) :
    node shown s d n =
      (Line.node d n).text shown ++ forest shown s (d + 1) n.children.length n.children := by
  obtain ⟨⟩ := n
  rw [node.eq_1, if_neg (not_shows_iff.not_right.mp hs), if_neg (not_descends_iff.not_right.mp hd)]
  split
  · exact absurd rfl (hp _)
  · exact absurd rfl ha
  · rfl

end Printer

/-! ### What a node writes -/

section Lines

variable {shown : Node → Except EvalError String} {s : OutputSettings} {d : Nat} {n : Node}

/-- The lines below a node: its own, and below it, when the lines below its depth are
printed, the count an array leaves out and the lines of its considered shown children. -/
lemma below_iff {p : List Nat} {l : Line} :
    Below s d n p l ↔ p = [] ∧ l = .node d n ∨ s.Descends d ∧
      ((n.isArray = true ∧ 0 < s.maxArrayElements ∧ s.maxArrayElements < n.children.length ∧
          p = [s.maxArrayElements] ∧ l = .more d (n.children.length - s.maxArrayElements)) ∨
        ∃ j q c, p = j :: q ∧ (branches n)[j]? = some c ∧ s.Considers n j ∧ s.Shows c ∧
          Below s (d + 1) c q l) := by
  constructor
  · intro h
    cases h with
    | self => exact .inl ⟨rfl, rfl⟩
    | more hd ha hm hlen => exact .inr ⟨hd, .inl ⟨ha, hm, hlen, rfl, rfl⟩⟩
    | child hd hc hj hs hb => exact .inr ⟨hd, .inr ⟨_, _, _, rfl, hc, hj, hs, hb⟩⟩
  · rintro (⟨rfl, rfl⟩ | ⟨hd, ⟨ha, hm, hlen, rfl, rfl⟩ | ⟨j, q, c, rfl, hc, hj, hs, hb⟩⟩)
    · exact .self d n
    · exact .more hd ha hm hlen
    · exact .child hd hc hj hs hb

/-- An array prints its children up to its limit: those it considers. -/
lemma considered_array (ha : n.isArray = true) {j : Nat} {c : Node} :
    j < arrayLimit s n ∧ n.children[j]? = some c ↔
      n.children[j]? = some c ∧ s.Considers n j := by
  have hlen : n.children[j]? = some c → j < n.children.length := fun h =>
    (List.getElem?_eq_some_iff.mp h).1
  unfold arrayLimit OutputSettings.Considers
  split <;> constructor
  · exact fun h => ⟨h.2, fun _ _ => h.1⟩
  · exact fun h => ⟨h.2 ha (by omega), h.1⟩
  · exact fun h => ⟨h.2, fun _ h' => absurd h' (by omega)⟩
  · exact fun h => ⟨hlen h.1, h.1⟩

/-- An array leaves elements out exactly when it has a limit below its number of children. -/
lemma more_array : n.children.length > arrayLimit s n ↔
    0 < s.maxArrayElements ∧ s.maxArrayElements < n.children.length := by
  unfold arrayLimit
  split <;> omega

lemma arrayLimit_of_pos (h : 0 < s.maxArrayElements) : arrayLimit s n = s.maxArrayElements :=
  if_pos h

lemma mem_elided {p : List Nat} {l : Line} :
    (p, l) ∈ elided s d n ↔ 0 < s.maxArrayElements ∧ s.maxArrayElements < n.children.length ∧
      p = [s.maxArrayElements] ∧ l = .more d (n.children.length - s.maxArrayElements) := by
  unfold elided
  split
  · rename_i hgt
    obtain ⟨hpos, hlt⟩ := more_array.mp hgt
    rw [List.mem_singleton, Prod.mk.injEq, arrayLimit_of_pos hpos]
    exact ⟨fun h => ⟨hpos, hlt, h⟩, fun h => h.2.2⟩
  · rename_i hgt
    simp only [List.not_mem_nil, false_iff]
    exact fun h => hgt (more_array.mpr ⟨h.1, h.2.1⟩)

lemma inOrder_elided : InOrder (elided s d n) := by
  unfold elided
  split
  · exact List.pairwise_singleton _ _
  · exact inOrder_nil

variable (shown s)

/-- Printing the node `n` at depth `d` writes, in preorder, the lines below it if it is shown. -/
def NodeLines (d : Nat) (n : Node) : Prop :=
  ∃ L, InOrder L ∧ (∀ p l, (p, l) ∈ L ↔ s.Shows n ∧ Below s d n p l) ∧
    node shown s d n = text shown L

/-- Printing the first `limit` nodes of a list at depth `d` writes, in preorder, the lines below
each shown one, at paths that start with its position counted from `k`. -/
def ForestLines (d limit : Nat) (ns : List Node) : Prop :=
  ∀ k, ∃ L, InOrder L ∧
    (∀ p l, (p, l) ∈ L ↔ ∃ j q c, p = (k + j) :: q ∧ j < limit ∧ ns[j]? = some c ∧ s.Shows c ∧
      Below s d c q l) ∧
    forest shown s d limit ns = text shown L

lemma mem_map_under {L : List (List Nat × Line)} {k : Nat} {p : List Nat} {l : Line} :
    (p, l) ∈ L.map (under k) ↔ ∃ q, p = k :: q ∧ (q, l) ∈ L := by
  simp only [List.mem_map, under, Prod.mk.injEq]
  constructor
  · rintro ⟨⟨q, l'⟩, he, rfl, rfl⟩
    exact ⟨q, rfl, he⟩
  · rintro ⟨q, rfl, he⟩
    exact ⟨(q, l), he, rfl, rfl⟩

lemma forestLines_zero (d : Nat) (ns : List Node) : ForestLines shown s d 0 ns :=
  fun _ => ⟨[], inOrder_nil, fun p l => by simp, by cases ns <;> rfl⟩

lemma forestLines_nil (d limit : Nat) : ForestLines shown s d limit [] :=
  fun _ => ⟨[], inOrder_nil, fun p l => by simp, by cases limit <;> rfl⟩

/-- The lines of a forest: those below its first node, then those below the rest, one position
further on. -/
lemma forestLines_cons {limit : Nat} {rest : List Node} (hn : NodeLines shown s d n)
    (hr : ForestLines shown s d limit rest) : ForestLines shown s d (limit + 1) (n :: rest) := by
  intro k
  obtain ⟨Ln, hon, hmn, htn⟩ := hn
  obtain ⟨Lr, hor, hmr, htr⟩ := hr (k + 1)
  refine ⟨Ln.map (under k) ++ Lr, (hon.under k).append hor ?_, fun p l => ?_, ?_⟩
  · -- the first node's lines start with `k`, the others' with a later position
    rintro ⟨pa, la⟩ ha ⟨pb, lb⟩ hb
    obtain ⟨qa, rfl, -⟩ := mem_map_under.mp ha
    obtain ⟨j, qb, c, rfl, -⟩ := (hmr pb lb).mp hb
    exact List.Lex.rel (by omega)
  · rw [List.mem_append, mem_map_under, hmr]
    constructor
    · rintro (⟨q, rfl, he⟩ | ⟨j, q, c, rfl, hj, hc, hs, hb⟩)
      · obtain ⟨hs, hb⟩ := (hmn q l).mp he
        exact ⟨0, q, n, rfl, by omega, rfl, hs, hb⟩
      · exact ⟨j + 1, q, c, by rw [Nat.add_right_comm, Nat.add_assoc], by omega, hc, hs, hb⟩
    · rintro ⟨j, q, c, rfl, hj, hc, hs, hb⟩
      cases j with
      | zero =>
        obtain rfl : n = c := by simpa using hc
        exact .inl ⟨q, rfl, (hmn q l).mpr ⟨hs, hb⟩⟩
      | succ j =>
        exact .inr ⟨j, q, c, by rw [Nat.add_right_comm, Nat.add_assoc], by omega, hc, hs, hb⟩
  · rw [forest.eq_3, htn, htr, text_append, text_under]

lemma nodeLines_hidden (h : ¬ s.Shows n) : NodeLines shown s d n :=
  ⟨[], inOrder_nil, fun p l => by simp [h], node_hidden h⟩

lemma nodeLines_cut (hs : s.Shows n) (hd : ¬ s.Descends d) : NodeLines shown s d n := by
  refine ⟨[([], .node d n)], List.pairwise_singleton _ _, fun p l => ?_, ?_⟩
  · rw [below_iff, List.mem_singleton, Prod.mk.injEq]
    simp only [hd, false_and, or_false, true_and, hs]
  · rw [node_cut hs hd]
    simp

/-- The lines below a node that a printed node is followed by all have a path of a child. -/
lemma below_child_ne {L : List (List Nat × Line)} (k : Nat) :
    ∀ e ∈ L.map (under k), e.1 ≠ [] := by
  intro e he
  obtain ⟨e', -, rfl⟩ := List.mem_map.mp he
  simp [under]

lemma nodeLines_pointer {target : Node} (hs : s.Shows n) (hd : s.Descends d)
    (hk : n.kind = .pointer target) (ih : NodeLines shown s (d + 1) target) :
    NodeLines shown s d n := by
  obtain ⟨L, ho, hm, ht⟩ := ih
  have hb : branches n = [target] := by simp [branches, hk]
  have ha : n.isArray = false := by simp [Node.isArray, hk]
  refine ⟨([], .node d n) :: L.map (under 0), (ho.under 0).root _ (below_child_ne 0),
    fun p l => ?_, ?_⟩
  · rw [below_iff, List.mem_cons, mem_map_under]
    simp only [hs, hd, ha, hb, true_and, Bool.false_eq_true, false_and, false_or, Prod.mk.injEq]
    constructor
    · rintro (⟨rfl, rfl⟩ | ⟨q, rfl, he⟩)
      · exact .inl ⟨rfl, rfl⟩
      · obtain ⟨hst, hbt⟩ := (hm q l).mp he
        exact .inr ⟨0, q, target, rfl, rfl, fun h => absurd h (by simp [ha]), hst, hbt⟩
    · rintro (⟨rfl, rfl⟩ | ⟨j, q, c, rfl, hc, -, hsc, hbc⟩)
      · exact .inl ⟨rfl, rfl⟩
      · obtain ⟨rfl, rfl⟩ : j = 0 ∧ target = c := by
          rcases j with _ | j
          · simpa using hc
          · simp at hc
        exact .inr ⟨q, rfl, (hm q l).mpr ⟨hsc, hbc⟩⟩
  · rw [node_pointer hs hd hk, ht]
    simp

lemma nodeLines_array (hs : s.Shows n) (hd : s.Descends d) (hk : n.kind = .array)
    (ih : ForestLines shown s (d + 1) (arrayLimit s n) n.children) : NodeLines shown s d n := by
  obtain ⟨L, ho, hm, ht⟩ := ih 0
  have hb : branches n = n.children := by simp [branches, hk]
  have ha : n.isArray = true := by simp [Node.isArray, hk]
  -- the count an array leaves out follows the lines of the children it prints
  have hcross : ∀ a ∈ L, ∀ b ∈ elided s d n, List.Lex (· < ·) a.1 b.1 := by
    rintro ⟨pa, la⟩ ha' ⟨pb, lb⟩ hb'
    obtain ⟨j, q, c, rfl, hj, -⟩ := (hm pa la).mp ha'
    obtain ⟨hpos, -, rfl, -⟩ := mem_elided.mp hb'
    rw [arrayLimit_of_pos hpos] at hj
    exact List.Lex.rel (by omega)
  have hne : ∀ e ∈ L ++ elided s d n, e.1 ≠ [] := by
    rintro ⟨p, l⟩ he
    rcases List.mem_append.mp he with he | he
    · obtain ⟨j, q, c, rfl, -⟩ := (hm p l).mp he
      simp
    · obtain ⟨-, -, rfl, -⟩ := mem_elided.mp he
      simp
  refine ⟨([], .node d n) :: (L ++ elided s d n), (ho.append inOrder_elided hcross).root _ hne,
    fun p l => ?_, ?_⟩
  · have hchild : (∃ j q c, p = (0 + j) :: q ∧ j < arrayLimit s n ∧ n.children[j]? = some c ∧
        s.Shows c ∧ Below s (d + 1) c q l) ↔ ∃ j q c, p = j :: q ∧ (branches n)[j]? = some c ∧
        s.Considers n j ∧ s.Shows c ∧ Below s (d + 1) c q l := by
      simp only [Nat.zero_add, hb]
      constructor
      · rintro ⟨j, q, c, rfl, hj, hc, hsc, hbc⟩
        obtain ⟨-, hcj⟩ := (considered_array ha).mp ⟨hj, hc⟩
        exact ⟨j, q, c, rfl, hc, hcj, hsc, hbc⟩
      · rintro ⟨j, q, c, rfl, hc, hcj, hsc, hbc⟩
        obtain ⟨hj, -⟩ := (considered_array ha).mpr ⟨hc, hcj⟩
        exact ⟨j, q, c, rfl, hj, hc, hsc, hbc⟩
    rw [below_iff, List.mem_cons, List.mem_append, hm, hchild, mem_elided, Prod.mk.injEq]
    simp only [hs, hd, ha, true_and]
    rw [or_comm (a := ∃ j q c, _)]
  · rw [node_array hs hd hk, ht, text_cons, text_append, String.append_assoc]

lemma nodeLines_other (hs : s.Shows n) (hd : s.Descends d) (hp : ∀ t, n.kind ≠ .pointer t)
    (hk : n.kind ≠ .array) (ih : ForestLines shown s (d + 1) n.children.length n.children) :
    NodeLines shown s d n := by
  obtain ⟨L, ho, hm, ht⟩ := ih 0
  have hb : branches n = n.children := by
    unfold branches
    split
    · exact absurd ‹_› (hp _)
    · rfl
  have ha : n.isArray = false := by
    unfold Node.isArray
    split
    · exact absurd ‹_› hk
    · rfl
  have hne : ∀ e ∈ L, e.1 ≠ [] := by
    rintro ⟨p, l⟩ he
    obtain ⟨j, q, c, rfl, -⟩ := (hm p l).mp he
    simp
  refine ⟨([], .node d n) :: L, ho.root _ hne, fun p l => ?_, ?_⟩
  · rw [below_iff, List.mem_cons, hm, Prod.mk.injEq]
    simp only [hs, hd, ha, hb, true_and, Bool.false_eq_true, false_and, false_or, Nat.zero_add]
    -- every child is considered, and the limit is the number of children
    have hcons : ∀ j, s.Considers n j := fun j h => absurd h (by simp [ha])
    constructor
    · rintro (h | ⟨j, q, c, rfl, -, hc, hsc, hbc⟩)
      · exact .inl h
      · exact .inr ⟨j, q, c, rfl, hc, hcons j, hsc, hbc⟩
    · rintro (h | ⟨j, q, c, rfl, hc, -, hsc, hbc⟩)
      · exact .inl h
      · exact .inr ⟨j, q, c, rfl, (List.getElem?_eq_some_iff.mp hc).1, hc, hsc, hbc⟩
  · rw [node_other hs hd hp hk, ht, text_cons]

/-- Printing writes the lines below every node and every forest, in preorder. -/
theorem nodeLines_all : ∀ d n, NodeLines shown s d n := by
  -- the printer's own recursion, a case for each branch of `node` and of `forest`
  refine node.induct shown s (NodeLines shown s) (ForestLines shown s)
    ?hidden ?cut ?pointer ?array ?other ?zero ?nil ?cons
  case hidden =>
    intro _ _ _ _ _ _ _ _ _ _ _ _ _ _ h
    exact nodeLines_hidden shown s (not_shows_iff.mpr h)
  case cut =>
    intro _ _ _ _ _ _ _ _ _ _ _ _ _ _ h₁ h₂
    exact nodeLines_cut shown s (shows_iff.mpr h₁) (not_descends_iff.mpr h₂)
  case pointer =>
    intro _ _ _ _ _ _ _ _ _ _ _ _ _ h₁ h₂ _ _ ih
    exact nodeLines_pointer shown s (shows_iff.mpr h₁) (descends_iff.mpr h₂) rfl ih
  case array =>
    intro _ _ _ _ _ _ _ _ _ _ _ _ _ h₁ h₂ _ _ ih
    exact nodeLines_array shown s (shows_iff.mpr h₁) (descends_iff.mpr h₂) rfl ih
  case other =>
    intro _ _ _ _ _ _ _ _ _ _ _ _ _ _ h₁ h₂ h hp ha ih
    refine nodeLines_other shown s (shows_iff.mpr h₁) (descends_iff.mpr h₂)
      (fun t ht => ?_) (fun ht => ?_) ih
    · subst ht
      exact hp t h rfl HEq.rfl
    · subst ht
      exact ha h rfl HEq.rfl
  case zero => exact fun ns d => forestLines_zero shown s d ns
  case nil => exact fun d limit _ => forestLines_nil shown s d limit
  case cons => exact fun _ _ _ _ ihn ihr => forestLines_cons shown s ihn ihr

/-- Printing writes the lines below the first nodes of every list, in preorder. -/
theorem forestLines_all (d limit : Nat) (ns : List Node) : ForestLines shown s d limit ns := by
  induction ns generalizing limit with
  | nil => exact forestLines_nil shown s d limit
  | cons n rest ih =>
    cases limit with
    | zero => exact forestLines_zero shown s d _
    | succ limit => exact forestLines_cons shown s (nodeLines_all shown s d n) (ih limit)

end Lines

/-- **Tree printing follows its visibility rules.** The printed text of a forest is made of
lines, one for each node reached and one for each array that leaves elements out, in
preorder of their paths; a node is reached when it and every node above it are shown (hidden
nodes only when asked), each level above it lies within the depth limit, a pointer leads only
to its target, and each array on the way leads only to its first elements when it has an
element limit. A node's line is its header after two blanks per level, whatever its value's
formatting gives. -/
theorem lines_in_preorder (shown : Node → Except EvalError String) (s : OutputSettings)
    (nodes : List Node) :
    ∃ L, InOrder L ∧ (∀ p l, (p, l) ∈ L ↔ Printed s nodes p l) ∧
      lines shown s nodes = text shown L := by
  obtain ⟨L, ho, hm, ht⟩ := forestLines_all shown s 0 nodes.length nodes 0
  refine ⟨L, ho, fun p l => ?_, ht⟩
  rw [hm]
  constructor
  · rintro ⟨i, q, n, rfl, -, hn, hs, hb⟩
    exact ⟨i, q, n, by rw [Nat.zero_add], hn, hs, hb⟩
  · rintro ⟨i, q, n, rfl, hn, hs, hb⟩
    exact ⟨i, q, n, by rw [Nat.zero_add], (List.getElem?_eq_some_iff.mp hn).1, hn, hs, hb⟩

end Tree

end ByteLayout

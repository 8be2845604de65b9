import Mathlib
import ByteLayout.Layout.Node

/-!
# Regions of pattern nodes

A node names `size` bytes from `offset`. This file states how the regions of a node and
its children relate: a child lies within its parent (`Node.ChildrenWithin`), the children
cover the parent end to end (`Node.Tiled`), or some child starts where the parent starts
(`Node.Anchored`). A property that holds at a node and at every node below it, through
children and pointees, is `Node.Everywhere`; the nodes below are those `Node.Reaches`
names.

Attributes restyle a node without moving it: every property here depends only on the
regions, kinds and children of the nodes, and recolouring keeps those (`Node.setColor`
recolours an array's elements too, which keeps their regions).

## Main definitions

* `Node.Within` — a node inside a byte range.
* `Node.Tiles`, `Node.Tiled` — nodes covering a range end to end.
* `Node.Anchors`, `Node.Anchored` — some node at the start of a range.
* `Node.Reaches`, `Node.Everywhere` — the nodes below a node, and a property of all of them.

## Main results

* `Node.tiles_append`, `Node.anchors_append` — covering two adjacent ranges covers both.
* `Node.tiles_iff` — the index form: each node starts where the previous one ends, and the
  range is as long as the sizes together.
* `Node.Everywhere.of_reaches` — an everywhere property holds at every node reached.
* `Node.Everywhere.setColor` — recolouring keeps everywhere properties that recolouring
  keeps.
-/

namespace ByteLayout

namespace Node

/-! ### Ranges -/

/-- The node lies inside `[lo, hi)`. -/
def Within (lo hi : Nat) (n : Node) : Prop := lo ≤ n.offset ∧ n.offset + n.size ≤ hi

lemma Within.mono {lo hi lo' hi' : Nat} {n : Node} (h : n.Within lo hi) (hlo : lo' ≤ lo)
    (hhi : hi ≤ hi') : n.Within lo' hi' :=
  ⟨Nat.le_trans hlo h.1, Nat.le_trans h.2 hhi⟩

/-- Every child lies inside the node. -/
def ChildrenWithin (n : Node) : Prop :=
  ∀ c ∈ n.children, c.Within n.offset (n.offset + n.size)

/-- The nodes cover `[lo, hi)` end to end: each starts where the one before it ends. -/
def Tiles : List Node → Nat → Nat → Prop
  | [], lo, hi => lo = hi
  | n :: ns, lo, hi => n.offset = lo ∧ Tiles ns (n.offset + n.size) hi

/-- The children cover the node end to end. -/
def Tiled (n : Node) : Prop := Tiles n.children n.offset (n.offset + n.size)

/-- Some node starts at `lo`, or there is none and the range is empty. -/
def Anchors (ns : List Node) (lo hi : Nat) : Prop :=
  (ns = [] ∧ lo = hi) ∨ ∃ n ∈ ns, n.offset = lo

/-- Some child starts where the node starts, or the node has no children and no bytes. -/
def Anchored (n : Node) : Prop := Anchors n.children n.offset (n.offset + n.size)

/-- A node with children has one at its own offset. -/
def StartsAtChild (n : Node) : Prop := n.children ≠ [] → ∃ c ∈ n.children, c.offset = n.offset

@[simp] lemma tiles_nil (lo hi : Nat) : Tiles [] lo hi ↔ lo = hi := Iff.rfl

@[simp] lemma tiles_cons (n : Node) (ns : List Node) (lo hi : Nat) :
    Tiles (n :: ns) lo hi ↔ n.offset = lo ∧ Tiles ns (n.offset + n.size) hi := Iff.rfl

lemma tiles_singleton (n : Node) : Tiles [n] n.offset (n.offset + n.size) := by simp

lemma tiles_append {a b : List Node} {lo mid hi : Nat} (ha : Tiles a lo mid)
    (hb : Tiles b mid hi) : Tiles (a ++ b) lo hi := by
  induction a generalizing lo with
  | nil => simp only [tiles_nil] at ha; subst ha; simpa using hb
  | cons n ns ih =>
    obtain ⟨rfl, hns⟩ := ha
    exact ⟨rfl, ih hns⟩

/-- The end of a tiled range is its start plus the sizes of the nodes. -/
lemma Tiles.eq_add_sum {ns : List Node} {lo hi : Nat} (h : Tiles ns lo hi) :
    hi = lo + (ns.map Node.size).sum := by
  induction ns generalizing lo with
  | nil => simpa using h.symm
  | cons n ns ih =>
    obtain ⟨rfl, hns⟩ := h
    rw [ih hns]
    simp [Nat.add_assoc]

lemma Tiles.within {ns : List Node} {lo hi : Nat} (h : Tiles ns lo hi) :
    ∀ n ∈ ns, n.Within lo hi := by
  induction ns generalizing lo with
  | nil => simp
  | cons n ns ih =>
    obtain ⟨rfl, hns⟩ := h
    have hend := hns.eq_add_sum
    intro x hx
    rcases List.mem_cons.mp hx with rfl | hx
    · exact ⟨Nat.le_refl _, by omega⟩
    · have := ih hns x hx
      exact ⟨by unfold Within at this; omega, this.2⟩

/-- The index form of tiling, as the layout of a struct is usually described: the first
node at the start, each next node where the one before ends, and the range as long as the
nodes together. -/
lemma tiles_iff {ns : List Node} {lo hi : Nat} :
    Tiles ns lo hi ↔
      (∀ h : 0 < ns.length, ns[0].offset = lo) ∧
      (∀ i (h : i + 1 < ns.length), ns[i + 1].offset = ns[i].offset + ns[i].size) ∧
      hi = lo + (ns.map Node.size).sum := by
  induction ns generalizing lo with
  | nil => simp [eq_comm]
  | cons n ns ih =>
    simp only [tiles_cons, ih, List.length_cons, List.getElem_cons_zero, List.map_cons,
      List.sum_cons]
    constructor
    · rintro ⟨rfl, hfirst, hnext, hsum⟩
      refine ⟨fun _ => rfl, ?_, by rw [hsum, Nat.add_assoc]⟩
      intro i hi
      cases i with
      | zero => exact hfirst (by omega)
      | succ i => exact hnext i (by omega)
    · rintro ⟨hfirst, hnext, hsum⟩
      refine ⟨hfirst (by omega), fun h => ?_, fun i hi => hnext (i + 1) (by omega), ?_⟩
      · simpa using hnext 0 (by omega)
      · rw [hsum, hfirst (by omega), Nat.add_assoc]

lemma Tiles.anchors {ns : List Node} {lo hi : Nat} (h : Tiles ns lo hi) : Anchors ns lo hi := by
  cases ns with
  | nil => exact .inl ⟨rfl, h⟩
  | cons n ns => exact .inr ⟨n, List.mem_cons_self, h.1⟩

lemma anchors_append {a b : List Node} {lo mid hi : Nat} (ha : Anchors a lo mid)
    (hb : Anchors b mid hi) : Anchors (a ++ b) lo hi := by
  rcases ha with ⟨rfl, rfl⟩ | ⟨n, hn, hoff⟩
  · simpa using hb
  · exact .inr ⟨n, List.mem_append_left b hn, hoff⟩

/-- Nodes laid over each other from `lo`: two lists anchored at `lo` anchor the longer of
their two ranges. -/
lemma Anchors.overlay {a b : List Node} {lo s hi : Nat} (ha : Anchors a lo (lo + s))
    (hb : Anchors b lo hi) : Anchors (a ++ b) lo (lo + max s (hi - lo)) := by
  rcases ha with ⟨rfl, hs⟩ | ⟨n, hn, hoff⟩
  · rcases hb with ⟨rfl, rfl⟩ | ⟨n, hn, hoff⟩
    · exact .inl ⟨rfl, by omega⟩
    · exact .inr ⟨n, List.mem_append_right [] hn, hoff⟩
  · exact .inr ⟨n, List.mem_append_left b hn, hoff⟩

lemma Anchored.startsAtChild {n : Node} (h : n.Anchored) : n.StartsAtChild := by
  intro hne
  rcases h with ⟨hnil, -⟩ | hc
  · exact absurd hnil hne
  · exact hc

/-! ### Every node below -/

/-- `n'` is `n` or lies below it, through children and pointees. -/
inductive Reaches : Node → Node → Prop
  | refl (n : Node) : Reaches n n
  | child {n c n' : Node} : c ∈ n.children → Reaches c n' → Reaches n n'
  | pointee {n p n' : Node} : n.kind = .pointer p → Reaches p n' → Reaches n n'

/-- `Q` holds at the node and at every node below it, through children and pointees. -/
inductive Everywhere (Q : Node → Prop) : Node → Prop
  | intro {n : Node} : Q n → (∀ c ∈ n.children, Everywhere Q c) →
      (∀ p, n.kind = .pointer p → Everywhere Q p) → Everywhere Q n

namespace Everywhere

variable {Q R : Node → Prop}

lemma here {n : Node} (h : Everywhere Q n) : Q n := by
  cases h with
  | intro hq _ _ => exact hq

lemma child {n : Node} (h : Everywhere Q n) : ∀ c ∈ n.children, Everywhere Q c := by
  cases h with
  | intro _ hc _ => exact hc

lemma pointee {n : Node} (h : Everywhere Q n) : ∀ p, n.kind = .pointer p → Everywhere Q p := by
  cases h with
  | intro _ _ hp => exact hp

lemma of_reaches {n n' : Node} (h : Everywhere Q n) (hr : Reaches n n') : Q n' := by
  induction hr with
  | refl => exact h.here
  | child hc _ ih => exact ih (h.child _ hc)
  | pointee hp _ ih => exact ih (h.pointee _ hp)

lemma and {n : Node} (hq : Everywhere Q n) (hr : Everywhere R n) :
    Everywhere (fun n => Q n ∧ R n) n := by
  induction hq with
  | @intro n hqn _ _ ihc ihp =>
    exact ⟨⟨hqn, hr.here⟩, fun c hc => ihc c hc (hr.child c hc),
      fun p hp => ihp p hp (hr.pointee p hp)⟩

/-- A node whose children and pointee satisfy `Q` everywhere satisfies it everywhere as soon
as it satisfies `Q` itself; used for the node a builder makes from nodes it built. -/
lemma of_children {n : Node} (hq : Q n) (hc : ∀ c ∈ n.children, Everywhere Q c)
    (hp : ∀ p, n.kind = .pointer p → Everywhere Q p) : Everywhere Q n := ⟨hq, hc, hp⟩

/-- A leaf: no children and no pointee. -/
lemma of_leaf {n : Node} (hq : Q n) (hc : n.children = [])
    (hp : ∀ p, n.kind ≠ .pointer p) : Everywhere Q n :=
  ⟨hq, by simp [hc], fun p h => absurd h (hp p)⟩

end Everywhere

/-- A node with no children and no pointee. -/
def Leaf (n : Node) : Prop := n.children = [] ∧ ∀ p, n.kind ≠ .pointer p

lemma Leaf.everywhere {Q : Node → Prop} {n : Node} (h : n.Leaf) (hq : Q n) : Everywhere Q n :=
  Everywhere.of_leaf hq h.1 h.2

lemma Leaf.childrenWithin {n : Node} (h : n.Leaf) : n.ChildrenWithin := by
  simp [ChildrenWithin, h.1]

lemma Leaf.startsAtChild {n : Node} (h : n.Leaf) : n.StartsAtChild := by
  simp [StartsAtChild, h.1]

/-! ### Restyling -/

/-- Recolouring changes the colour and, for an array, the elements; nothing else. -/
lemma setColor_eq (c : Nat) (n : Node) :
    n.setColor c =
      { n with
        color := some c
        children := if n.isArray then n.children.map (setColor c) else n.children } := by
  rcases n with ⟨_, _, _, _, _, k, _⟩
  cases k <;> simp [setColor, isArray]

@[simp] lemma offset_setColor (c : Nat) (n : Node) : (n.setColor c).offset = n.offset := by
  rw [setColor_eq]

@[simp] lemma size_setColor (c : Nat) (n : Node) : (n.setColor c).size = n.size := by
  rw [setColor_eq]

@[simp] lemma kind_setColor (c : Nat) (n : Node) : (n.setColor c).kind = n.kind := by
  rw [setColor_eq]

lemma children_setColor (c : Nat) (n : Node) :
    (n.setColor c).children = if n.isArray then n.children.map (setColor c) else n.children := by
  rw [setColor_eq]

@[simp] lemma isCompound_setColor (c : Nat) (n : Node) :
    (n.setColor c).isCompound = n.isCompound := by
  simp [isCompound]

/-- Recolouring a list keeps the nodes' regions. -/
lemma tiles_map_setColor (c : Nat) {ns : List Node} {lo hi : Nat} :
    Tiles (ns.map (setColor c)) lo hi ↔ Tiles ns lo hi := by
  induction ns generalizing lo with
  | nil => rfl
  | cons n ns ih => simp [ih]

lemma Anchors.map_setColor (c : Nat) {ns : List Node} {lo hi : Nat} (h : Anchors ns lo hi) :
    Anchors (ns.map (setColor c)) lo hi := by
  rcases h with ⟨rfl, rfl⟩ | ⟨n, hn, hoff⟩
  · exact .inl ⟨rfl, rfl⟩
  · exact .inr ⟨n.setColor c, List.mem_map_of_mem hn, by simpa using hoff⟩

lemma childrenWithin_setColor (c : Nat) {n : Node} (h : n.ChildrenWithin) :
    (n.setColor c).ChildrenWithin := by
  intro x hx
  rw [children_setColor] at hx
  split at hx
  · obtain ⟨y, hy, rfl⟩ := List.mem_map.mp hx
    simpa [Within] using h y hy
  · simpa using h x hx

lemma startsAtChild_setColor (c : Nat) {n : Node} (h : n.StartsAtChild) :
    (n.setColor c).StartsAtChild := by
  intro hne
  rw [children_setColor] at hne ⊢
  split
  · obtain ⟨y, hy, hoff⟩ := h (by simpa [*] using hne)
    exact ⟨y.setColor c, List.mem_map_of_mem hy, by simpa using hoff⟩
  · obtain ⟨y, hy, hoff⟩ := h (by simpa [*] using hne)
    exact ⟨y, hy, by simpa using hoff⟩

lemma tiled_setColor (c : Nat) {n : Node} (h : n.Tiled) : (n.setColor c).Tiled := by
  unfold Tiled at h ⊢
  rw [children_setColor]
  split <;> simpa [tiles_map_setColor] using h

lemma anchored_setColor (c : Nat) {n : Node} (h : n.Anchored) : (n.setColor c).Anchored := by
  unfold Anchored at h ⊢
  rw [children_setColor]
  split
  · simpa using h.map_setColor c
  · simpa using h

/-- Recolouring keeps a property everywhere if it keeps it at each node: an array's
elements are recoloured with it, other children and pointees stay as they are. -/
lemma Everywhere.setColor {Q : Node → Prop} (c : Nat) (hQ : ∀ n, Q n → Q (n.setColor c))
    {n : Node} (h : Everywhere Q n) : Everywhere Q (n.setColor c) := by
  induction h with
  | @intro n hq hc hp ihc _ =>
    refine ⟨hQ n hq, fun x hx => ?_, fun p hpk => hp p (by simpa using hpk)⟩
    rw [children_setColor] at hx
    split at hx
    · obtain ⟨y, hy, rfl⟩ := List.mem_map.mp hx
      exact ihc y hy
    · exact hc x hx

/-- `n'` is `n` shown differently: renamed, commented, hidden, given a formatter or a
transform, or recoloured, any number of times. The region and the kind stay, and so do the
children up to their colour. -/
inductive Restyled : Node → Node → Prop
  | refl (n : Node) : Restyled n n
  | present {n n' n'' : Node} : Restyled n n' → n''.offset = n'.offset → n''.size = n'.size →
      n''.kind = n'.kind → n''.children = n'.children → Restyled n n''
  | color {n n' : Node} (c : Nat) : Restyled n n' → Restyled n (n'.setColor c)

namespace Restyled

variable {n n' : Node}

lemma trans {n'' : Node} (h : Restyled n n') (h' : Restyled n' n'') : Restyled n n'' := by
  induction h' with
  | refl => exact h
  | present _ ho hs hk hc ih => exact .present ih ho hs hk hc
  | color c _ ih => exact .color c ih

lemma offset_eq (h : Restyled n n') : n'.offset = n.offset := by
  induction h with
  | refl => rfl
  | present _ ho _ _ _ ih => rw [ho, ih]
  | color c _ ih => rw [offset_setColor, ih]

lemma size_eq (h : Restyled n n') : n'.size = n.size := by
  induction h with
  | refl => rfl
  | present _ _ hs _ _ ih => rw [hs, ih]
  | color c _ ih => rw [size_setColor, ih]

lemma kind_eq (h : Restyled n n') : n'.kind = n.kind := by
  induction h with
  | refl => rfl
  | present _ _ _ hk _ ih => rw [hk, ih]
  | color c _ ih => rw [kind_setColor, ih]

lemma isCompound_eq (h : Restyled n n') : n'.isCompound = n.isCompound := by
  simp [isCompound, h.kind_eq]

lemma tiled (h : Restyled n n') (ht : n.Tiled) : n'.Tiled := by
  induction h with
  | refl => exact ht
  | present _ ho hs _ hc ih => unfold Tiled; rw [ho, hs, hc]; exact ih
  | color c _ ih => exact tiled_setColor c ih

lemma anchored (h : Restyled n n') (ha : n.Anchored) : n'.Anchored := by
  induction h with
  | refl => exact ha
  | present _ ho hs _ hc ih => unfold Anchored; rw [ho, hs, hc]; exact ih
  | color c _ ih => exact anchored_setColor c ih

/-- Restyling keeps a property everywhere when the property reads only regions, kinds and
children, and recolouring keeps it. -/
lemma everywhere {Q : Node → Prop}
    (hQ : ∀ m m', m'.offset = m.offset → m'.size = m.size → m'.kind = m.kind →
      m'.children = m.children → Q m → Q m')
    (hc : ∀ c m, Q m → Q (m.setColor c)) (h : Restyled n n') (hn : Everywhere Q n) :
    Everywhere Q n' := by
  induction h with
  | refl => exact hn
  | present _ ho hs hk hch ih =>
    refine ⟨hQ _ _ ho hs hk hch ih.here, ?_, ?_⟩
    · rw [hch]; exact ih.child
    · rw [hk]; exact ih.pointee
  | color c _ ih => exact ih.setColor c (hc c)

lemma contained (h : Restyled n n') (hn : Everywhere ChildrenWithin n) :
    Everywhere ChildrenWithin n' :=
  h.everywhere (fun m m' ho hs _ hc hq => by unfold ChildrenWithin; rw [ho, hs, hc]; exact hq)
    (fun c _ hq => childrenWithin_setColor c hq) hn

lemma startsAtChild (h : Restyled n n') (hn : Everywhere StartsAtChild n) :
    Everywhere StartsAtChild n' :=
  h.everywhere (fun m m' ho _ _ hc hq => by unfold StartsAtChild; rw [ho, hc]; exact hq)
    (fun c _ hq => startsAtChild_setColor c hq) hn

end Restyled

end Node

end ByteLayout

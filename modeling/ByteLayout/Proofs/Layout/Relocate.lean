import Mathlib
import ByteLayout.Proofs.Layout.Region

set_option autoImplicit false

/-!
# Relocating nodes

`Node.relocate n a` moves a node to the offset `a` and every node below it through children by
the same distance: the difference `a - n.offset`, taken modulo `2 ^ 64` as the 64-bit offsets
of the nodes are. It is a translation of the tree. Each node reached through children keeps
all it has but its offset (`Node.unplaced`), a pointer keeps its pointee where the pointee
was built, a second relocation undoes the first, and relocating a node to where it stands
changes nothing.

Offsets of nodes are 64-bit words. Nothing in the definitions says so, and a translation
modulo `2 ^ 64` moves an offset of `2 ^ 64` or more into the words, so the identity law is
stated for trees whose every offset is a word.

## Main definitions

* `Node.at?` — the node at a path of child indices.
* `Node.unplaced` — a node and everything below it through children, with the offsets
  forgotten.

## Main results

* `Node.childInduction` — induction over the nodes reached through children.
* `Node.shift_shift`, `Node.shift_zero` — shifts add up modulo `2 ^ 64`, and the shift by
  zero keeps a tree of words.
* `Node.at?_shift`, `Node.unplaced_shift` — a shift moves the node at every path, and
  nothing but offsets.
* `relocationTranslates` — relocation is a translation of the tree.
-/

namespace ByteLayout

namespace Node

/-! ### Induction through children -/

lemma sizeOf_lt_of_mem_children {n c : Node} (h : c ∈ n.children) : sizeOf c < sizeOf n := by
  rcases n with ⟨_, _, _, _, _, _, _, _, _, _, _, _, cs⟩
  have hc : c ∈ cs := h
  have := List.sizeOf_lt_of_mem hc
  simp only [mk.sizeOf_spec]
  omega

/-- Induction over the nodes reached through children: a property that holds of a node as
soon as it holds of the node's children holds of every node. -/
theorem childInduction {P : Node → Prop} (step : ∀ n, (∀ c ∈ n.children, P c) → P n)
    (n : Node) : P n := by
  induction hs : sizeOf n using Nat.strong_induction_on generalizing n with
  | _ s ih =>
    refine step n fun c hc => ih (sizeOf c) ?_ c rfl
    rw [← hs]
    exact sizeOf_lt_of_mem_children hc

/-! ### Shifts -/

lemma shift_eq (d : Nat) (n : Node) :
    n.shift d = { n with offset := (n.offset + d) % 2 ^ 64, children := n.children.map (shift d) } := by
  rcases n with ⟨_, _, _, _, _, _, _, _, _, _, _, _, _⟩
  rw [shift]

@[simp] lemma offset_shift (d : Nat) (n : Node) : (n.shift d).offset = (n.offset + d) % 2 ^ 64 := by
  rw [shift_eq]

@[simp] lemma children_shift (d : Nat) (n : Node) :
    (n.shift d).children = n.children.map (shift d) := by
  rw [shift_eq]

@[simp] lemma kind_shift (d : Nat) (n : Node) : (n.shift d).kind = n.kind := by
  rw [shift_eq]

/-- Two shifts are one, by the sum of their distances modulo `2 ^ 64`. -/
theorem shift_shift (d e : Nat) (n : Node) : (n.shift d).shift e = n.shift ((d + e) % 2 ^ 64) := by
  induction n using childInduction with
  | step n ih =>
    rw [shift_eq e, shift_eq d, shift_eq]
    simp only [List.map_map]
    congr 1
    · omega
    · exact List.map_congr_left fun c hc => ih c hc

/-- The shift by zero keeps a tree whose offsets are words. -/
theorem shift_zero {n : Node} (h : n.Everywhere fun m => m.offset < 2 ^ 64) : n.shift 0 = n := by
  induction n using childInduction with
  | step n ih =>
    rw [shift_eq]
    have hchildren : n.children.map (shift 0) = n.children := by
      conv_rhs => rw [← List.map_id n.children]
      exact List.map_congr_left fun c hc => ih c hc (h.child c hc)
    rw [hchildren, Nat.add_zero, Nat.mod_eq_of_lt h.here]
    cases n
    rfl

/-! ### Paths -/

/-- The node at a path of child indices: the node itself at the empty path, else the node at
the rest of the path in the child the first index names. -/
def at? (n : Node) : List Nat → Option Node
  | [] => some n
  | i :: p => n.children[i]?.bind fun c => c.at? p

@[simp] lemma at?_nil (n : Node) : n.at? [] = some n := rfl

lemma at?_cons (n : Node) (i : Nat) (p : List Nat) :
    n.at? (i :: p) = n.children[i]?.bind fun c => c.at? p := rfl

/-- A shift moves the node at every path by the same shift. -/
theorem at?_shift (d : Nat) (p : List Nat) (n : Node) : (n.shift d).at? p = (n.at? p).map (shift d) := by
  induction p generalizing n with
  | nil => rfl
  | cons i p ih =>
    rw [at?_cons, at?_cons, children_shift, List.getElem?_map]
    cases n.children[i]? with
    | none => rfl
    | some c => exact ih c

/-! ### What a shift keeps -/

/-- A node and everything below it through children with the offsets forgotten: all that a
shift must keep. A pointee is part of its pointer's kind and keeps its offsets. -/
def unplaced (n : Node) : Node :=
  { n with offset := 0, children := n.children.attach.map fun c => unplaced c.1 }
termination_by sizeOf n
decreasing_by exact sizeOf_lt_of_mem_children c.2

lemma unplaced_eq (n : Node) :
    n.unplaced = { n with offset := 0, children := n.children.map unplaced } := by
  rw [unplaced, List.map_attach_eq_pmap, List.pmap_eq_map]

/-- A shift changes offsets only. -/
theorem unplaced_shift (d : Nat) (n : Node) : (n.shift d).unplaced = n.unplaced := by
  induction n using childInduction with
  | step n ih =>
    rw [unplaced_eq, unplaced_eq, shift_eq]
    simp only [List.map_map]
    congr 1
    exact List.map_congr_left fun c hc => ih c hc

end Node

/-! ### Relocation -/

/-- A relocation is the shift by the distance to its target, modulo `2 ^ 64`. -/
lemma relocate_eq_shift (n : Node) (a : Nat) :
    n.relocate a = n.shift ((a + 2 ^ 64 - n.offset % 2 ^ 64) % 2 ^ 64) := rfl

/-- A relocation puts the node at the offset it is given, as a word. -/
lemma offset_relocate (n : Node) (a : Nat) : (n.relocate a).offset = a % 2 ^ 64 := by
  rw [relocate_eq_shift, Node.offset_shift]
  omega

/-- A relocation after another is the second alone. -/
theorem relocate_relocate (n : Node) (a b : Nat) : (n.relocate a).relocate b = n.relocate b := by
  rw [relocate_eq_shift (n.relocate a), offset_relocate, relocate_eq_shift n a,
    Node.shift_shift, relocate_eq_shift]
  congr 1
  omega

/-- **Relocation is a translation.** For every tree whose offsets are 64-bit words and every
word `a`: relocating to `a` puts the node at `a`; the node at every path of child indices
moves by `(a - n.offset) mod 2 ^ 64`, modulo `2 ^ 64`, and keeps all but its offsets, so a
pointer keeps its pointee as it was; a relocation after it is the later one alone; and
relocating a node to its own offset changes nothing.

**Proof sketch.** A relocation is the shift by its distance (`relocate_eq_shift`). Shifts act
on the node at each path (`Node.at?_shift`), forget nothing but offsets
(`Node.unplaced_shift`), add up (`Node.shift_shift`), and the shift by zero is the identity on
words (`Node.shift_zero`). -/
theorem relocationTranslates (n : Node) (hn : n.Everywhere fun m => m.offset < 2 ^ 64)
    (a b : Nat) (ha : a < 2 ^ 64) :
    (n.relocate a).offset = a ∧
    (∀ p, ((n.relocate a).at? p).map Node.offset =
      (n.at? p).map fun m => (m.offset + (a + 2 ^ 64 - n.offset) % 2 ^ 64) % 2 ^ 64) ∧
    (∀ p, ((n.relocate a).at? p).map Node.unplaced = (n.at? p).map Node.unplaced) ∧
    (n.relocate a).relocate b = n.relocate b ∧
    n.relocate n.offset = n := by
  have hword : n.offset % 2 ^ 64 = n.offset := Nat.mod_eq_of_lt hn.here
  refine ⟨by rw [offset_relocate, Nat.mod_eq_of_lt ha], fun p => ?_, fun p => ?_,
    relocate_relocate n a b, ?_⟩
  · rw [relocate_eq_shift, Node.at?_shift, Option.map_map, hword]
    congr 1
    funext m
    exact Node.offset_shift _ m
  · rw [relocate_eq_shift, Node.at?_shift, Option.map_map]
    congr 1
    funext m
    exact Node.unplaced_shift _ m
  · rw [relocate_eq_shift, hword, Nat.add_sub_cancel_left, Nat.mod_self]
    exact Node.shift_zero hn

/-- The nodes of a struct `outer` at 0 with a member `x` and a nested struct `inner` at 4
holding `a` and `b`. -/
def relocationSample : Node :=
  { Node.fresh "outer" "Outer" 0 6 .struct with
    children := [Node.fresh "x" "u32" 0 4 .unsigned,
      { Node.fresh "inner" "Inner" 4 2 .struct with
        children := [Node.fresh "a" "u8" 4 1 .unsigned, Node.fresh "b" "u8" 5 1 .unsigned] }] }

lemma relocationSample_words : relocationSample.Everywhere fun m => m.offset < 2 ^ 64 := by
  refine .of_children (by decide) ?_ (fun p h => by cases h)
  simp only [relocationSample, List.mem_cons, List.not_mem_nil, or_false, forall_eq_or_imp,
    forall_eq]
  refine ⟨Node.Leaf.everywhere ⟨rfl, fun p h => by cases h⟩ (by decide),
    .of_children (by decide) ?_ (fun p h => by cases h)⟩
  simp only [List.mem_cons, List.not_mem_nil, or_false, forall_eq_or_imp, forall_eq]
  exact ⟨Node.Leaf.everywhere ⟨rfl, fun p h => by cases h⟩ (by decide),
    Node.Leaf.everywhere ⟨rfl, fun p h => by cases h⟩ (by decide)⟩

/-- The sample moved to `0x100` and then to `0x10`. -/
theorem relocationTranslates_sample :
    (relocationSample.Everywhere fun m => m.offset < 2 ^ 64) ∧ 0x100 < 2 ^ 64 ∧
    (relocationSample.relocate 0x100).offset = 0x100 ∧
    (∀ p, ((relocationSample.relocate 0x100).at? p).map Node.offset =
      (relocationSample.at? p).map fun m =>
        (m.offset + (0x100 + 2 ^ 64 - relocationSample.offset) % 2 ^ 64) % 2 ^ 64) ∧
    (∀ p, ((relocationSample.relocate 0x100).at? p).map Node.unplaced =
      (relocationSample.at? p).map Node.unplaced) ∧
    (relocationSample.relocate 0x100).relocate 0x10 = relocationSample.relocate 0x10 ∧
    relocationSample.relocate relocationSample.offset = relocationSample :=
  ⟨relocationSample_words, by decide,
    relocationTranslates relocationSample relocationSample_words 0x100 0x10 (by decide)⟩

end ByteLayout

import Mathlib
import ByteLayout.Proofs.Layout.Parsed

set_option autoImplicit false

/-!
# Every node of a run fits the data

A node is read from the data it was built over. The builders check the bytes of each node
before making it: a scalar, an enum, a bitfield and a pointer's address lie in the data,
and their sizes come from builtin types of at most sixteen bytes or from at most 128 bits.
Reading a node checks again, and this file shows that the two checks agree, with one
exception. A string's characters are checked one by one as they are read, so a string
with no characters is never checked at all: placed past the end of the data, it is made,
and reading it faults out of bounds.

`NodeKind.Fits` says what the builders check of a node of each kind, and
`Node.readValue_of_fits` what reading such a node gives. The frames of the machine hold
only nodes that fit (`Machine.FramesFit`): every builder keeps that and returns a node that
fits at every depth (`FitSpec`), which is proved for every fuel by one induction over the
mutual recursion of the builders, like the layout promises of `buildSpec`.

## Main definitions

* `NodeKind.Fits`, `Node.Fits` — the bytes a node reads lie in the data, with a size its
  kind decodes; a string with no characters fits anywhere.
* `Scope.Holds` — a property of every node in the frames.
* `FitSpec` — every builder's promise at one fuel.

## Main results

* `Node.readValue_of_fits` — a node that fits is read, unless it is an empty string past
  the end of the data.
* `fitSpec` — the promises hold at every fuel.
* `runProgram_nodes_read` — every node of the forest of a run, at every depth, other than
  padding, is read without a fault, except an empty string past the end of the data.
-/

namespace ByteLayout

/-! ### Nodes that fit the data -/

/-- A node of a kind over `size` bytes from `offset` fits data of `len` bytes when the bytes
its kind reads lie in the data, with a size the kind decodes: at most sixteen bytes for a
scalar, four or eight for a float. A string fits when its bytes lie in the data, and also
when it has no characters, wherever it lies. Compounds and padding are not read. -/
def NodeKind.Fits (len offset size : Nat) : NodeKind → Prop
  | .unsigned | .signed | .boolean | .character | .character16 | .enum _
    | .bitfieldField _ _ | .pointer _ => offset + size ≤ len ∧ size ≤ 16
  | .float => offset + size ≤ len ∧ (size = 4 ∨ size = 8)
  | .string | .string16 => size = 0 ∨ offset + size ≤ len
  | .padding | .struct | .union | .bitfield | .array => True

namespace Node

/-- The node fits the data `D`. -/
def Fits (D : ByteArray) (N : Node) : Prop := N.kind.Fits D.size N.offset N.size

variable {D : ByteArray} {N : Node}

lemma readWord_ok (hr : N.offset + N.size ≤ D.size) (hs : N.size ≤ 16) (e : Endian) :
    ∃ w, N.readWord D e = .ok w := by
  simp [readWord, Data.read, hr, Nat.not_lt.mpr hs]

/-- An empty string past the end of the data reads its zero bytes out of bounds. -/
lemma readValue_emptyString (hk : N.kind = .string ∨ N.kind = .string16) (hs : N.size = 0)
    (hpast : D.size < N.offset) (e : Endian) :
    N.readValue D e = .error (.outOfBounds N.offset 0 D.size) := by
  rcases hk with hk | hk <;> simp [readValue, hk, Data.read, hs, Nat.not_le.mpr hpast]

/-- A node that fits the data is read without a fault, except an empty string that lies
past the end of the data: reading its zero bytes there is out of bounds. -/
theorem readValue_of_fits (h : N.Fits D) (hp : N.kind ≠ .padding) (e : Endian) :
    (∃ v, N.readValue D e = .ok v) ∨
      ((N.kind = .string ∨ N.kind = .string16) ∧ N.size = 0 ∧ D.size < N.offset ∧
        N.readValue D e = .error (.outOfBounds N.offset 0 D.size)) := by
  unfold Fits at h
  cases hk : N.kind <;> rw [hk] at h hp <;> simp only [NodeKind.Fits] at h
  case padding => exact absurd rfl hp
  case struct | union | bitfield | array => exact .inl ⟨.pattern N, by simp [readValue, hk]; rfl⟩
  case string | string16 =>
    -- the bytes lie in the data, or there are none and they start past its end
    by_cases hr : N.offset + N.size ≤ D.size
    · exact .inl (by simp [readValue, hk, Data.read, hr])
    · have hs : N.size = 0 := h.resolve_right hr
      have hpast : D.size < N.offset := by omega
      exact .inr ⟨by simp, hs, hpast, readValue_emptyString (by simp [hk]) hs hpast e⟩
  case float =>
    obtain ⟨w, hw⟩ := readWord_ok h.1 (by omega) (N.endian.getD e)
    rcases h.2 with hs | hs <;> exact .inl (by simp [readValue, hk, hw, hs])
  all_goals
    obtain ⟨w, hw⟩ := readWord_ok h.1 h.2 (N.endian.getD e)
    exact .inl (by simp [readValue, hk, hw])

/-- Fitting reads only the region and the kind, which restyling keeps. -/
lemma Restyled.fits {N' : Node} (hr : N.Restyled N') (h : N.Everywhere (Fits D)) :
    N'.Everywhere (Fits D) :=
  hr.everywhere (fun _ _ ho hs hk _ hq => by unfold Fits; rw [ho, hs, hk]; exact hq)
    (fun _ _ hq => by simpa [Fits] using hq) h

/-- What emitting a node that fits appends fits: the node restyled, or its children. -/
lemma Restyled.emitted_fit {N' : Node} (hr : N.Restyled N') (h : N.Everywhere (Fits D))
    (spliced : Bool) : ∀ n ∈ (if spliced then N'.children else [N']), n.Everywhere (Fits D) := by
  intro n hn
  cases spliced
  · simp only [Bool.false_eq_true, ↓reduceIte, List.mem_singleton] at hn
    exact hn ▸ hr.fits h
  · exact (hr.fits h).child n (by simpa using hn)

end Node

/-! ### Frames that fit the data -/

namespace Scope

/-- `Q` holds of every node in the frames of the scope. -/
def Holds (Q : Node → Prop) (s : Scope) : Prop :=
  (∀ f ∈ s.inner, ∀ n ∈ f.members, Q n) ∧ ∀ n ∈ s.global.members, Q n

variable {Q : Node → Prop} {s s' : Scope}

lemma holds_initial : initial.Holds Q := by
  simp [Holds, initial, Frame.empty]

/-- Only the nodes of the frames count, and the layout records them. -/
lemma Holds.of_layout (h : s.Holds Q) (hl : s'.layout = s.layout) : s'.Holds Q := by
  simp only [layout, Prod.mk.injEq] at hl
  refine ⟨fun f hf n hn => ?_, fun n hn => h.2 n (hl.2 ▸ hn)⟩
  have hmem : f.layout ∈ s.inner.map Frame.layout := hl.1 ▸ List.mem_map_of_mem hf
  obtain ⟨g, hg, hgf⟩ := List.mem_map.mp hmem
  have hmembers : g.members = f.members := congrArg (·.2.1) hgf
  exact h.1 g hg n (hmembers ▸ hn)

lemma Holds.extendMembers (h : s.Holds Q) {ns : List Node} (hns : ∀ n ∈ ns, Q n) :
    (s.extendMembers ns).Holds Q := by
  rcases s with ⟨_ | ⟨f, fs⟩, g⟩ <;> simp only [Holds, Scope.extendMembers, modifyCurrent] at h ⊢
  · exact ⟨by simp, fun n hn => (List.mem_append.mp hn).elim (fun hn => hns n (by simpa using hn))
      (h.2 n)⟩
  · refine ⟨fun f' hf' n hn => ?_, h.2⟩
    rcases List.mem_cons.mp hf' with rfl | hf'
    · exact (List.mem_append.mp hn).elim (fun hn => hns n (by simpa using hn))
        (h.1 f (by simp) n)
    · exact h.1 f' (by simp [hf']) n hn

lemma Holds.push (h : s.Holds Q) (k : FrameKind) (st : Nat) (tn : String) :
    (s.push k st tn).Holds Q := by
  refine ⟨fun f hf n hn => ?_, h.2⟩
  rcases List.mem_cons.mp hf with rfl | hf
  · simp [Frame.empty] at hn
  · exact h.1 f hf n hn

/-- Closing a frame: its nodes and the frames left hold `Q`. -/
lemma Holds.pop (h : s.Holds Q) : (∀ n ∈ s.pop.1.members, Q n) ∧ s.pop.2.Holds Q := by
  rcases s with ⟨_ | ⟨f, fs⟩, g⟩
  · exact ⟨by simp [pop, Frame.empty], h⟩
  · exact ⟨h.1 f (by simp), fun f' hf' => h.1 f' (by simp [pop] at hf'; simp [hf']), h.2⟩

lemma Holds.current (h : s.Holds Q) : ∀ n ∈ s.current.members, Q n := by
  rcases s with ⟨_ | ⟨f, fs⟩, g⟩
  · exact h.2
  · exact h.1 f (by simp)

end Scope

/-- The frames of `m` hold only nodes that fit the data `D`, at every depth. -/
def Machine.FramesFit (D : ByteArray) (m : Machine) : Prop :=
  m.scope.Holds (Node.Everywhere (Node.Fits D))

lemma Machine.FramesFit.of_sameLayout {D : ByteArray} {m m' : Machine} (h : m.FramesFit D)
    (hs : m.SameLayout m') : m'.FramesFit D :=
  Scope.Holds.of_layout h hs.scope

/-! ### What each builder promises -/

open Eval

/-- A run that returned `N` in the state `m'`: the node fits the data `D` at every depth,
and so do the nodes of the frames. -/
structure Fitted (D : ByteArray) (N : Node) (m' : Machine) : Prop where
  node : N.Everywhere (Node.Fits D)
  frames : m'.FramesFit D

/-- A run of a character loop from `m` to `m'`: the frames fit the data `D`, and the loop
ended where it started or inside the data. -/
structure CharsFit (D : ByteArray) (m m' : Machine) : Prop where
  frames : m'.FramesFit D
  cursor : m'.cursor ≤ m.cursor ∨ m'.cursor ≤ D.size

/-- Every builder's promise at one fuel, over the data of the context: from a state whose
frames fit the data, every builder leaves such a state, and a builder of a node returns a
node that fits at every depth. -/
structure FitSpec (fuel : Nat) : Prop where
  buildMember : ∀ s c m, m.FramesFit c.data →
    Wp (buildMember fuel s) c m fun _ m' => m'.FramesFit c.data
  buildVar : ∀ name ty pl attrs c m, m.FramesFit c.data →
    Wp (buildVar fuel name ty pl attrs) c m fun _ m' => m'.FramesFit c.data
  buildType : ∀ ty name c m, m.FramesFit c.data →
    Wp (buildType fuel ty name) c m fun b m' => Fitted c.data b.node m'
  buildBody : ∀ ty name c m, m.FramesFit c.data →
    Wp (buildBody fuel ty name) c m fun b m' => Fitted c.data b.node m'
  buildStruct : ∀ bases members name tn c m, m.FramesFit c.data →
    Wp (buildStruct fuel bases members name tn) c m (Fitted c.data)
  buildUnion : ∀ members name tn c m, m.FramesFit c.data →
    Wp (buildUnion fuel members name tn) c m (Fitted c.data)
  buildEnum : ∀ u es name tn c m, m.FramesFit c.data →
    Wp (buildEnum fuel u es name tn) c m (Fitted c.data)
  buildBitfield : ∀ es name tn c m, m.FramesFit c.data →
    Wp (buildBitfield fuel es name tn) c m (Fitted c.data)
  buildArray : ∀ name ty size c m, m.FramesFit c.data →
    Wp (buildArray fuel name ty size) c m (Fitted c.data)
  buildElement : ∀ ty i c m, m.FramesFit c.data →
    Wp (buildElement fuel ty i) c m (Fitted c.data)
  fixedElements : ∀ ty i n acc c m, m.FramesFit c.data →
    (∀ e ∈ acc, e.Everywhere (Node.Fits c.data)) →
    Wp (fixedElements fuel ty i n acc) c m fun r m' =>
      (∀ e ∈ r, e.Everywhere (Node.Fits c.data)) ∧ m'.FramesFit c.data
  whileElements : ∀ ty cnd count acc c m, m.FramesFit c.data →
    (∀ e ∈ acc, e.Everywhere (Node.Fits c.data)) →
    Wp (whileElements fuel ty cnd count acc) c m fun r m' =>
      (∀ e ∈ r, e.Everywhere (Node.Fits c.data)) ∧ m'.FramesFit c.data
  unsizedElements : ∀ ty count acc c m, m.FramesFit c.data →
    (∀ e ∈ acc, e.Everywhere (Node.Fits c.data)) →
    Wp (unsizedElements fuel ty count acc) c m fun r m' =>
      (∀ e ∈ r, e.Everywhere (Node.Fits c.data)) ∧ m'.FramesFit c.data
  buildString : ∀ name ty size unit c m, m.FramesFit c.data →
    Wp (buildString fuel name ty size unit) c m (Fitted c.data)
  whileChars : ∀ cnd start unit c m, m.FramesFit c.data →
    Wp (whileChars fuel cnd start unit) c m fun _ m' => CharsFit c.data m m'
  unsizedChars : ∀ unit c m, m.FramesFit c.data →
    Wp (unsizedChars fuel unit) c m fun _ m' => CharsFit c.data m m'
  buildPointer : ∀ name target addrType addrEndian attrs c m, m.FramesFit c.data →
    Wp (buildPointer fuel name target addrType addrEndian attrs) c m (Fitted c.data)

/-! ### Leaves: builtins, enums, bitfields, strings -/

lemma Builtin.size?_le {b : Builtin} {s : Nat} (h : b.size? = some s) : s ≤ 16 := by
  cases b <;> simp only [Builtin.size?, Option.some.injEq, reduceCtorEq] at h <;> subst h
  case unsigned w | signed w => cases w <;> decide
  all_goals decide

/-- A builtin type's bytes, once checked to lie in the data, fit it. -/
lemma Builtin.fits_nodeKind {b : Builtin} {len o s : Nat} (hs : b.size? = some s)
    (hr : o + s ≤ len) : b.nodeKind.Fits len o s := by
  have h16 := size?_le hs
  cases b <;> simp only [Builtin.size?, Option.some.injEq, reduceCtorEq] at hs <;>
    simp [Builtin.nodeKind, NodeKind.Fits, hr, h16] <;> omega

/-- A fresh leaf that fits the data fits it everywhere. -/
lemma Node.everywhere_fits_fresh {D : ByteArray} {name tn : String} {o s : Nat} {k : NodeKind}
    (hk : ∀ p, k ≠ .pointer p) (h : k.Fits D.size o s) (e : Option Endian) :
    ({ Node.fresh name tn o s k with endian := e } : Node).Everywhere (Node.Fits D) :=
  .of_leaf h (by simp [Node.fresh]) hk

section Steps

variable {fuel : Nat} {c : Context} {m : Machine}

lemma wp_buildBuiltin_fits (b : Builtin) (name tn : String) (hm : m.FramesFit c.data) :
    Wp (Eval.buildBuiltin b name tn) c m (Fitted c.data) := by
  unfold Eval.buildBuiltin
  split
  · rename_i s hs
    simp only [wp_bind, wp_pure, wp_cursor, wp_checkRange, wp_newNode, wp_setCursor]
    intro hr _
    exact ⟨Node.everywhere_fits_fresh (Builtin.nodeKind_ne_pointer b) (Builtin.fits_nodeKind hs hr) _,
      hm⟩
  · split <;> simp

lemma buildEnum_fits (u : Builtin) (es : List EnumEntry) (name tn : String)
    (hm : m.FramesFit c.data) :
    Wp (buildEnum (fuel + 1) u es name tn) c m (Fitted c.data) := by
  rcases hs : u.size? with _ | size <;> simp only [buildEnum, hs, wp_bind, wp_pure, wp_fault]
  refine ((exprKeepsLayout fuel).enumEntries u es).wp (.refl m) fun t m₁ h₁ => ?_
  simp only [wp_cursor, wp_checkRange, wp_newNode, wp_setCursor]
  intro hr _
  have hm₁ : m₁.FramesFit c.data := hm.of_sameLayout h₁
  exact ⟨Node.everywhere_fits_fresh (by simp) (by exact ⟨hr, Builtin.size?_le hs⟩) _, hm₁⟩

lemma buildBitfield_fits (es : List BitfieldEntry) (name tn : String) (hm : m.FramesFit c.data) :
    Wp (buildBitfield (fuel + 1) es name tn) c m (Fitted c.data) := by
  simp only [buildBitfield, wp_bind, wp_cursor]
  -- the fields so far take at most 128 bits, start at the cursor and have no children
  refine (wp_foldlM es _ (fun (r : Nat × List Node) m' => r.1 ≤ 128 ∧
      (∀ f ∈ r.2, f.offset = m.cursor ∧ f.children = [] ∧ ∃ o w, f.kind = .bitfieldField o w) ∧
      m'.FramesFit c.data) ?_ _ m ⟨by simp, by simp, hm⟩).mono fun r m₁ hr => ?_
  · rintro e - ⟨off, fields⟩ m' ⟨hoff, hf, hm'⟩
    simp only [wp_bind]
    refine ((exprKeepsLayout fuel).evalExpr e.width).wp (.refl m') fun v m₂ h₂ => ?_
    simp only [wp_lift, wp_ite, wp_fault, wp_pure, wp_newNode, wp_bind]
    intro w _
    refine ⟨fun _ => trivial, fun hw => ?_⟩
    have hw : off + w ≤ 128 := by simp at hw; omega
    have hm₂ : m₂.FramesFit c.data := hm'.of_sameLayout h₂
    refine ⟨fun _ => ⟨hw, hf, hm₂⟩, fun _ _ => ⟨hw, ?_, hm₂⟩⟩
    intro f hfm
    rcases List.mem_cons.mp hfm with rfl | hfm
    · exact ⟨rfl, rfl, _, _, rfl⟩
    · exact hf f hfm
  · -- every field spans the bytes of the bitfield, at most sixteen
    obtain ⟨bits, fields⟩ := r
    obtain ⟨hbits, hf, hm₁⟩ := hr
    simp only [wp_checkRange, wp_setCursor, wp_newNode, wp_pure]
    intro hrange _
    refine ⟨.of_children (by simp [Node.Fits, Node.fresh, NodeKind.Fits]) ?_ (by simp [Node.fresh]),
      hm₁⟩
    intro f hfm
    obtain ⟨g, hg, rfl⟩ := List.mem_map.mp hfm
    obtain ⟨hgo, hgc, o, w, hgk⟩ := hf g (List.mem_reverse.mp hg)
    refine .of_leaf ?_ hgc (by simp [hgk])
    simp only [Node.Fits, hgk, hgo, NodeKind.Fits]
    exact ⟨hrange, by omega⟩

lemma whileChars_fits (ih : FitSpec fuel) (cnd : Expr) (start unit : Nat)
    (hm : m.FramesFit c.data) :
    Wp (whileChars (fuel + 1) cnd start unit) c m fun _ m' => CharsFit c.data m m' := by
  simp only [whileChars, wp_bind]
  refine ((exprKeepsLayout fuel).evalExpr cnd).wp (.refl m) fun v m₁ h₁ => ?_
  simp only [wp_truth, wp_ite, wp_tick, wp_cursor, wp_checkArrayLength, wp_checkRange,
    wp_setCursor, wp_pure, wp_bind]
  have hm₁ : m₁.FramesFit c.data := hm.of_sameLayout h₁
  intro b _
  refine ⟨fun _ _ _ hr => ?_, fun _ => ⟨hm₁, .inl (Nat.le_of_eq h₁.cursor)⟩⟩
  -- the character just read lies in the data, so the loop ends inside it
  refine (ih.whileChars cnd start unit c _ (by exact hm₁)).mono fun _ m₂ h₂ => ⟨h₂.frames, .inr ?_⟩
  have := h₂.cursor
  simp only at this
  omega

lemma unsizedChars_fits (ih : FitSpec fuel) (unit : Nat) (hm : m.FramesFit c.data) :
    Wp (unsizedChars (fuel + 1) unit) c m fun _ m' => CharsFit c.data m m' := by
  simp only [unsizedChars, wp_bind, wp_cursor, wp_read, wp_ite, wp_fault, wp_tick, wp_readBytes,
    wp_setCursor, wp_pure, implies_true, true_and]
  refine fun _ => ⟨fun hr _ bs _ => ⟨fun _ => ?_, fun _ => ⟨hm, .inr hr⟩⟩,
    fun _ => ⟨hm, .inl le_rfl⟩⟩
  refine (ih.unsizedChars unit c _ (by exact hm)).mono fun _ m₂ h₂ => ⟨h₂.frames, .inr ?_⟩
  have := h₂.cursor
  simp only at this
  omega

/-- The node of a string whose characters took the cursor from `m` to `m₁`: either none
were read, or the last ends inside the data. -/
lemma wp_stringNode_fits {m₁ : Machine} (name : String) (ty : TypeDecl) (unit : Nat)
    (h : CharsFit c.data m m₁) :
    Wp (do
      let k ← cursor
      if unit = 1 then do
        let node ← newNode name "char" m.cursor (k - m.cursor) .string
        return if ty.endian.isSome then { node with endian := ty.endian } else node
      else do
        let node ← newNode name "char16" m.cursor (k - m.cursor) .string16
        return if ty.endian.isSome then { node with endian := ty.endian } else node) c m₁
      (Fitted c.data) := by
  have hfit : m₁.cursor - m.cursor = 0 ∨ m.cursor + (m₁.cursor - m.cursor) ≤ c.data.size := by
    rcases h.cursor with h | h <;> omega
  simp only [wp_cursor, wp_bind, wp_ite, wp_newNode, wp_pure]
  constructor <;> intro _ _ <;> split <;>
    exact ⟨Node.everywhere_fits_fresh (by simp) (by exact hfit) _, h.frames⟩

lemma buildString_fits (ih : FitSpec fuel) (name : String) (ty : TypeDecl) (size : ArraySize)
    (unit : Nat) (hm : m.FramesFit c.data) :
    Wp (buildString (fuel + 1) name ty size unit) c m (Fitted c.data) := by
  rw [buildString, wp_bind, wp_cursor]
  rcases size with count | cnd | _ <;> dsimp only
  · rw [wp_bind]
    refine ((exprKeepsLayout fuel).evalExpr count).wp (.refl m) fun v m₁ h₁ => ?_
    rw [wp_bind, wp_lift]
    intro n _
    rw [wp_bind, wp_checkArrayLength]
    intro _
    split
    · simp
    · rw [wp_bind, wp_checkRange]
      intro hr
      rw [wp_bind, wp_setCursor]
      have hm₁ : m₁.FramesFit c.data := hm.of_sameLayout h₁
      exact wp_stringNode_fits name ty unit ⟨hm₁, .inr hr⟩
  · rw [wp_bind]
    exact (ih.whileChars cnd m.cursor unit c m hm).mono fun _ m₁ h₁ =>
      wp_stringNode_fits name ty unit h₁
  · rw [wp_bind]
    exact (ih.unsizedChars unit c m hm).mono fun _ m₁ h₁ => wp_stringNode_fits name ty unit h₁

/-! ### Arrays -/

lemma buildElement_fits (ih : FitSpec fuel) (ty : TypeDecl) (i : Nat) (hm : m.FramesFit c.data) :
    Wp (buildElement (fuel + 1) ty i) c m (Fitted c.data) := by
  simp only [buildElement, wp_bind, wp_tick, wp_pure]
  intro _
  exact ih.buildType ty _ c _ hm

lemma fixedElements_fits (ih : FitSpec fuel) (ty : TypeDecl) (i n : Nat) (acc : List Node)
    (hm : m.FramesFit c.data) (hacc : ∀ e ∈ acc, e.Everywhere (Node.Fits c.data)) :
    Wp (fixedElements (fuel + 1) ty i n acc) c m fun r m' =>
      (∀ e ∈ r, e.Everywhere (Node.Fits c.data)) ∧ m'.FramesFit c.data := by
  simp only [fixedElements, wp_ite, wp_bind, wp_pure]
  refine ⟨fun _ => (ih.buildElement ty i c m hm).mono fun e m₁ h₁ => ?_,
    fun _ => ⟨by simpa using hacc, hm⟩⟩
  exact ih.fixedElements ty (i + 1) n (e :: acc) c m₁ h₁.frames
    (List.forall_mem_cons.mpr ⟨h₁.node, hacc⟩)

lemma whileElements_fits (ih : FitSpec fuel) (ty : TypeDecl) (cnd : Expr) (count : Nat)
    (acc : List Node) (hm : m.FramesFit c.data)
    (hacc : ∀ e ∈ acc, e.Everywhere (Node.Fits c.data)) :
    Wp (whileElements (fuel + 1) ty cnd count acc) c m fun r m' =>
      (∀ e ∈ r, e.Everywhere (Node.Fits c.data)) ∧ m'.FramesFit c.data := by
  simp only [whileElements, wp_bind]
  refine ((exprKeepsLayout fuel).evalExpr cnd).wp (.refl m) fun v m₁ h₁ => ?_
  simp only [wp_truth, wp_ite, wp_checkArrayLength, wp_bind, wp_pure]
  have hm₁ : m₁.FramesFit c.data := hm.of_sameLayout h₁
  intro b _
  refine ⟨fun _ _ => (ih.buildElement ty count c m₁ hm₁).mono fun e m₂ h₂ => ?_,
    fun _ => ⟨by simpa using hacc, hm₁⟩⟩
  exact ih.whileElements ty cnd (count + 1) (e :: acc) c m₂ h₂.frames
    (List.forall_mem_cons.mpr ⟨h₂.node, hacc⟩)

lemma unsizedElements_fits (ih : FitSpec fuel) (ty : TypeDecl) (count : Nat) (acc : List Node)
    (hm : m.FramesFit c.data) (hacc : ∀ e ∈ acc, e.Everywhere (Node.Fits c.data)) :
    Wp (unsizedElements (fuel + 1) ty count acc) c m fun r m' =>
      (∀ e ∈ r, e.Everywhere (Node.Fits c.data)) ∧ m'.FramesFit c.data := by
  simp only [unsizedElements, wp_bind, wp_cursor, wp_read, wp_ite, wp_checkArrayLength,
    wp_readBytes, wp_pure]
  refine ⟨fun _ _ => (ih.buildElement ty count c m hm).mono fun e m₁ h₁ bs _ => ⟨fun _ => ?_,
    fun _ => ?_⟩, fun _ => ⟨by simpa using hacc, hm⟩⟩
  · -- the all-zero element ends the array
    have hall : ∀ x ∈ e :: acc, x.Everywhere (Node.Fits c.data) :=
      List.forall_mem_cons.mpr ⟨h₁.node, hacc⟩
    exact ⟨fun x hx => hall x (List.mem_reverse.mp hx), h₁.frames⟩
  · exact ih.unsizedElements ty (count + 1) (e :: acc) c m₁ h₁.frames
      (List.forall_mem_cons.mpr ⟨h₁.node, hacc⟩)

/-- The array node over elements that fit the data. -/
lemma wp_arrayNode_fits {m₁ : Machine} {es : List Node} (name : String) (ty : TypeDecl)
    (h : (∀ e ∈ es, e.Everywhere (Node.Fits c.data)) ∧ m₁.FramesFit c.data) :
    Wp (do
      let k ← cursor
      let node ← newNode name ty.displayName m.cursor (k - m.cursor) .array
      return { node with children := es }) c m₁ (Fitted c.data) := by
  simp only [wp_cursor, wp_bind, wp_newNode, wp_pure]
  intro _
  exact ⟨.of_children (by simp [Node.Fits, Node.fresh, NodeKind.Fits]) h.1 (by simp [Node.fresh]),
    h.2⟩

lemma buildArray_fits (ih : FitSpec fuel) (name : String) (ty : TypeDecl) (size : ArraySize)
    (hm : m.FramesFit c.data) :
    Wp (buildArray (fuel + 1) name ty size) c m (Fitted c.data) := by
  simp only [buildArray]
  split
  · exact ih.buildString name ty size 1 c m hm
  · exact ih.buildString name ty size 2 c m hm
  · rw [wp_bind, wp_cursor]
    rcases size with count | cnd | _ <;> dsimp only <;> rw [wp_bind]
    · refine ((exprKeepsLayout fuel).evalExpr count).wp (.refl m) fun v m₁ h₁ => ?_
      rw [wp_bind, wp_lift]
      intro n _
      rw [wp_bind, wp_checkArrayLength]
      intro _
      rw [wp_bind]
      exact (ih.fixedElements ty 0 n [] c m₁ (hm.of_sameLayout h₁) (by simp)).mono
        fun es m₂ h₂ => wp_arrayNode_fits name ty h₂
    · exact (ih.whileElements ty cnd 0 [] c m hm (by simp)).mono fun es m₂ h₂ =>
        wp_arrayNode_fits name ty h₂
    · exact (ih.unsizedElements ty 0 [] c m hm (by simp)).mono fun es m₂ h₂ =>
        wp_arrayNode_fits name ty h₂

/-! ### Pointers -/

/-- The pointer node over `w` address bytes read at `o`, to a target that fits the data. -/
lemma Node.everywhere_fits_pointer {D : ByteArray} {name tn : String} {o w : Nat} {P : Node}
    {bs : List Nat} (hP : P.Everywhere (Node.Fits D)) (hbs : Data.read D o w = .ok bs)
    (hw : w ≤ 16) (e : Option Endian) :
    ({ Node.fresh name tn o w (.pointer P) with endian := e } : Node).Everywhere (Node.Fits D) :=
  .of_children ⟨Data.le_of_read hbs, hw⟩ (by simp [Node.fresh])
    fun p hp => by cases hp; exact hP

lemma buildPointer_fits (ih : FitSpec fuel) (name : String) (target : TypeDecl)
    (addrType : Builtin) (addrEndian : Option Endian) (attrs : List Attribute)
    (hm : m.FramesFit c.data) :
    Wp (buildPointer (fuel + 1) name target addrType addrEndian attrs) c m (Fitted c.data) := by
  simp only [buildPointer]
  rcases hw : addrType.size? with _ | w
  · simp
  · simp only [wp_pure, wp_cursor, wp_endianFor, wp_readBytes, wp_setCursor, wp_bind]
    intro bs hbs
    have hptr : ∀ b : Built, b.node.Everywhere (Node.Fits c.data) → ∀ e : Option Endian,
        ({ Node.fresh name (target.displayName ++ "*") m.cursor w (.pointer b.node) with
          endian := e } : Node).Everywhere (Node.Fits c.data) :=
      fun _ h => Node.everywhere_fits_pointer h hbs (Builtin.size?_le hw)
    -- the target is built at the address, with the frames as they were
    split
    · simp only [wp_pure, wp_ite, wp_fault, wp_bind, wp_atOffset, wp_newNode, wp_get]
      refine ⟨fun _ => trivial, fun _ => (ih.buildType target name c _ (by exact hm)).mono
        fun b m₄ h₄ _ => ⟨hptr b h₄.node _, h₄.frames⟩⟩
    · rename_i attr _
      rw [wp_bind, wp_withLine]
      refine (wp_pointerBase fuel attr _).mono fun a m₂ h₂ => ?_
      have hm₂ : m₂.FramesFit c.data :=
        Machine.FramesFit.of_sameLayout (m := { m with cursor := m.cursor + w }) hm h₂
      simp only [wp_pure, wp_ite, wp_fault, wp_bind, wp_atOffset, wp_newNode, wp_get]
      refine ⟨fun _ => trivial, fun _ => (ih.buildType target name c _ (by exact hm₂)).mono
        fun b m₄ h₄ _ => ⟨hptr b h₄.node _, h₄.frames⟩⟩

/-! ### Types -/

lemma buildType_fits (ih : FitSpec fuel) (ty : TypeDecl) (name : String)
    (hm : m.FramesFit c.data) :
    Wp (buildType (fuel + 1) ty name) c m fun b m' => Fitted c.data b.node m' := by
  -- the body is built from the frames of `m`, in whichever byte order; the type's
  -- attributes restyle it
  rw [wp_buildType]
  intro _
  refine (ih.buildBody ty name c _ (by exact hm)).mono fun b m₂ h₂ => ?_
  refine (wp_applyAttributes b.node ty.attrs).mono fun r m₃ h => ?_
  obtain ⟨h₃, hr, -⟩ := h
  subst h₃
  exact ⟨hr.fits h₂.node, h₂.frames⟩

lemma buildBody_fits (ih : FitSpec fuel) (ty : TypeDecl) (name : String)
    (hm : m.FramesFit c.data) :
    Wp (buildBody (fuel + 1) ty name) c m fun b m' => Fitted c.data b.node m' := by
  simp only [buildBody]
  rcases hb : ty.body with b | ⟨bases, ms⟩ | ms | ⟨u, es⟩ | es | inner | q
  case builtin =>
    simp only [wp_bind, wp_pure]
    exact wp_buildBuiltin_fits b name _ hm
  case struct =>
    simp only [wp_bind, wp_pure]
    exact ih.buildStruct bases ms name _ c m hm
  case union =>
    simp only [wp_bind, wp_pure]
    exact ih.buildUnion ms name _ c m hm
  case enum =>
    simp only [wp_bind, wp_pure]
    exact ih.buildEnum u es name _ c m hm
  case bitfield =>
    simp only [wp_bind, wp_pure]
    exact ih.buildBitfield es name _ c m hm
  case «alias» =>
    simp only [wp_bind, wp_pure]
    -- the alias shows its own name over its target's node
    exact (ih.buildType inner name c m hm).mono fun b m' h =>
      ⟨(Node.Restyled.present (.refl b.node) rfl rfl rfl rfl :
        b.node.Restyled { b.node with typeName := ty.displayName }).fits h.node, h.frames⟩
  case forward =>
    simp only [wp_bind, wp_read]
    split
    · rename_i d _
      exact ih.buildType d name c m hm
    · simp

/-! ### Compounds -/

lemma buildStruct_fits (ih : FitSpec fuel) (bases : List TypeDecl) (ms : List Stmt)
    (name tn : String) (hm : m.FramesFit c.data) :
    Wp (buildStruct (fuel + 1) bases ms name tn) c m (Fitted c.data) := by
  -- the bases' children and then the members join the struct's own frame
  have hbase : ∀ base ∈ bases, ∀ m', m'.FramesFit c.data → Wp (do
      let inherited ← buildType fuel base ""
      splice inherited.node) c m' fun _ m'' => m''.FramesFit c.data := by
    intro base _ m' hm'
    simp only [wp_bind, wp_splice]
    exact (ih.buildType base "" c m' hm').mono fun b m'' hb =>
      Scope.Holds.extendMembers hb.frames hb.node.child
  simp only [buildStruct, wp_bind, wp_cursor, wp_pushFrame, wp_attempt, wp_popFrame,
    wp_ofExcept_ok, wp_ofExcept_error, wpFail_true, and_true]
  refine (wp_forM bases _ _ hbase _ (by exact Scope.Holds.push hm _ _ _)).mono fun _ m₁ h₁ => ?_
  refine (wp_forM ms _ _ (fun s _ m' hm' => ih.buildMember s c m' hm') m₁ h₁).mono
    fun _ m₂ h₂ => ?_
  simp only [wp_newNode, wp_pure]
  intro _
  obtain ⟨hmem, hrest⟩ := Scope.Holds.pop h₂
  exact ⟨.of_children (by simp [Node.Fits, Node.fresh, NodeKind.Fits]) (by simpa using hmem)
    (by simp [Node.fresh]), hrest⟩

lemma buildUnion_fits (ih : FitSpec fuel) (ms : List Stmt) (name tn : String)
    (hm : m.FramesFit c.data) :
    Wp (buildUnion (fuel + 1) ms name tn) c m (Fitted c.data) := by
  -- every member is built from the start again, into the union's own frame
  have hmember : ∀ s ∈ ms, ∀ (size : Nat) m', m'.FramesFit c.data → Wp (do
      setCursor m.cursor
      buildMember fuel s
      return max size ((← cursor) - m.cursor)) c m' fun _ m'' => m''.FramesFit c.data := by
    intro s _ size m' hm'
    simp only [wp_bind, wp_setCursor, wp_cursor, wp_pure]
    exact ih.buildMember s c _ hm'
  simp only [buildUnion, wp_bind, wp_cursor, wp_pushFrame, wp_attempt, wp_popFrame,
    wp_ofExcept_ok, wp_ofExcept_error, wpFail_true, and_true]
  refine (wp_foldlM ms _ (fun _ m' => m'.FramesFit c.data) hmember 0 _
    (by exact Scope.Holds.push hm _ _ _)).mono fun size m₁ h₁ => ?_
  simp only [wp_setCursor, wp_newNode, wp_pure]
  intro _
  obtain ⟨hmem, hrest⟩ := Scope.Holds.pop h₁
  exact ⟨.of_children (by simp [Node.Fits, Node.fresh, NodeKind.Fits]) (by simpa using hmem)
    (by simp [Node.fresh]), hrest⟩

/-! ### Members -/

/-- Emitting a node that fits keeps the frames fitting. -/
lemma wp_emit_fits {N : Node} (inline : Bool) (attrs : List Attribute) (h : Fitted c.data N m) :
    Wp (emit N inline attrs) c m fun _ m' => m'.FramesFit c.data := by
  refine (wp_emit N inline attrs).mono fun _ m' h' => ?_
  obtain ⟨n', inl, hn', -, rfl⟩ := h'
  exact Scope.Holds.extendMembers h.frames (hn'.emitted_fit h.node _)

/-- A build placed where a placement says returns what the build returns. -/
lemma wp_place_fits {α : Type} (build : Eval α) (node : α → Node) (pl : Placement)
    (hbuild : ∀ m, m.FramesFit c.data → Wp build c m fun a m' => Fitted c.data (node a) m')
    (hm : m.FramesFit c.data) :
    Wp (place (evalExpr fuel) pl build) c m fun a m' => Fitted c.data (node a) m' := by
  cases pl with
  | cursor => exact hbuild m hm
  | atOffset e =>
    simp only [place, wp_bind]
    refine ((exprKeepsLayout fuel).evalExpr e).wp (.refl m) fun v m₁ h₁ => ?_
    simp only [wp_lift, wp_ite, wp_fault, wp_atOffset, wp_bind]
    intro a _
    have hm₁ : m₁.FramesFit c.data := hm.of_sameLayout h₁
    refine ⟨fun _ => trivial, fun _ => (hbuild _ (by exact hm₁)).mono
      fun b m₂ h₂ => ⟨h₂.node, h₂.frames⟩⟩
  | input | output => simp [place]

lemma buildVar_fits (ih : FitSpec fuel) (name : String) (ty : TypeDecl) (pl : Placement)
    (attrs : List Attribute) (hm : m.FramesFit c.data) :
    Wp (buildVar (fuel + 1) name ty pl attrs) c m fun _ m' => m'.FramesFit c.data := by
  cases pl with
  | input =>
    simp only [buildVar]
    exact (declareHost_keepsLayout name ty true).wp (.refl m) fun _ m' h => hm.of_sameLayout h
  | output =>
    simp only [buildVar]
    exact (declareHost_keepsLayout name ty false).wp (.refl m) fun _ m' h => hm.of_sameLayout h
  | cursor | atOffset e =>
    simp only [buildVar, wp_bind]
    exact (wp_place_fits _ Built.node _ (fun m' hm' => ih.buildType ty name c m' hm') hm).mono
      fun b m₁ h₁ => wp_emit_fits _ _ h₁

lemma buildMember_fits (ih : FitSpec fuel) (s : Stmt) (hm : m.FramesFit c.data) :
    Wp (buildMember (fuel + 1) s) c m fun _ m' => m'.FramesFit c.data := by
  -- the step count is not part of the layout
  have h₀ : m.SameLayout { m with steps := m.steps + 1 } := ⟨rfl, rfl, rfl, rfl, rfl⟩
  cases s
  all_goals
    simp only [buildMember, wp_withNode, wp_withLine, wp_bind, wp_tick, wp_fault, implies_true]
  all_goals try intro _
  case var name ty pl attrs sp _ => exact ih.buildVar name ty pl attrs c _ hm
  case multi names ty sp _ =>
    exact wp_forM names _ _ (fun n _ m' hm' => ih.buildVar n ty .cursor [] c m' hm') _ hm
  case array name ty size pl attrs sp _ =>
    exact (wp_place_fits _ id pl (fun m' hm' => ih.buildArray name ty size c m' hm')
      (by exact hm)).mono
      fun N m₁ h₁ => wp_emit_fits false attrs h₁
  case pointer name target addrType addrEndian pl attrs sp _ =>
    exact (wp_place_fits _ id pl (fun m' hm' =>
      ih.buildPointer name target addrType addrEndian attrs c m' hm') (by exact hm)).mono
      fun N m₁ h₁ => wp_emit_fits false attrs h₁
  case padding size sp _ =>
    refine ((exprKeepsLayout fuel).evalExpr size).wp h₀ fun v m₁ h₁ => ?_
    simp only [wp_lift, wp_ite, wp_fault, wp_bind, wp_cursor, wp_checkRange, wp_newNode,
      wp_setCursor, wp_modifyScope, Scope.pushMember_eq]
    intro n _
    refine ⟨fun _ => trivial, fun _ _ _ => Scope.Holds.extendMembers (hm.of_sameLayout h₁) ?_⟩
    -- padding is not read
    simpa using Node.everywhere_fits_fresh (D := c.data) (k := .padding) (by simp) trivial _
  case ifElse cnd t e sp _ =>
    refine ((exprKeepsLayout fuel).evalExpr cnd).wp h₀ fun v m₁ h₁ => ?_
    simp only [truth, wp_lift]
    intro b _
    exact wp_forM _ _ _ (fun s _ m' hm' => ih.buildMember s c m' hm') _ (hm.of_sameLayout h₁)
  case exprStmt e sp _ =>
    exact ((exprKeepsLayout fuel).execExprStmt e).wp h₀ fun _ m' h => hm.of_sameLayout h
  case typeDef | function => exact (wp_pure _).mpr hm

end Steps

/-- Every builder keeps its promise at every fuel: from a state whose frames fit the data,
the frames still fit it after the builder, and the node a builder returns fits it at every
depth.

**Proof sketch.** Induction on the fuel, one lemma per builder. With no fuel left every
builder faults; with fuel, each builder keeps its promise when the builders it calls keep
theirs at one fuel less. The checks that make a leaf fit are the builders' own: the range
checks of builtins, enums and bitfields, the read of a pointer's address, and the range
check of each character of a string. -/
theorem fitSpec (fuel : Nat) : FitSpec fuel := by
  induction fuel with
  | zero =>
    constructor <;> intros <;>
      simp [buildMember, buildVar, buildType, buildBody, buildStruct, buildUnion, buildEnum,
        buildBitfield, buildArray, buildElement, fixedElements, whileElements, unsizedElements,
        buildString, whileChars, unsizedChars, buildPointer]
  | succ fuel ih =>
    exact ⟨fun s _ _ => buildMember_fits ih s,
      fun name ty pl attrs _ _ => buildVar_fits ih name ty pl attrs,
      fun ty name _ _ => buildType_fits ih ty name, fun ty name _ _ => buildBody_fits ih ty name,
      fun bases ms name tn _ _ => buildStruct_fits ih bases ms name tn,
      fun ms name tn _ _ => buildUnion_fits ih ms name tn,
      fun u es name tn _ _ => buildEnum_fits u es name tn,
      fun es name tn _ _ => buildBitfield_fits es name tn,
      fun name ty size _ _ => buildArray_fits ih name ty size,
      fun ty i _ _ => buildElement_fits ih ty i,
      fun ty i n acc _ _ => fixedElements_fits ih ty i n acc,
      fun ty cnd count acc _ _ => whileElements_fits ih ty cnd count acc,
      fun ty count acc _ _ => unsizedElements_fits ih ty count acc,
      fun name ty size unit _ _ => buildString_fits ih name ty size unit,
      fun cnd start unit _ _ => whileChars_fits ih cnd start unit,
      fun unit _ _ => unsizedChars_fits ih unit,
      fun name target addrType addrEndian attrs _ _ =>
        buildPointer_fits ih name target addrType addrEndian attrs⟩

/-! ### The forest of a run -/

/-- The nodes a program's build returns fit the data, at every depth. -/
lemma wp_buildProgram_fits (fuel : Nat) (p : Program) (c : Context)
    (inputs : List (String × Value)) :
    Wp (buildProgram fuel p) c (Machine.initial inputs) fun ns _ =>
      ∀ N ∈ ns, N.Everywhere (Node.Fits c.data) := by
  unfold buildProgram
  simp only [wp_bind, wp_get, wp_pure]
  refine (wp_forM p.stmts _ _ (fun s _ m hm => (fitSpec fuel).buildMember s c m hm) _
    (by exact Scope.holds_initial)).mono fun _ m' h N hN => ?_
  exact Scope.Holds.current h N (List.mem_reverse.mp hN)

/-- Every node of the forest of a successful run, at every depth through children and
pointees, is read from the data without a fault, whatever the default byte order, with two
exceptions: padding, which has no value, and a string with no characters placed past the
end of the data, whose zero bytes are read out of bounds.

**Proof sketch.** Every node the builders make fits the data (`fitSpec`), since its builder
checked the bytes it reads; a node that fits is read, except an empty string past the end
(`Node.readValue_of_fits`). -/
theorem runProgram_nodes_read {p : Program} {data : ByteArray} {config : RunConfig}
    {inputs : List (String × Value)} {ev : Evaluation}
    (h : runProgram p data config inputs = .ok ev) {N N' : Node} (hN : N ∈ ev.patterns)
    (hr : N.Reaches N') (e : Endian) :
    (∃ v, N'.readValue data e = .ok v) ∨
      N'.kind = .padding ∧ N'.readValue data e = .error .paddingValue ∨
      (N'.kind = .string ∨ N'.kind = .string16) ∧ N'.size = 0 ∧ data.size < N'.offset ∧
        N'.readValue data e = .error (.outOfBounds N'.offset 0 data.size) := by
  have hfit : N'.Fits data :=
    (patterns_of_runProgram (wp_buildProgram_fits Eval.fuel p _ inputs) h N hN).of_reaches hr
  by_cases hp : N'.kind = .padding
  · exact .inr (.inl ⟨hp, by simp [Node.readValue, hp]; rfl⟩)
  · exact (Node.readValue_of_fits hfit hp e).imp_right .inr

/-- The node of `u8 x @ 0;` over one byte is read. -/
theorem runProgram_nodes_read_byte :
    ∃ p, parseTokens tokensByte = .ok p ∧
      ∃ ev, runProgram p (ByteArray.mk #[7]) RunConfig.standard [] = .ok ev ∧
        ∃ N ∈ ev.patterns, ∀ e, (∃ v, N.readValue (ByteArray.mk #[7]) e = .ok v) ∨
          N.kind = .padding ∧ N.readValue (ByteArray.mk #[7]) e = .error .paddingValue ∨
          (N.kind = .string ∨ N.kind = .string16) ∧ N.size = 0 ∧ 1 < N.offset ∧
            N.readValue (ByteArray.mk #[7]) e = .error (.outOfBounds N.offset 0 1) :=
  have hp := Except.eq_ok_get (by decide +kernel)
  have h := Except.eq_ok_get (by decide +kernel)
  have hne := List.ne_nil_of_length_pos (by decide +kernel)
  ⟨_, hp, _, h, _, List.head_mem hne,
    fun e => runProgram_nodes_read h (List.head_mem hne) (.refl _) e⟩

/-- `char s[] @ 100;` -/
def tokensEmptyStringFar : Array Token := #[
  tokenAt (.builtin .char) 0 4, tokenAt (.ident "s") 5 6, tokenAt (.symbol "[") 6 7,
  tokenAt (.symbol "]") 7 8, tokenAt (.symbol "@") 9 10, tokenAt (.int 100) 11 14,
  tokenAt (.symbol ";") 14 15, tokenAt .eof 15 15]

/-- Kinds carry nodes and have no decidable equality, but their constructor indices do: a
kind with the index of a kind that carries nothing is that kind. -/
lemma NodeKind.eq_of_ctorIdx {k k' : NodeKind} (h : k.ctorIdx = k'.ctorIdx)
    (he : ∀ t, k' ≠ .enum t) (hb : ∀ o w, k' ≠ .bitfieldField o w) (hp : ∀ n, k' ≠ .pointer n) :
    k = k' := by
  cases k' <;> cases k <;> simp_all [NodeKind.ctorIdx]

lemma NodeKind.eq_string_of_ctorIdx {k : NodeKind} (h : k.ctorIdx = NodeKind.string.ctorIdx) :
    k = .string :=
  NodeKind.eq_of_ctorIdx h (by simp) (by simp) (by simp)

/-- A string with no characters placed past the end of the data is made, since its builder
checks only the characters it reads; reading it is out of bounds in either byte order. -/
theorem emptyString_past_end_unread :
    ∃ p, parseTokens tokensEmptyStringFar = .ok p ∧
      ∃ ev, runProgram p (ByteArray.mk #[0, 0]) RunConfig.standard [] = .ok ev ∧
        ∃ N ∈ ev.patterns, N.kind = .string ∧ N.offset = 100 ∧ N.size = 0 ∧
          ∀ e, N.readValue (ByteArray.mk #[0, 0]) e = .error (.outOfBounds 100 0 2) := by
  refine ⟨_, Except.eq_ok_get (by decide +kernel), _, Except.eq_ok_get (by decide +kernel),
    _, List.head_mem (List.ne_nil_of_length_pos (by decide +kernel)), ?_⟩
  -- the kind, offset and size of the node are computed; its reading follows from them
  suffices ∀ N : Node, N.kind = .string → N.offset = 100 → N.size = 0 →
      N.kind = .string ∧ N.offset = 100 ∧ N.size = 0 ∧
        ∀ e, N.readValue (ByteArray.mk #[0, 0]) e = .error (.outOfBounds 100 0 2) from
    this _ (NodeKind.eq_string_of_ctorIdx (by decide +kernel)) (by decide +kernel)
      (by decide +kernel)
  intro N hk ho hs
  refine ⟨hk, ho, hs, fun e => ?_⟩
  rw [Node.readValue_emptyString (.inl hk) hs (by rw [ho]; decide) e, ho]
  rfl

end ByteLayout

import ByteLayout.Eval.Run
import ByteLayout.Proofs.Eval.Footprint
import ByteLayout.Proofs.Layout.Region
import ByteLayout.Proofs.Layout.Splice

/-!
# What the builders lay out

The declarative pass builds nodes at the cursor. This file states, for every builder of the
evaluator, what a successful run lays out, and proves it for every fuel by one induction
over the mutual recursion of the builders.

A builder of a node (`buildType`, `buildBody`, `buildStruct`, …, `buildPointer`) returns a
node that starts at the cursor, leaves the cursor right after it and leaves the frames and
the inherited byte order as they were (`Laid`). A builder of members (`buildMember`,
`buildVar`) appends nodes to the innermost frame and moves the cursor forward (`Appended`).
These hold for every program and state.

For a program whose members are at the cursor, which every parsed program is, more holds
of the nodes the program builds (`Node.Sound`): every child lies inside its parent, at every
depth, and when every splice of the program is anchoring, every node with children has one
at its start. Members at the cursor lie between the cursors before and after them; a struct
whose splices are all structs has children that cover it end to end, and so does every
array.

## Main definitions

* `Laid`, `Appended` — what a builder of a node, and a builder of members, promises.
* `Node.Sound` — containment everywhere, and anchoring everywhere for anchoring programs.
* `TypeBuilt`, `StructBuilt`, `UnionBuilt`, … — the promise of each builder.
* `BuildSpec` — every builder's promise at one fuel.

## Main results

* `buildSpec` — the promises hold at every fuel.
* `runProgram_sound` — every node of the forest of a run is sound.
-/

namespace ByteLayout

/-! ### Frames -/

namespace Scope

@[simp] lemma extendMembers_nil (s : Scope) : s.extendMembers [] = s := by
  rcases s with ⟨_ | ⟨f, fs⟩, g⟩ <;> rfl

lemma extendMembers_append (s : Scope) (a b : List Node) :
    (s.extendMembers a).extendMembers b = s.extendMembers (a ++ b) := by
  rcases s with ⟨_ | ⟨f, fs⟩, g⟩ <;> simp [extendMembers, modifyCurrent]

lemma pushMember_eq (s : Scope) (n : Node) : s.pushMember n = s.extendMembers [n] := by
  rcases s with ⟨_ | ⟨f, fs⟩, g⟩ <;> rfl

lemma layout_extendMembers {s s' : Scope} (h : s'.layout = s.layout) (ns : List Node) :
    (s'.extendMembers ns).layout = (s.extendMembers ns).layout := by
  rcases s with ⟨_ | ⟨f, fs⟩, g⟩ <;> rcases s' with ⟨_ | ⟨f', fs'⟩, g'⟩ <;>
    simp_all [layout, extendMembers, modifyCurrent, Frame.layout]

/-- Closing a frame opened on `s` and extended by `ns` gives back `ns` and the layout of `s`. -/
lemma pop_of_layout {s s' : Scope} {k : FrameKind} {st : Nat} {tn : String} {ns : List Node}
    (h : s'.layout = ((s.push k st tn).extendMembers ns).layout) :
    s'.pop.1.members = ns.reverse ∧ s'.pop.2.layout = s.layout := by
  rcases s' with ⟨_ | ⟨f, fs⟩, g⟩
  · simp [layout, push, extendMembers, modifyCurrent] at h
  · simp only [layout, push, extendMembers, modifyCurrent, List.map_cons, Prod.mk.injEq,
      List.cons.injEq, Frame.layout, Frame.empty, List.append_nil] at h
    simp [pop, layout, h.1.1.2.1, h.1.2, h.2]

/-- At the top level the innermost frame is the global one, holding what was appended. -/
lemma current_members_of_layout {s : Scope} {ns : List Node}
    (h : s.layout = (Scope.initial.extendMembers ns).layout) : s.current.members = ns.reverse := by
  rcases s with ⟨_ | ⟨f, fs⟩, g⟩
  · simp_all [layout, initial, extendMembers, modifyCurrent, current, Frame.empty]
  · simp [layout, initial, extendMembers, modifyCurrent] at h

end Scope

namespace Eval

variable {c : Context} {m : Machine}

/-! ### Attributes -/

/-- A role function is the function of that name, and looking it up changes nothing. -/
lemma wp_roleFunction_found (name role : String) {P : FunctionDef → Machine → Prop}
    (h : ∀ f, c.function? name = some f → P f m) : Wp (roleFunction name role) c m P := by
  unfold roleFunction
  simp only [wp_bind, wp_read]
  split
  · simp
  · rename_i f hf
    split <;> simp [h f hf]

lemma wp_roleFunction (name role : String) {P : FunctionDef → Machine → Prop}
    (h : ∀ f, P f m) : Wp (roleFunction name role) c m P :=
  wp_roleFunction_found name role fun f _ => h f

instance stateFree_roleFunction (name role : String) : StateFree (roleFunction name role) := by
  unfold roleFunction
  refine StateFree.bind _ fun _ => ?_
  split <;> infer_instance

instance stateFree_applyAttribute (node : Node) (attr : Attribute) :
    StateFree (applyAttribute node attr) := by
  simp only [applyAttribute]
  split
  · infer_instance
  · -- the value, present exactly when the attribute takes one, then the effect its name
    -- picks; `pointer_base` looks at the node's kind too
    split <;> refine StateFree.bind _ fun value => ?_ <;> split <;>
      first | infer_instance | (split <;> infer_instance)

/-- Attributes change no state however they end: each one puts the cursor back. -/
instance stateFree_applyAttributes (node : Node) (attrs : List Attribute) :
    StateFree (applyAttributes node attrs) := ⟨fun c m => by
  unfold applyAttributes
  simp only [wpAll_bind, wpAll_cursor]
  refine wpAll_foldlM attrs _ (fun _ m' => m' = m) _ (fun attr _ r m' h => ?_) _ m rfl
  subst h
  simp only [wpAll_bind, wpAll_withLine]
  refine (StateFree.same (x := applyAttribute r.1 attr) c m').mono (fun r' m'' h => ?_)
    fun _ _ h => h
  subst h
  simp only [wpAll_setCursor, wpAll_pure]⟩

/-- One attribute restyles the node and changes nothing else; only `inline` asks for
inlining, and only of a compound. -/
lemma wp_applyAttribute (node : Node) (attr : Attribute) :
    Wp (applyAttribute node attr) c m fun r m' =>
      m' = m ∧ node.Restyled r.1 ∧ (r.2 = true → attr.name = "inline" ∧ r.1.isCompound) := by
  unfold applyAttribute
  split
  · simp [Node.Restyled.refl]
  · rename_i tv _
    rcases hv : attr.value with _ | v <;> cases tv <;> simp only [wp_fault, wp_bind, wp_pure]
    -- what the attribute does, by its name
    all_goals
      split <;> (try simp only [wp_bind, wp_lift, wp_pure, wp_ite, wp_fault, true_and])
      case h_1 => exact fun col _ => ⟨.color col (.refl node), by simp⟩
      case h_2 | h_3 | h_4 => exact ⟨.present (.refl node) rfl rfl rfl rfl, by simp⟩
      case h_5 =>
        rename_i hname
        exact ⟨fun h => ⟨.refl node, fun _ => ⟨hname, h⟩⟩, fun _ => trivial⟩
      case h_6 | h_7 =>
        exact wp_roleFunction _ _ fun _ => ⟨rfl, .present (.refl node) rfl rfl rfl rfl, by simp⟩
      case h_8 =>
        split
        · simp only [wp_bind, wp_pure]
          exact wp_roleFunction _ _ fun _ => ⟨rfl, .refl node, by simp⟩
        · simp
      case h_9 => exact ⟨.refl node, by simp⟩

/-- Attributes restyle the node and change nothing else; inlining is asked for only by an
`inline` attribute, and only of a compound. -/
lemma wp_applyAttributes (node : Node) (attrs : List Attribute) :
    Wp (applyAttributes node attrs) c m fun r m' =>
      m' = m ∧ node.Restyled r.1 ∧ (r.2 = true → Attribute.Inline attrs ∧ r.1.isCompound) := by
  unfold applyAttributes
  simp only [wp_bind, wp_cursor]
  refine wp_foldlM attrs _ (fun (r : Node × Bool) m' => m' = m ∧ node.Restyled r.1 ∧
    (r.2 = true → Attribute.Inline attrs ∧ r.1.isCompound)) ?_ _ m ⟨rfl, .refl node, by simp⟩
  rintro attr hattr ⟨n, i⟩ _ ⟨rfl, hn, hi⟩
  simp only [wp_bind, wp_withLine]
  refine (wp_applyAttribute n attr).mono fun r m₁ hr => ?_
  obtain ⟨n', j⟩ := r
  obtain ⟨h₁, hn', hj⟩ := hr
  subst h₁
  simp only [wp_setCursor, wp_pure]
  refine ⟨trivial, hn.trans hn', fun h => ?_⟩
  rcases Bool.or_eq_true_iff.mp h with h | h
  · obtain ⟨hin, hc⟩ := hi h
    exact ⟨hin, hn'.isCompound_eq ▸ hc⟩
  · obtain ⟨hname, hc⟩ := hj h
    exact ⟨⟨attr, hattr, hname⟩, hc⟩

/-- Emitting adds the restyled node to the innermost frame, or, when it is inlined, its
children, and records the node as dropped. -/
lemma wp_emit (node : Node) (inline : Bool) (attrs : List Attribute) :
    Wp (emit node inline attrs) c m fun _ m' => ∃ n' inl, node.Restyled n' ∧
      (inl = true → Attribute.Inline attrs ∧ n'.isCompound) ∧
      m' = { m with
        scope := m.scope.extendMembers (if (inl || inline) = true then n'.children else [n'])
        spliced := if (inl || inline) = true then m.spliced + 1 else m.spliced } := by
  unfold emit
  simp only [wp_bind]
  refine (wp_applyAttributes node attrs).mono fun r m₁ hr => ?_
  obtain ⟨n', inl⟩ := r
  obtain ⟨h₁, hn', hinl⟩ := hr
  subst h₁
  simp only [wp_ite, wp_splice, wp_modifyScope, Scope.pushMember_eq]
  exact ⟨fun h => ⟨n', inl, hn', hinl, by simp [h]⟩, fun h => ⟨n', inl, hn', hinl, by simp [h]⟩⟩

/-- A host variable lives in the global frame's variables, not in its nodes. -/
lemma declareHost_keepsLayout (name : String) (ty : TypeDecl) (input : Bool) :
    KeepsLayout (declareHost name ty input) := by
  intro c m
  unfold declareHost
  simp only
  split
  · simp
  · simp
  · cases input
    · simp [Machine.SameLayout.iff, Scope.layout, Frame.define]
    -- a supplied value is cast to the variable's type, which may fail
    · simp only [wp_bind, wp_get, wp_pure, ite_true]
      split <;> simp [Machine.SameLayout.iff, Scope.layout, Frame.define]

end Eval

open Eval

/-! ### What each builder promises -/

/-- A run from `m` to `m'` that built `N`: the node starts at the cursor, the cursor ends
right after it, and the frames and the inherited byte order are as before. -/
structure Laid (m : Machine) (N : Node) (m' : Machine) : Prop where
  offset : N.offset = m.cursor
  cursor : m'.cursor = m.cursor + N.size
  scope : m'.scope.layout = m.scope.layout
  endian : m'.endian = m.endian

/-- What holds at every node below a node built by a program whose members are at the
cursor: children lie inside their parent, and when every splice of the program is
anchoring, a node with children has one at its start. -/
structure Node.Sound (p : Program) (N : Node) : Prop where
  contained : N.Everywhere Node.ChildrenWithin
  starts : p.SplicesAnchoring → N.Everywhere Node.StartsAtChild

/-- The program's members are at the cursor, and it builds the types `uses`. -/
def Program.Ready (p : Program) (uses : TypeDecl → Prop) : Prop :=
  p.MembersAtCursor ∧ ∀ d, uses d → p.Builds d

/-- What building members does from `m` to `m'`: it appends `ns` to the innermost frame and
moves the cursor forward, keeping the byte order. For a program ready for the types the
members use, the nodes are sound; and members at the cursor (`here`) lie between the two
cursors, tile them when everything they splice is struct-closed, and anchor them when
everything they splice is anchoring. -/
structure Appended (c : Context) (uses : TypeDecl → Prop) (here : Prop)
    (splices : TypeDecl → Prop) (m : Machine) (ns : List Node) (m' : Machine) : Prop where
  scope : m'.scope.layout = (m.scope.extendMembers ns).layout
  cursor : m.cursor ≤ m'.cursor
  endian : m'.endian = m.endian
  sound : c.program.Ready uses → ∀ n ∈ ns, n.Sound c.program
  within : c.program.Ready uses → here → ∀ n ∈ ns, n.Within m.cursor m'.cursor
  tiles : c.program.Ready uses → here → (∀ T, splices T → T.StructClosed c.program) →
    Node.Tiles ns m.cursor m'.cursor
  anchors : c.program.Ready uses → here → c.program.SplicesAnchoring →
    (∀ T, splices T → ∀ b, T.Resolves c.program b → b.anchoring) →
    Node.Anchors ns m.cursor m'.cursor

/-- What a run of `buildType` or `buildBody` for `ty` promises of the node it returns. -/
structure TypeBuilt (c : Context) (ty : TypeDecl) (m : Machine) (b : Built) (m' : Machine) :
    Prop extends Laid m b.node m' where
  inline : b.inline = true → ty.Inlined c.program ∧ b.node.isCompound
  sound : c.program.Ready (· = ty) → b.node.Sound c.program
  tiled : c.program.Ready (· = ty) → ty.StructClosed c.program → b.node.Tiled
  anchored : c.program.Ready (· = ty) → c.program.SplicesAnchoring →
    (∀ bd, ty.Resolves c.program bd → bd.anchoring) → b.node.Anchored

/-- What holds of a compound whose members were at the cursor, given what was spliced into
it: its children lie inside it, everywhere below too; and when everything spliced into it
is anchoring, it is anchored and so is every node with children below it. -/
structure CompoundDeep (p : Program) (splices : TypeDecl → Prop) (N : Node) : Prop where
  contained : N.Everywhere Node.ChildrenWithin
  anchored : p.SplicesAnchoring → (∀ T, splices T → ∀ b, T.Resolves p b → b.anchoring) →
    N.Anchored ∧ N.Everywhere Node.StartsAtChild

/-- What a run of `buildStruct` for `bases` and `members` promises. -/
structure StructBuilt (c : Context) (bases : List TypeDecl) (members : List Stmt) (m : Machine)
    (N : Node) (m' : Machine) : Prop extends Laid m N m' where
  kind : N.kind = .struct
  deep : c.program.Ready (fun d => d ∈ bases ∨ ∃ s ∈ members, s.Uses d) →
    (∀ s ∈ members, s.AtCursor) →
    CompoundDeep c.program (fun T => T ∈ bases ∨ ∃ s ∈ members, s.Splices c.program T) N
  tiled : c.program.Ready (fun d => d ∈ bases ∨ ∃ s ∈ members, s.Uses d) →
    (∀ s ∈ members, s.AtCursor) →
    (∀ T, (T ∈ bases ∨ ∃ s ∈ members, s.Splices c.program T) → T.StructClosed c.program) →
    N.Tiled

/-- What a run of `buildUnion` for `members` promises. -/
structure UnionBuilt (c : Context) (members : List Stmt) (m : Machine) (N : Node)
    (m' : Machine) : Prop extends Laid m N m' where
  kind : N.kind = .union
  deep : c.program.Ready (fun d => ∃ s ∈ members, s.Uses d) → (∀ s ∈ members, s.AtCursor) →
    CompoundDeep c.program (fun T => ∃ s ∈ members, s.Splices c.program T) N

/-- What a run of `buildBitfield` promises: fields at the bitfield's offset and as large as
it, and one at least when some entry is not padding. -/
structure BitfieldBuilt (entries : List BitfieldEntry) (m : Machine) (N : Node) (m' : Machine) :
    Prop extends Laid m N m' where
  kind : N.kind = .bitfield
  within : N.ChildrenWithin
  atStart : ∀ f ∈ N.children, f.offset = N.offset
  fields : ∀ f ∈ N.children, f.Leaf
  anchored : (∃ e ∈ entries, e.padding = false) → N.Anchored

/-- What a run of a builder of a node made of types `uses` promises. -/
structure NodeBuilt (c : Context) (uses : TypeDecl → Prop) (m : Machine) (N : Node)
    (m' : Machine) : Prop extends Laid m N m' where
  sound : c.program.Ready uses → N.Sound c.program

/-- What a run of `buildArray` for elements of type `ty` promises: an array's elements cover
it end to end, and a string has no children. -/
structure ArrayBuilt (c : Context) (ty : TypeDecl) (m : Machine) (N : Node) (m' : Machine) :
    Prop extends NodeBuilt c (· = ty) m N m' where
  tiled : N.kind = .array → N.Tiled
  compound : N.isCompound = true → N.kind = .array

/-- What a run of an element loop promises, started at `m` with the earlier elements `acc`
(most recent first): the result is those elements followed by new ones, which cover the
cursor's advance end to end. -/
def ElementsBuilt (c : Context) (ty : TypeDecl) (m : Machine) (acc r : List Node)
    (m' : Machine) : Prop :=
  ∃ es, r = acc.reverse ++ es ∧ Node.Tiles es m.cursor m'.cursor ∧
    m'.scope.layout = m.scope.layout ∧ m'.endian = m.endian ∧
    (c.program.Ready (· = ty) → ∀ e ∈ es, e.Sound c.program)

/-- What a run of a character loop promises: the cursor moves forward, and the frames and
byte order stay. -/
structure CharsRun (m m' : Machine) : Prop where
  cursor : m.cursor ≤ m'.cursor
  scope : m'.scope.layout = m.scope.layout
  endian : m'.endian = m.endian

/-- What a run of `buildPointer` promises: a node over the address bytes, with the target
built at the address those bytes hold (plus the result of a `pointer_base` function, if
one is named). -/
structure PointerBuilt (c : Context) (target : TypeDecl) (addrType : Builtin)
    (addrEndian : Option Endian) (attrs : List Attribute) (m : Machine) (N : Node)
    (m' : Machine) : Prop extends NodeBuilt c (· = target) m N m' where
  children : N.children = []
  pointee : ∃ P bytes, N.kind = .pointer P ∧ addrType.size? = some N.size ∧
    Data.read c.data m.cursor N.size = .ok bytes ∧
    (attrs.find? (·.name == "pointer_base") = none →
      P.offset = Word.ofBytes ((addrEndian <|> m.endian).getD c.config.defaultEndian) bytes)

/-! ### Composing promises -/

lemma Program.Ready.mono {p : Program} {uses uses' : TypeDecl → Prop} (h : p.Ready uses')
    (hu : ∀ d, uses d → uses' d) : p.Ready uses :=
  ⟨h.1, fun d hd => h.2 d (hu d hd)⟩

namespace Laid

variable {m m₁ m' : Machine} {N : Node}

lemma iff : Laid m N m' ↔ N.offset = m.cursor ∧ m'.cursor = m.cursor + N.size ∧
    m'.scope.layout = m.scope.layout ∧ m'.endian = m.endian :=
  ⟨fun h => ⟨h.offset, h.cursor, h.scope, h.endian⟩, fun h => ⟨h.1, h.2.1, h.2.2.1, h.2.2.2⟩⟩

lemma of_sameLayout (h₀ : m.SameLayout m₁) (h : Laid m₁ N m') : Laid m N m' :=
  ⟨h.offset.trans h₀.cursor, by rw [h.cursor, h₀.cursor], h.scope.trans h₀.scope,
    h.endian.trans h₀.endian⟩

lemma within (h : Laid m N m') : N.Within m.cursor m'.cursor :=
  ⟨Nat.le_of_eq h.offset.symm, Nat.le_of_eq (by rw [h.offset, h.cursor])⟩

lemma le (h : Laid m N m') : m.cursor ≤ m'.cursor := by
  rw [h.cursor]; exact Nat.le_add_right _ _

/-- Restyling, renaming included, keeps what was laid. -/
lemma restyled {N' : Node} (h : Laid m N m') (hr : N.Restyled N') : Laid m N' m' :=
  ⟨hr.offset_eq.trans h.offset, by rw [hr.size_eq]; exact h.cursor, h.scope, h.endian⟩

end Laid

namespace Node.Sound

variable {p : Program} {N N' : Node}

lemma of_leaf (h : N.Leaf) : N.Sound p :=
  ⟨h.everywhere h.childrenWithin, fun _ => h.everywhere h.startsAtChild⟩

lemma restyled (h : N.Sound p) (hr : N.Restyled N') : N'.Sound p :=
  ⟨hr.contained h.contained, fun ha => hr.startsAtChild (h.starts ha)⟩

lemma child (h : N.Sound p) {ch : Node} (hc : ch ∈ N.children) : ch.Sound p :=
  ⟨h.contained.child ch hc, fun ha => (h.starts ha).child ch hc⟩

/-- What emitting a sound node appends is sound: the node, or its children. -/
lemma emitted (h : N.Sound p) (hr : N.Restyled N') (spliced : Bool) :
    ∀ n ∈ (if spliced then N'.children else [N']), n.Sound p := by
  intro n hn
  cases spliced
  · simp only [Bool.false_eq_true, ↓reduceIte, List.mem_singleton] at hn
    subst hn
    exact h.restyled hr
  · exact (h.restyled hr).child (by simpa using hn)

end Node.Sound

namespace Appended

variable {c : Context} {uses : TypeDecl → Prop} {here : Prop} {splices : TypeDecl → Prop}
  {m m₁ m₂ m' : Machine} {ns ns' : List Node}

lemma nil (m : Machine) : Appended c uses here splices m [] m :=
  ⟨by simp, Nat.le_refl _, rfl, by simp, by simp, fun _ _ _ => rfl,
    fun _ _ _ _ => .inl ⟨rfl, rfl⟩⟩

/-- Nothing appended and the layout kept. -/
lemma of_keep (h : m.SameLayout m') : Appended c uses here splices m [] m' :=
  ⟨by simpa using h.scope, Nat.le_of_eq h.cursor.symm, h.endian, by simp, by simp,
    fun _ _ _ => by simp [h.cursor], fun _ _ _ _ => .inl ⟨rfl, h.cursor.symm⟩⟩

lemma trans (h₁ : Appended c uses here splices m ns m₁)
    (h₂ : Appended c uses here splices m₁ ns' m₂) :
    Appended c uses here splices m (ns ++ ns') m₂ where
  scope := by rw [h₂.scope, Scope.layout_extendMembers h₁.scope, Scope.extendMembers_append]
  cursor := Nat.le_trans h₁.cursor h₂.cursor
  endian := h₂.endian.trans h₁.endian
  sound hr n hn := (List.mem_append.mp hn).elim (h₁.sound hr n) (h₂.sound hr n)
  within hr hh n hn := (List.mem_append.mp hn).elim
    (fun hn => (h₁.within hr hh n hn).mono (Nat.le_refl _) h₂.cursor)
    (fun hn => (h₂.within hr hh n hn).mono h₁.cursor (Nat.le_refl _))
  tiles hr hh hs := Node.tiles_append (h₁.tiles hr hh hs) (h₂.tiles hr hh hs)
  anchors hr hh ha hs := Node.anchors_append (h₁.anchors hr hh ha hs) (h₂.anchors hr hh ha hs)

lemma mono (h : Appended c uses here splices m ns m') {uses' : TypeDecl → Prop} {here' : Prop}
    {splices' : TypeDecl → Prop} (hu : ∀ d, uses d → uses' d) (hh : here' → here)
    (hs : ∀ T, splices T → splices' T) : Appended c uses' here' splices' m ns m' where
  scope := h.scope
  cursor := h.cursor
  endian := h.endian
  sound hr := h.sound (hr.mono hu)
  within hr hh' := h.within (hr.mono hu) (hh hh')
  tiles hr hh' hc := h.tiles (hr.mono hu) (hh hh') fun T hT => hc T (hs T hT)
  anchors hr hh' ha hc := h.anchors (hr.mono hu) (hh hh') ha fun T hT => hc T (hs T hT)

lemma of_sameLayout (h₀ : m.SameLayout m₁) (h : Appended c uses here splices m₁ ns m') :
    Appended c uses here splices m ns m' where
  scope := h.scope.trans (Scope.layout_extendMembers h₀.scope ns)
  cursor := h₀.cursor ▸ h.cursor
  endian := h.endian.trans h₀.endian
  sound := h.sound
  within hr hh := h₀.cursor ▸ h.within hr hh
  tiles hr hh hs := h₀.cursor ▸ h.tiles hr hh hs
  anchors hr hh ha hs := h₀.cursor ▸ h.anchors hr hh ha hs

/-- Emitting a node laid at the cursor appends it, or its children when it is spliced,
whatever the run records of the nodes it dropped. -/
lemma emit (spliced : Bool) {N N' : Node} {k : Nat} (hN : Laid m N m₁) (hN' : N.Restyled N')
    (hsound : c.program.Ready uses → N.Sound c.program)
    (htiled : c.program.Ready uses → here → spliced = true →
      (∀ T, splices T → T.StructClosed c.program) → N.Tiled)
    (hanch : c.program.Ready uses → here → c.program.SplicesAnchoring → spliced = true →
      (∀ T, splices T → ∀ b, T.Resolves c.program b → b.anchoring) → N.Anchored) :
    Appended c uses here splices m (if spliced then N'.children else [N'])
      { m₁ with
        scope := m₁.scope.extendMembers (if spliced then N'.children else [N'])
        spliced := k } := by
  have hL := hN.restyled hN'
  have hsc : ∀ ns, ({ m₁ with scope := m₁.scope.extendMembers ns } : Machine).scope.layout =
      (m.scope.extendMembers ns).layout := fun ns => Scope.layout_extendMembers hL.scope ns
  cases spliced with
  | false =>
    refine ⟨hsc _, hL.le, hL.endian, fun hr n hn => ?_, fun _ _ n hn => ?_,
      fun _ _ _ => ?_, fun _ _ _ _ => ?_⟩
    · simp only [Bool.false_eq_true, ↓reduceIte, List.mem_singleton] at hn
      subst hn; exact (hsound hr).restyled hN'
    · simp only [Bool.false_eq_true, ↓reduceIte, List.mem_singleton] at hn
      subst hn; exact hL.within
    · simpa [hL.offset] using hL.cursor.symm
    · exact .inr ⟨N', by simp, hL.offset⟩
  | true =>
    refine ⟨hsc _, hL.le, hL.endian, fun hr n hn => ?_, fun hr _ n hn => ?_,
      fun hr hh hs => ?_, fun hr hh ha hs => ?_⟩
    · exact ((hsound hr).restyled hN').child (by simpa using hn)
    -- the children lie where the node lay
    · have := ((hsound hr).restyled hN').contained.here n (by simpa using hn)
      rw [hL.offset] at this
      simpa [hL.cursor] using this
    · have := hN'.tiled (htiled hr hh rfl hs)
      unfold Node.Tiled at this
      rw [hL.offset] at this
      simpa [hL.cursor] using this
    · have := hN'.anchored (hanch hr hh ha rfl hs)
      unfold Node.Anchored at this
      rw [hL.offset] at this
      simpa [hL.cursor] using this

/-- Nodes placed away from the cursor, which stays: nothing about the range. -/
lemma away {k : Nat} (hsc : m₁.scope.layout = m.scope.layout) (hcur : m₁.cursor = m.cursor)
    (hen : m₁.endian = m.endian) (hns : c.program.Ready uses → ∀ n ∈ ns, n.Sound c.program)
    (hhere : ¬here) :
    Appended c uses here splices m ns
      { m₁ with scope := m₁.scope.extendMembers ns, spliced := k } :=
  ⟨Scope.layout_extendMembers hsc ns, Nat.le_of_eq hcur.symm, hen, hns,
    fun _ hh => absurd hh hhere, fun _ hh => absurd hh hhere, fun _ hh => absurd hh hhere⟩

end Appended

/-- What building the members of a union does from `m` to `m'`: every member starts at
`start`, the largest `size` bytes long, and their nodes `ns` are appended to the frame. -/
structure Overlaid (c : Context) (uses : TypeDecl → Prop) (here : Prop)
    (splices : TypeDecl → Prop) (m : Machine) (start size : Nat) (ns : List Node)
    (m' : Machine) : Prop where
  scope : m'.scope.layout = (m.scope.extendMembers ns).layout
  endian : m'.endian = m.endian
  sound : c.program.Ready uses → ∀ n ∈ ns, n.Sound c.program
  within : c.program.Ready uses → here → ∀ n ∈ ns, n.Within start (start + size)
  anchors : c.program.Ready uses → here → c.program.SplicesAnchoring →
    (∀ T, splices T → ∀ b, T.Resolves c.program b → b.anchoring) →
    Node.Anchors ns start (start + size)

namespace Overlaid

variable {c : Context} {uses : TypeDecl → Prop} {here : Prop} {splices : TypeDecl → Prop}
  {m m₁ m₂ : Machine} {start size : Nat} {ns ns' : List Node}

lemma nil (m : Machine) (start : Nat) : Overlaid c uses here splices m start 0 [] m :=
  ⟨by simp, rfl, by simp, by simp, fun _ _ _ _ => .inl ⟨rfl, rfl⟩⟩

/-- One more member, built from `start` again. -/
lemma step (h : Overlaid c uses here splices m start size ns m₁)
    (h' : Appended c uses here splices { m₁ with cursor := start } ns' m₂) :
    Overlaid c uses here splices m start (max size (m₂.cursor - start)) (ns ++ ns') m₂ where
  scope := by rw [h'.scope, Scope.layout_extendMembers h.scope, Scope.extendMembers_append]
  endian := h'.endian.trans h.endian
  sound hr n hn := (List.mem_append.mp hn).elim (h.sound hr n) (h'.sound hr n)
  within hr hh n hn := (List.mem_append.mp hn).elim
    (fun hn => (h.within hr hh n hn).mono (Nat.le_refl _) (by omega))
    (fun hn => (h'.within hr hh n hn).mono (Nat.le_refl _) (by omega))
  anchors hr hh ha hs := (h.anchors hr hh ha hs).overlay (h'.anchors hr hh ha hs)

end Overlaid

/-! ### From bodies to types -/

namespace Program.Ready

variable {p : Program} {ty : TypeDecl}

/-- A program ready for a type is ready for its parts. -/
lemma part (h : p.Ready (· = ty)) : p.Ready ty.Part :=
  ⟨h.1, fun _ hd => .part (h.2 ty rfl) hd⟩

lemma atCursor (h : p.Ready (· = ty)) : ∀ s ∈ ty.body.members, s.AtCursor :=
  h.1 ty (h.2 ty rfl)

end Program.Ready

lemma BitfieldBuilt.sound {es : List BitfieldEntry} {m m' : Machine} {N : Node} {p : Program}
    (h : BitfieldBuilt es m N m') : N.Sound p := by
  have hp : ∀ P, N.kind = .pointer P → ∀ {Q : Node → Prop}, Node.Everywhere Q P := by
    intro P hP; rw [h.kind] at hP; cases hP
  refine ⟨.of_children h.within (fun f hf => (h.fields f hf).everywhere (h.fields f hf).childrenWithin)
    (fun P hP => hp P hP), fun _ => .of_children ?_
    (fun f hf => (h.fields f hf).everywhere (h.fields f hf).startsAtChild) (fun P hP => hp P hP)⟩
  -- every field starts where the bitfield starts
  intro hne
  obtain ⟨f, hf⟩ := List.exists_mem_of_ne_nil _ hne
  exact ⟨f, hf, h.atStart f hf⟩

namespace CompoundDeep

variable {p : Program} {S S' : TypeDecl → Prop} {N : Node}

lemma mono (h : CompoundDeep p S N) (hS : ∀ T, S T → S' T) : CompoundDeep p S' N :=
  ⟨h.contained, fun hA hB => h.anchored hA fun T hT => hB T (hS T hT)⟩

/-- A compound made of sound children that lie inside it, anchored when what is spliced
into it is anchoring. -/
lemma of_children (hsound : ∀ ch ∈ N.children, ch.Sound p) (hwithin : N.ChildrenWithin)
    (hanch : p.SplicesAnchoring → (∀ T, S T → ∀ b, T.Resolves p b → b.anchoring) → N.Anchored)
    (hk : ∀ P, N.kind ≠ .pointer P) : CompoundDeep p S N where
  contained := .of_children hwithin (fun ch hch => (hsound ch hch).contained)
    fun P hP => absurd hP (hk P)
  anchored hA hB := ⟨hanch hA hB, .of_children (hanch hA hB).startsAtChild
    (fun ch hch => (hsound ch hch).starts hA) fun P hP => absurd hP (hk P)⟩

variable {ty : TypeDecl}

/-- A compound built for a type from what is spliced into that type is sound. -/
lemma sound (hR : p.Ready (· = ty)) (h : CompoundDeep p (ty.Spliced p) N) : N.Sound p :=
  ⟨h.contained, fun hA => (h.anchored hA fun T hT => hA ty (hR.2 ty rfl) T hT).2⟩

lemma anchored_of_ready (hR : p.Ready (· = ty)) (h : CompoundDeep p (ty.Spliced p) N)
    (hA : p.SplicesAnchoring) : N.Anchored :=
  (h.anchored hA fun T hT => hA ty (hR.2 ty rfl) T hT).1

end CompoundDeep

namespace TypeBuilt

variable {c : Context} {ty : TypeDecl} {m m' : Machine} {N : Node}

/-- A leaf of a type that builds no struct and nothing anchoring. -/
lemma of_leaf (hL : Laid m N m') (hN : N.Leaf) (hr : ty.body.refers = false)
    (hs : ty.body.isStruct = false) (ha : ty.body.anchoring = false) :
    TypeBuilt c ty m ⟨N, false⟩ m' where
  toLaid := hL
  inline h := absurd h Bool.false_ne_true
  sound _ := .of_leaf hN
  tiled _ hS := absurd (hS.isStruct (.own hr)) (by simp [hs])
  anchored _ _ hab := by simpa [ha] using hab _ (.own hr)

lemma of_bitfield {es : List BitfieldEntry} (hb : ty.body = .bitfield es)
    (h : BitfieldBuilt es m N m') : TypeBuilt c ty m ⟨N, false⟩ m' where
  toLaid := h.toLaid
  inline h := absurd h Bool.false_ne_true
  sound _ := h.sound
  tiled _ hS := absurd (hS.isStruct (.own (by simp [hb, TypeBody.refers])))
    (by simp [hb, TypeBody.isStruct])
  anchored _ _ hab := by
    have := hab _ (.own (by simp [hb, TypeBody.refers]))
    simp only [hb, TypeBody.anchoring, List.any_eq_true, Bool.not_eq_eq_eq_not,
      Bool.not_true] at this
    exact h.anchored this

lemma of_struct {bases : List TypeDecl} {ms : List Stmt} (hb : ty.body = .struct bases ms)
    (h : StructBuilt c bases ms m N m') : TypeBuilt c ty m ⟨N, false⟩ m' := by
  have hres : ty.Resolves c.program (.struct bases ms) :=
    (TypeDecl.resolves_own (by simp [hb])).mpr hb.symm
  -- what the struct splices in is spliced into the type, and what it uses is a part of it
  have hsp : ∀ T, (T ∈ bases ∨ ∃ s ∈ ms, s.Splices c.program T) → ty.Spliced c.program T := by
    rintro T (hT | ⟨s, hs, hT⟩)
    · exact .base hres hT
    · exact .member hres (by simpa using hs) hT
  have hready : c.program.Ready (· = ty) →
      c.program.Ready (fun d => d ∈ bases ∨ ∃ s ∈ ms, s.Uses d) := by
    refine fun hR => hR.part.mono ?_
    rintro d (hd | ⟨s, hs, hd⟩)
    · exact .base hb hd
    · exact .member (by simpa [hb] using hs) hd
  have hat : c.program.Ready (· = ty) → ∀ s ∈ ms, s.AtCursor := fun hR => by
    simpa [hb] using hR.atCursor
  refine ⟨h.toLaid, fun h => absurd h Bool.false_ne_true, fun hR => ?_, fun hR hS => ?_,
    fun hR hA _ => ?_⟩
  · exact ((h.deep (hready hR) (hat hR)).mono hsp).sound hR
  · exact h.tiled (hready hR) (hat hR) fun T hT => hS.of_spliced (hsp T hT)
  · exact ((h.deep (hready hR) (hat hR)).mono hsp).anchored_of_ready hR hA

lemma of_union {ms : List Stmt} (hb : ty.body = .union ms) (h : UnionBuilt c ms m N m') :
    TypeBuilt c ty m ⟨N, false⟩ m' := by
  have hres : ty.Resolves c.program (.union ms) :=
    (TypeDecl.resolves_own (by simp [hb, TypeBody.refers])).mpr hb.symm
  have hsp : ∀ T, (∃ s ∈ ms, s.Splices c.program T) → ty.Spliced c.program T := by
    rintro T ⟨s, hs, hT⟩
    exact .member hres (by simpa using hs) hT
  have hready : c.program.Ready (· = ty) → c.program.Ready (fun d => ∃ s ∈ ms, s.Uses d) := by
    refine fun hR => hR.part.mono ?_
    rintro d ⟨s, hs, hd⟩
    exact .member (by simpa [hb] using hs) hd
  have hat : c.program.Ready (· = ty) → ∀ s ∈ ms, s.AtCursor := fun hR => by
    simpa [hb] using hR.atCursor
  refine ⟨h.toLaid, fun h => absurd h Bool.false_ne_true, fun hR => ?_, fun _ hS => ?_,
    fun hR hA _ => ?_⟩
  · exact ((h.deep (hready hR) (hat hR)).mono hsp).sound hR
  -- a union is not a struct
  · exact absurd (hS.isStruct hres) (by simp [TypeBody.isStruct])
  · exact ((h.deep (hready hR) (hat hR)).mono hsp).anchored_of_ready hR hA

/-- A type that stands for another, building what that one builds: an alias, shown under
its own name, or a forward reference. -/
lemma of_refers {ty' : TypeDecl} {b b' : Built}
    (hres : ∀ bd, ty.Resolves c.program bd ↔ ty'.Resolves c.program bd)
    (hpart : c.program.Ready (· = ty) → c.program.Builds ty')
    (hinl : ty'.Inlined c.program → ty.Inlined c.program)
    (h : TypeBuilt c ty' m b m') (hr : b.node.Restyled b'.node) (hi : b'.inline = b.inline) :
    TypeBuilt c ty m b' m' := by
  have hready : c.program.Ready (· = ty) → c.program.Ready (· = ty') :=
    fun hR => ⟨hR.1, fun d hd => hd ▸ hpart hR⟩
  refine ⟨h.toLaid.restyled hr, fun hb => ?_, fun hR => (h.sound (hready hR)).restyled hr,
    fun hR hS => hr.tiled (h.tiled (hready hR) (TypeDecl.structClosed_of_resolves_eq hres hS)),
    fun hR hA hab => hr.anchored (h.anchored (hready hR) hA fun bd hbd => hab bd ((hres bd).mpr hbd))⟩
  obtain ⟨hin, hcomp⟩ := h.inline (hi ▸ hb)
  exact ⟨hinl hin, hr.isCompound_eq ▸ hcomp⟩

end TypeBuilt

/-- Every builder's promise at one fuel. -/
structure BuildSpec (fuel : Nat) : Prop where
  buildMember : ∀ s c m, Wp (buildMember fuel s) c m fun _ m' =>
    ∃ ns, Appended c s.Uses s.AtCursor (s.Splices c.program) m ns m'
  buildVar : ∀ name ty pl attrs sp c m, Wp (buildVar fuel name ty pl attrs) c m fun _ m' =>
    ∃ ns, Appended c (Stmt.var name ty pl attrs sp).Uses (Stmt.var name ty pl attrs sp).AtCursor
      ((Stmt.var name ty pl attrs sp).Splices c.program) m ns m'
  buildType : ∀ ty name c m, Wp (buildType fuel ty name) c m (TypeBuilt c ty m)
  buildBody : ∀ ty name c m, Wp (buildBody fuel ty name) c m (TypeBuilt c ty m)
  buildStruct : ∀ bases members name tn c m,
    Wp (buildStruct fuel bases members name tn) c m (StructBuilt c bases members m)
  buildUnion : ∀ members name tn c m,
    Wp (buildUnion fuel members name tn) c m (UnionBuilt c members m)
  buildEnum : ∀ u es name tn c m,
    Wp (buildEnum fuel u es name tn) c m fun N m' => Laid m N m' ∧ N.Leaf
  buildBitfield : ∀ es name tn c m,
    Wp (buildBitfield fuel es name tn) c m (BitfieldBuilt es m)
  buildArray : ∀ name ty size c m, Wp (buildArray fuel name ty size) c m (ArrayBuilt c ty m)
  buildElement : ∀ ty i c m, Wp (buildElement fuel ty i) c m (NodeBuilt c (· = ty) m)
  fixedElements : ∀ ty i n acc c m,
    Wp (fixedElements fuel ty i n acc) c m (ElementsBuilt c ty m acc)
  whileElements : ∀ ty cnd count acc c m,
    Wp (whileElements fuel ty cnd count acc) c m (ElementsBuilt c ty m acc)
  unsizedElements : ∀ ty count acc c m,
    Wp (unsizedElements fuel ty count acc) c m (ElementsBuilt c ty m acc)
  buildString : ∀ name ty size unit c m, Wp (buildString fuel name ty size unit) c m
    fun N m' => Laid m N m' ∧ N.Leaf ∧ N.isCompound = false
  whileChars : ∀ cnd start unit c m,
    Wp (whileChars fuel cnd start unit) c m fun _ m' => CharsRun m m'
  unsizedChars : ∀ unit c m, Wp (unsizedChars fuel unit) c m fun _ m' => CharsRun m m'
  buildPointer : ∀ name target addrType addrEndian attrs c m,
    Wp (buildPointer fuel name target addrType addrEndian attrs) c m
      (PointerBuilt c target addrType addrEndian attrs m)

/-! ### Leaves: builtins, enums, bitfields, strings -/

section Steps

variable {fuel : Nat} {c : Context} {m : Machine}

lemma Builtin.nodeKind_ne_pointer (b : Builtin) (p : Node) : b.nodeKind ≠ .pointer p := by
  cases b <;> simp [Builtin.nodeKind]

lemma wp_buildBuiltin (b : Builtin) (name tn : String) :
    Wp (Eval.buildBuiltin b name tn) c m fun N m' => Laid m N m' ∧ N.Leaf := by
  unfold Eval.buildBuiltin
  split
  · simp [Laid.iff, Node.Leaf, Node.fresh, Builtin.nodeKind_ne_pointer]
  · split <;> simp

lemma buildEnum_spec (u : Builtin) (es : List EnumEntry) (name tn : String) :
    Wp (buildEnum (fuel + 1) u es name tn) c m fun N m' => Laid m N m' ∧ N.Leaf := by
  rcases hs : u.size? with _ | size <;> simp only [buildEnum, hs, wp_bind, wp_pure, wp_fault]
  refine ((exprKeepsLayout fuel).enumEntries u es).wp (.refl m) fun t m₁ h₁ => ?_
  simp [Laid.iff, Node.Leaf, Node.fresh, h₁.cursor, h₁.scope, h₁.endian]

lemma buildBitfield_spec (es : List BitfieldEntry) (name tn : String) :
    Wp (buildBitfield (fuel + 1) es name tn) c m (BitfieldBuilt es m) := by
  simp only [buildBitfield, wp_bind, wp_cursor]
  -- the fields are made at the start, one for each entry that is not padding
  refine (wp_foldlM_invariant es _ (fun pre (r : Nat × List Node) m' =>
      (m'.cursor = m.cursor ∧ m'.scope.layout = m.scope.layout ∧ m'.endian = m.endian) ∧
      (∀ f ∈ r.2, f.offset = m.cursor ∧ f.Leaf) ∧ ((∃ e ∈ pre, e.padding = false) → r.2 ≠ []))
    ?_ _ m ⟨⟨rfl, rfl, rfl⟩, by simp, by simp⟩).mono fun r m₁ hr => ?_
  · rintro pre e - ⟨off, fields⟩ m' ⟨h', hf, hne⟩
    simp only [wp_bind]
    refine ((exprKeepsLayout fuel).evalExpr e.width).wp (.refl m') fun v m₂ h₂ => ?_
    simp only [wp_lift, wp_ite, wp_fault, wp_pure, wp_newNode, wp_bind]
    intro w _
    refine ⟨fun _ => trivial, fun _ => ⟨fun hpad => ?_, fun hpad _ => ?_⟩⟩
    · refine ⟨⟨h₂.cursor.trans h'.1, h₂.scope.trans h'.2.1, h₂.endian.trans h'.2.2⟩, hf, ?_⟩
      rintro ⟨x, hx, hxp⟩
      rcases List.mem_append.mp hx with hx | hx
      · exact hne ⟨x, hx, hxp⟩
      · simp only [List.mem_singleton] at hx
        subst hx
        simp [hpad] at hxp
    · refine ⟨⟨h₂.cursor.trans h'.1, h₂.scope.trans h'.2.1, h₂.endian.trans h'.2.2⟩, ?_, by simp⟩
      rintro f hfm
      rcases List.mem_cons.mp hfm with rfl | hfm
      · exact ⟨rfl, by simp [Node.Leaf, Node.fresh]⟩
      · exact hf f hfm
  · -- the bitfield spans the bytes its bits need, and each field spans the bitfield
    obtain ⟨bits, fields⟩ := r
    obtain ⟨h₁, hf, hne⟩ := hr
    simp only [wp_checkRange, wp_setCursor, wp_newNode, wp_pure]
    intro _ _
    refine ⟨⟨rfl, by simp [Node.fresh], h₁.2.1, h₁.2.2⟩, rfl, ?_, ?_, ?_, ?_⟩
    · intro f hfm
      obtain ⟨g, hg, rfl⟩ := List.mem_map.mp hfm
      simp [Node.Within, Node.fresh, (hf g (List.mem_reverse.mp hg)).1]
    · intro f hfm
      obtain ⟨g, hg, rfl⟩ := List.mem_map.mp hfm
      simp [Node.fresh, (hf g (List.mem_reverse.mp hg)).1]
    · intro f hfm
      obtain ⟨g, hg, rfl⟩ := List.mem_map.mp hfm
      exact (hf g (List.mem_reverse.mp hg)).2
    · intro hpad
      obtain ⟨g, hg⟩ := List.exists_mem_of_ne_nil _ (hne hpad)
      refine .inr ⟨{ g with size := (bits + 7) / 8 }, ?_, ?_⟩
      · exact List.mem_map_of_mem (List.mem_reverse.mpr hg)
      · simp [Node.fresh, (hf g hg).1]

lemma whileChars_spec (ih : BuildSpec fuel) (cnd : Expr) (start unit : Nat) :
    Wp (whileChars (fuel + 1) cnd start unit) c m fun _ m' => CharsRun m m' := by
  simp only [whileChars, wp_bind]
  refine ((exprKeepsLayout fuel).evalExpr cnd).wp (.refl m) fun v m₁ h₁ => ?_
  simp only [wp_truth, wp_ite, wp_tick, wp_cursor, wp_checkArrayLength, wp_checkRange,
    wp_setCursor, wp_pure, wp_bind]
  intro b _
  refine ⟨fun _ _ _ _ => ?_, fun _ => ⟨Nat.le_of_eq h₁.cursor.symm, h₁.scope, h₁.endian⟩⟩
  -- one more character, then the rest of the loop
  refine (ih.whileChars cnd start unit c _).mono fun _ m₂ h₂ => ⟨?_, ?_, ?_⟩
  · have := h₂.cursor
    have := h₁.cursor
    simp only at *
    omega
  · exact h₂.scope.trans h₁.scope
  · exact h₂.endian.trans h₁.endian

lemma unsizedChars_spec (ih : BuildSpec fuel) (unit : Nat) :
    Wp (unsizedChars (fuel + 1) unit) c m fun _ m' => CharsRun m m' := by
  simp only [unsizedChars, wp_bind, wp_cursor, wp_read, wp_ite, wp_fault, wp_tick, wp_readBytes,
    wp_setCursor, wp_pure, implies_true, true_and]
  refine fun _ => ⟨fun _ _ bs _ => ⟨fun _ => ?_, fun _ => ⟨by simp, rfl, rfl⟩⟩,
    fun _ => ⟨Nat.le_refl _, rfl, rfl⟩⟩
  refine (ih.unsizedChars unit c _).mono fun _ m₂ h₂ => ⟨?_, h₂.scope, h₂.endian⟩
  have := h₂.cursor
  simp only at this
  omega

/-- The node of a string whose characters took the cursor from `m` to `m₁`. -/
lemma wp_stringNode {m₁ : Machine} (name : String) (ty : TypeDecl) (unit : Nat)
    (h : CharsRun m m₁) :
    Wp (do
      let k ← cursor
      if unit = 1 then do
        let node ← newNode name "char" m.cursor (k - m.cursor) .string
        return if ty.endian.isSome then { node with endian := ty.endian } else node
      else do
        let node ← newNode name "char16" m.cursor (k - m.cursor) .string16
        return if ty.endian.isSome then { node with endian := ty.endian } else node) c m₁
      fun N m' => Laid m N m' ∧ N.Leaf ∧ N.isCompound = false := by
  have hc := h.cursor
  simp only [wp_cursor, wp_bind, wp_ite, wp_newNode, wp_pure]
  constructor <;> intro _ _ <;> split <;>
    simp [Laid.iff, Node.Leaf, Node.fresh, Node.isCompound, h.scope, h.endian] <;> omega

lemma buildString_spec (ih : BuildSpec fuel) (name : String) (ty : TypeDecl)
    (size : ArraySize) (unit : Nat) :
    Wp (buildString (fuel + 1) name ty size unit) c m
      fun N m' => Laid m N m' ∧ N.Leaf ∧ N.isCompound = false := by
  rw [buildString, wp_bind, wp_cursor]
  rcases size with count | cnd | _ <;> dsimp only
  · rw [wp_bind]
    refine ((exprKeepsLayout fuel).evalExpr count).wp (.refl m) fun v m₁ h₁ => ?_
    rw [wp_bind, wp_lift]
    intro n _
    rw [wp_bind, wp_checkArrayLength]
    intro _
    split
    · simp
    · rw [wp_bind, wp_checkRange]
      intro _
      rw [wp_bind, wp_setCursor]
      exact wp_stringNode name ty unit ⟨by simp, h₁.scope, h₁.endian⟩
  · rw [wp_bind]
    exact (ih.whileChars cnd m.cursor unit c m).mono fun _ m₁ h₁ =>
      wp_stringNode name ty unit h₁
  · rw [wp_bind]
    exact (ih.unsizedChars unit c m).mono fun _ m₁ h₁ => wp_stringNode name ty unit h₁

/-! ### Arrays -/

lemma NodeBuilt.of_sameLayout {uses : TypeDecl → Prop} {m₁ m' : Machine} {N : Node}
    (h₀ : m.SameLayout m₁) (h : NodeBuilt c uses m₁ N m') : NodeBuilt c uses m N m' :=
  ⟨h.toLaid.of_sameLayout h₀, h.sound⟩

namespace ElementsBuilt

variable {ty : TypeDecl} {acc r : List Node} {m₁ m' : Machine}

lemma done : ElementsBuilt c ty m acc acc.reverse m :=
  ⟨[], by simp, rfl, rfl, rfl, by simp⟩

lemma of_sameLayout (h₀ : m.SameLayout m₁) (h : ElementsBuilt c ty m₁ acc r m') :
    ElementsBuilt c ty m acc r m' := by
  obtain ⟨es, hr, ht, hs, he, hsd⟩ := h
  exact ⟨es, hr, h₀.cursor ▸ ht, hs.trans h₀.scope, he.trans h₀.endian, hsd⟩

/-- An element built at the cursor, then the rest of the loop. -/
lemma cons {e : Node} (h₁ : NodeBuilt c (· = ty) m e m₁)
    (h₂ : ElementsBuilt c ty m₁ (e :: acc) r m') : ElementsBuilt c ty m acc r m' := by
  obtain ⟨es, rfl, ht, hs, he, hsd⟩ := h₂
  refine ⟨e :: es, by simp, ⟨h₁.offset, by rw [h₁.offset, ← h₁.cursor]; exact ht⟩,
    hs.trans h₁.scope, he.trans h₁.endian, fun hr x hx => ?_⟩
  rcases List.mem_cons.mp hx with rfl | hx
  · exact h₁.sound hr
  · exact hsd hr x hx

end ElementsBuilt

lemma buildElement_spec (ih : BuildSpec fuel) (ty : TypeDecl) (i : Nat) :
    Wp (buildElement (fuel + 1) ty i) c m (NodeBuilt c (· = ty) m) := by
  simp only [buildElement, wp_bind, wp_tick, wp_pure]
  intro _
  exact (ih.buildType ty _ c _).mono fun b m₁ h₁ =>
    ⟨Laid.of_sameLayout (show m.SameLayout { m with steps := m.steps + 1 } from
      ⟨rfl, rfl, rfl, rfl, rfl⟩) h₁.toLaid, h₁.sound⟩

lemma fixedElements_spec (ih : BuildSpec fuel) (ty : TypeDecl) (i n : Nat) (acc : List Node) :
    Wp (fixedElements (fuel + 1) ty i n acc) c m (ElementsBuilt c ty m acc) := by
  simp only [fixedElements, wp_ite, wp_bind, wp_pure]
  exact ⟨fun _ => (ih.buildElement ty i c m).mono fun e m₁ h₁ =>
      (ih.fixedElements ty (i + 1) n (e :: acc) c m₁).mono fun _ _ h₂ => .cons h₁ h₂,
    fun _ => .done⟩

lemma whileElements_spec (ih : BuildSpec fuel) (ty : TypeDecl) (cnd : Expr) (count : Nat)
    (acc : List Node) :
    Wp (whileElements (fuel + 1) ty cnd count acc) c m (ElementsBuilt c ty m acc) := by
  simp only [whileElements, wp_bind]
  refine ((exprKeepsLayout fuel).evalExpr cnd).wp (.refl m) fun v m₁ h₁ => ?_
  simp only [wp_truth, wp_ite, wp_checkArrayLength, wp_bind, wp_pure]
  intro b _
  refine ⟨fun _ _ => (ih.buildElement ty count c m₁).mono fun e m₂ h₂ => ?_,
    fun _ => ElementsBuilt.done.of_sameLayout h₁⟩
  exact (ih.whileElements ty cnd (count + 1) (e :: acc) c m₂).mono fun _ _ h₃ =>
    (ElementsBuilt.cons h₂ h₃).of_sameLayout h₁

lemma unsizedElements_spec (ih : BuildSpec fuel) (ty : TypeDecl) (count : Nat)
    (acc : List Node) :
    Wp (unsizedElements (fuel + 1) ty count acc) c m (ElementsBuilt c ty m acc) := by
  simp only [unsizedElements, wp_bind, wp_cursor, wp_read, wp_ite, wp_checkArrayLength,
    wp_readBytes, wp_pure]
  refine ⟨fun _ _ => (ih.buildElement ty count c m).mono fun e m₁ h₁ bs _ => ⟨fun _ => ?_,
    fun _ => ?_⟩, fun _ => .done⟩
  · -- the all-zero element ends the array
    exact .cons h₁ .done
  · exact (ih.unsizedElements ty (count + 1) (e :: acc) c m₁).mono fun _ _ h₂ => .cons h₁ h₂

/-- The array node over elements laid end to end from the cursor. -/
lemma wp_arrayNode {m₁ : Machine} {ty : TypeDecl} {es : List Node} (name : String)
    (h : ElementsBuilt c ty m [] es m₁) :
    Wp (do
      let k ← cursor
      let node ← newNode name ty.displayName m.cursor (k - m.cursor) .array
      return { node with children := es }) c m₁ (ArrayBuilt c ty m) := by
  obtain ⟨es', hes, ht, hs, he, hsd⟩ := h
  rw [List.reverse_nil, List.nil_append] at hes
  subst hes
  have hend := ht.eq_add_sum
  simp only [wp_cursor, wp_bind, wp_newNode, wp_pure]
  intro _
  -- the elements cover the array end to end
  have htiled : Node.Tiles es m.cursor (m.cursor + (m₁.cursor - m.cursor)) := by
    rwa [show m.cursor + (m₁.cursor - m.cursor) = m₁.cursor by omega]
  refine ⟨⟨⟨rfl, by simp [Node.fresh]; omega, hs, he⟩, fun hr => ⟨?_, fun ha => ?_⟩⟩,
    fun _ => by simpa [Node.Tiled, Node.fresh] using htiled, fun _ => by simp [Node.fresh]⟩
  · refine ⟨fun x hx => ?_, fun x hx => (hsd hr x hx).contained, by simp [Node.fresh]⟩
    simpa [Node.fresh] using htiled.within x hx
  · refine ⟨fun _ => ?_, fun x hx => (hsd hr x hx).starts ha, by simp [Node.fresh]⟩
    rcases htiled.anchors with ⟨hnil, -⟩ | hx
    · exact absurd hnil (by simpa using ‹_›)
    · simpa [Node.fresh] using hx

lemma buildArray_spec (ih : BuildSpec fuel) (name : String) (ty : TypeDecl) (size : ArraySize) :
    Wp (buildArray (fuel + 1) name ty size) c m (ArrayBuilt c ty m) := by
  -- a string is a leaf, and no array
  have hstring : ∀ {N m'}, Laid m N m' ∧ N.Leaf ∧ N.isCompound = false → ArrayBuilt c ty m N m' := by
    rintro N m' ⟨hL, hleaf, hc⟩
    exact ⟨⟨hL, fun _ => .of_leaf hleaf⟩,
      fun hk => by simp [Node.isCompound, hk] at hc, fun h => by simp [hc] at h⟩
  simp only [buildArray]
  split
  · exact (ih.buildString name ty size 1 c m).mono fun _ _ h => hstring h
  · exact (ih.buildString name ty size 2 c m).mono fun _ _ h => hstring h
  · rw [wp_bind, wp_cursor]
    rcases size with count | cnd | _ <;> dsimp only <;> rw [wp_bind]
    · refine ((exprKeepsLayout fuel).evalExpr count).wp (.refl m) fun v m₁ h₁ => ?_
      rw [wp_bind, wp_lift]
      intro n _
      rw [wp_bind, wp_checkArrayLength]
      intro _
      rw [wp_bind]
      exact (ih.fixedElements ty 0 n [] c m₁).mono fun es m₂ h₂ =>
        wp_arrayNode name (h₂.of_sameLayout h₁)
    · exact (ih.whileElements ty cnd 0 [] c m).mono fun es m₂ h₂ => wp_arrayNode name h₂
    · exact (ih.unsizedElements ty 0 [] c m).mono fun es m₂ h₂ => wp_arrayNode name h₂

/-! ### Pointers -/

/-- The pointer node over `w` address bytes at the cursor, with its target built at
`address` from a state `m₂` with the frames and byte order of `m`. -/
lemma pointerBuilt_of {target : TypeDecl} {addrType : Builtin} {addrEndian : Option Endian}
    {attrs : List Attribute} {name : String} {w address cur : Nat} {bs : List Nat} {b : Built}
    {m₂ m₄ : Machine} (h₄ : TypeBuilt c target m₂ b m₄) (hw : addrType.size? = some w)
    (hbs : Data.read c.data m.cursor w = .ok bs)
    (hsc : m₂.scope.layout = m.scope.layout) (hen : m₂.endian = m.endian)
    (hcur : m₂.cursor = address)
    (haddr : attrs.find? (·.name == "pointer_base") = none →
      address = Word.ofBytes ((addrEndian <|> m.endian).getD c.config.defaultEndian) bs)
    (e : Option Endian) (hback : cur = m.cursor + w) :
    PointerBuilt c target addrType addrEndian attrs m
      { Node.fresh name (target.displayName ++ "*") m.cursor w (.pointer b.node) with endian := e }
      { m₄ with cursor := cur, patterns := m₄.patterns + 1 } := by
  refine ⟨⟨⟨rfl, hback, h₄.scope.trans hsc, h₄.endian.trans hen⟩, fun hr => ?_⟩, rfl,
    ⟨b.node, bs, rfl, by simpa [Node.fresh] using hw, by simpa [Node.fresh] using hbs,
      fun h => by rw [h₄.offset, hcur]; exact haddr h⟩⟩
  -- the pointer has no children; its target is sound
  have hp := h₄.sound hr
  exact ⟨.of_children (by simp [Node.ChildrenWithin, Node.fresh]) (by simp [Node.fresh])
      (fun p hk => by cases hk; exact hp.contained),
    fun ha => .of_children (by simp [Node.StartsAtChild, Node.fresh]) (by simp [Node.fresh])
      (fun p hk => by cases hk; exact hp.starts ha)⟩

/-- Asking a `pointer_base` function for the address leaves the layout as it was. -/
lemma wp_pointerBase (fuel : Nat) (attr : Attribute) (raw : Nat) :
    Wp (match attr.value with
      | some v => do
        let fname ← pure v
        let f ← roleFunction fname "pointer base"
        let r ← callUser fuel f [Value.uint raw]
        match r with
          | some v => do
            let k ← lift v.toUnsigned
            pure ((raw + k) % 2 ^ 128)
          | none => fault (EvalFault.noReturnValue fname)
      | none => do
        let fname ← fault (EvalFault.attributeMissingValue "pointer_base")
        let f ← roleFunction fname "pointer base"
        let r ← callUser fuel f [Value.uint raw]
        match r with
          | some v => do
            let k ← lift v.toUnsigned
            pure ((raw + k) % 2 ^ 128)
          | none => fault (EvalFault.noReturnValue fname)) c m
      fun _ m' => m.SameLayout m' := by
  split
  · simp only [wp_pure, wp_bind]
    refine wp_roleFunction _ _ fun f => ?_
    refine ((exprKeepsLayout fuel).callUser f _).wp (.refl m) fun r m₁ h₁ => ?_
    split
    · simp only [wp_bind, wp_lift, wp_pure]
      exact fun _ _ => h₁
    · simp
  · simp

lemma buildPointer_spec (ih : BuildSpec fuel) (name : String) (target : TypeDecl)
    (addrType : Builtin) (addrEndian : Option Endian) (attrs : List Attribute) :
    Wp (buildPointer (fuel + 1) name target addrType addrEndian attrs) c m
      (PointerBuilt c target addrType addrEndian attrs m) := by
  simp only [buildPointer]
  rcases hw : addrType.size? with _ | w
  · simp
  · simp only [wp_pure, wp_cursor, wp_endianFor, wp_readBytes, wp_setCursor, wp_bind]
    intro bs hbs
    split
    · rename_i hnone
      simp only [wp_pure, wp_ite, wp_fault, wp_bind, wp_atOffset, wp_newNode, wp_get]
      refine ⟨fun _ => trivial, fun _ => (ih.buildType target name c _).mono
        fun b m₄ h₄ _ => pointerBuilt_of h₄ hw hbs rfl rfl rfl (fun _ => rfl) _ rfl⟩
    · rename_i attr hsome
      rw [wp_bind, wp_withLine]
      refine (wp_pointerBase fuel attr _).mono fun a m₂ h₂ => ?_
      simp only [wp_pure, wp_ite, wp_fault, wp_bind, wp_atOffset, wp_newNode, wp_get]
      refine ⟨fun _ => trivial, fun _ => (ih.buildType target name c _).mono
        fun b m₄ h₄ _ => ?_⟩
      exact pointerBuilt_of h₄ hw hbs h₂.scope h₂.endian rfl
        (fun h => absurd (h.symm.trans hsome) (by simp)) _ h₂.cursor

/-- With a `pointer_base` attribute, the target is built at the address the pointer's bytes
hold plus the unsigned word of what the named function returns for that address, modulo
`2 ^ 128`; the function is called with the cursor past the pointer's bytes. -/
lemma buildPointer_base (ih : BuildSpec fuel) (name : String) (target : TypeDecl)
    (addrType : Builtin) (addrEndian : Option Endian) {attrs : List Attribute}
    {attr : Attribute} (hattr : attrs.find? (·.name == "pointer_base") = some attr) :
    Wp (buildPointer (fuel + 1) name target addrType addrEndian attrs) c m fun N _ =>
      ∃ P bytes raw, N.kind = .pointer P ∧ Data.read c.data m.cursor N.size = .ok bytes ∧
        raw = Word.ofBytes ((addrEndian <|> m.endian).getD c.config.defaultEndian) bytes ∧
        ∃ fname f v k m₂, attr.value = some fname ∧ c.function? fname = some f ∧
          ((callUser fuel f [.uint raw]).run c).run { m with cursor := m.cursor + N.size } =
            .ok (some v) m₂ ∧ v.toUnsigned = .ok k ∧ P.offset = (raw + k) % 2 ^ 128 := by
  simp only [buildPointer]
  rcases hw : addrType.size? with _ | w
  · simp
  simp only [wp_pure, wp_cursor, wp_endianFor, wp_readBytes, wp_setCursor, wp_bind]
  intro bs hbs
  rw [hattr]
  simp only [wp_bind, wp_withLine]
  rcases hv : attr.value with _ | fname
  · simp
  simp only [wp_pure, wp_bind]
  refine wp_roleFunction_found _ _ fun f hf => ?_
  -- the run of the function is kept: the address is read from what it returns
  intro r m₂ hrun
  rcases r with _ | v
  · simp
  simp only [wp_bind, wp_lift, wp_pure, wp_ite, wp_fault, wp_atOffset, wp_newNode, wp_get]
  refine fun k hk => ⟨fun _ => trivial, fun _ => (ih.buildType target name c _).mono
    fun b m₄ h₄ _ => ?_⟩
  exact ⟨b.node, bs, _, rfl, by simpa [Node.fresh] using hbs, rfl, fname, f, v, k, m₂, rfl, hf,
    by simpa [Node.fresh] using hrun, hk, h₄.offset⟩

/-! ### Types -/

lemma buildType_spec (ih : BuildSpec fuel) (ty : TypeDecl) (name : String) :
    Wp (buildType (fuel + 1) ty name) c m (TypeBuilt c ty m) := by
  -- the body is built from the cursor and frames of `m`, in whichever byte order; the
  -- inherited one is put back, then the type's attributes are applied
  rw [wp_buildType]
  intro _
  refine (ih.buildBody ty name c _).mono fun b m₂ h₂ => ?_
  refine (wp_applyAttributes b.node ty.attrs).mono fun r m₃ h => ?_
  obtain ⟨h₃, hr, hi⟩ := h
  subst h₃
  refine ⟨⟨?_, ?_, ?_, rfl⟩, fun h => ?_, fun hR => (h₂.sound hR).restyled hr,
    fun hR hS => hr.tiled (h₂.tiled hR hS), fun hR hA hB => hr.anchored (h₂.anchored hR hA hB)⟩
  · rw [hr.offset_eq, h₂.offset]
  · simp only
    rw [h₂.cursor, hr.size_eq]
  · exact h₂.scope
  · rcases Bool.or_eq_true_iff.mp h with h | h
    · obtain ⟨hin, hcomp⟩ := h₂.inline h
      exact ⟨hin, hr.isCompound_eq ▸ hcomp⟩
    · obtain ⟨hin, hcomp⟩ := hi h
      exact ⟨.attr hin, hcomp⟩

lemma buildBody_spec (ih : BuildSpec fuel) (ty : TypeDecl) (name : String) :
    Wp (buildBody (fuel + 1) ty name) c m (TypeBuilt c ty m) := by
  simp only [buildBody]
  rcases hb : ty.body with b | ⟨bases, ms⟩ | ms | ⟨u, es⟩ | es | inner | q
  case builtin =>
    simp only [wp_bind, wp_pure]
    exact (wp_buildBuiltin b name _).mono fun N m' h =>
      .of_leaf h.1 h.2 (by simp [hb, TypeBody.refers]) (by simp [hb, TypeBody.isStruct])
        (by simp [hb, TypeBody.anchoring])
  case struct =>
    simp only [wp_bind, wp_pure]
    exact (ih.buildStruct bases ms name _ c m).mono fun N m' h => .of_struct hb h
  case union =>
    simp only [wp_bind, wp_pure]
    exact (ih.buildUnion ms name _ c m).mono fun N m' h => .of_union hb h
  case enum =>
    simp only [wp_bind, wp_pure]
    exact (ih.buildEnum u es name _ c m).mono fun N m' h =>
      .of_leaf h.1 h.2 (by simp [hb, TypeBody.refers]) (by simp [hb, TypeBody.isStruct])
        (by simp [hb, TypeBody.anchoring])
  case bitfield =>
    simp only [wp_bind, wp_pure]
    exact (ih.buildBitfield es name _ c m).mono fun N m' h => .of_bitfield hb h
  case «alias» =>
    simp only [wp_bind, wp_pure]
    -- the alias builds its target and shows its own name
    exact (ih.buildType inner name c m).mono fun b m' h =>
      .of_refers (fun _ => TypeDecl.resolves_alias_iff hb) (fun hR => .part (hR.2 ty rfl) (.alias hb))
        (.alias hb) h (.present (.refl _) rfl rfl rfl rfl) rfl
  case forward =>
    simp only [wp_bind, wp_read]
    split
    · rename_i d hq
      exact (ih.buildType d name c m).mono fun b m' h =>
        .of_refers (fun _ => TypeDecl.resolves_forward_iff hb hq) (fun _ => .registered hq)
          (.forward hb hq) h (.refl _) rfl
    · simp

/-! ### Compounds -/

lemma buildStruct_spec (ih : BuildSpec fuel) (bases : List TypeDecl) (ms : List Stmt)
    (name tn : String) :
    Wp (buildStruct (fuel + 1) bases ms name tn) c m (StructBuilt c bases ms m) := by
  -- the bases' children and then the members are appended to the struct's own frame
  let U : TypeDecl → Prop := fun d => d ∈ bases ∨ ∃ s ∈ ms, s.Uses d
  let H : Prop := ∀ s ∈ ms, s.AtCursor
  let Sp : TypeDecl → Prop := fun T => T ∈ bases ∨ ∃ s ∈ ms, s.Splices c.program T
  let m₀ : Machine := { m with scope := m.scope.push .compound m.cursor tn }
  let I : Machine → Prop := fun m' => ∃ acc, Appended c U H Sp m₀ acc m'
  have hbase : ∀ base ∈ bases, ∀ m', I m' → Wp (do
      let inherited ← buildType fuel base ""
      splice inherited.node) c m' fun _ m'' => I m'' := by
    rintro base hbase m' ⟨acc, h'⟩
    have hR : c.program.Ready U → c.program.Ready (· = base) :=
      fun hR => hR.mono fun _ hd => .inl (hd ▸ hbase)
    simp only [wp_bind, wp_splice]
    refine (ih.buildType base "" c m').mono fun b m'' hb => ⟨acc ++ b.node.children, h'.trans ?_⟩
    exact Appended.emit true hb.toLaid (.refl _) (fun h => hb.sound (hR h))
      (fun h _ _ hS => hb.tiled (hR h) (hS base (.inl hbase)))
      (fun h _ hA _ hB => hb.anchored (hR h) hA (hB base (.inl hbase)))
  have hmember : ∀ s ∈ ms, ∀ m', I m' → Wp (buildMember fuel s) c m' fun _ m'' => I m'' := by
    rintro s hs m' ⟨acc, h'⟩
    refine (ih.buildMember s c m').mono fun _ m'' h => ?_
    obtain ⟨ns, hns⟩ := h
    refine ⟨acc ++ ns, h'.trans ?_⟩
    exact hns.mono (fun _ hd => .inr ⟨s, hs, hd⟩) (fun hH => hH s hs) fun _ hT => .inr ⟨s, hs, hT⟩
  simp only [buildStruct, wp_bind, wp_cursor, wp_pushFrame, wp_attempt, wp_popFrame,
    wp_ofExcept_ok, wp_ofExcept_error, wpFail_true, and_true]
  refine (wp_forM bases _ I hbase m₀ ⟨[], .nil m₀⟩).mono fun _ m₁ h₁ => ?_
  refine (wp_forM ms _ I hmember m₁ h₁).mono fun _ m₂ h => ?_
  obtain ⟨acc, h₂⟩ := h
  simp only [wp_newNode, wp_pure]
  intro _
  obtain ⟨hmem, hlay⟩ := Scope.pop_of_layout h₂.scope
  have hle : m.cursor ≤ m₂.cursor := h₂.cursor
  -- the struct spans the cursor's advance and its children are what was appended
  refine ⟨⟨rfl, by simp [Node.fresh]; omega, hlay, h₂.endian⟩, rfl, fun hR hH => ?_,
    fun hR hH hS => ?_⟩
  · refine .of_children (fun ch hch => h₂.sound hR ch ?_) (fun ch hch => ?_)
      (fun hA hB => ?_) (by simp [Node.fresh])
    · simpa [hmem] using hch
    · have := h₂.within hR hH ch (by simpa [hmem] using hch)
      simpa [Node.fresh, Nat.add_sub_cancel' hle] using this
    · have := h₂.anchors hR hH hA hB
      simpa [Node.Anchored, Node.fresh, hmem, Nat.add_sub_cancel' hle] using this
  · have := h₂.tiles hR hH hS
    simpa [Node.Tiled, Node.fresh, hmem, Nat.add_sub_cancel' hle] using this

lemma buildUnion_spec (ih : BuildSpec fuel) (ms : List Stmt) (name tn : String) :
    Wp (buildUnion (fuel + 1) ms name tn) c m (UnionBuilt c ms m) := by
  -- every member is built from the start again, into the union's own frame
  let U : TypeDecl → Prop := fun d => ∃ s ∈ ms, s.Uses d
  let H : Prop := ∀ s ∈ ms, s.AtCursor
  let Sp : TypeDecl → Prop := fun T => ∃ s ∈ ms, s.Splices c.program T
  let m₀ : Machine := { m with scope := m.scope.push .compound m.cursor tn }
  let J : Nat → Machine → Prop := fun size m' => ∃ acc, Overlaid c U H Sp m₀ m.cursor size acc m'
  have hmember : ∀ s ∈ ms, ∀ size m', J size m' → Wp (do
      setCursor m.cursor
      buildMember fuel s
      return max size ((← cursor) - m.cursor)) c m' J := by
    rintro s hs size m' ⟨acc, h'⟩
    simp only [wp_bind, wp_setCursor, wp_cursor, wp_pure]
    refine (ih.buildMember s c _).mono fun _ m'' h => ?_
    obtain ⟨ns, hns⟩ := h
    refine ⟨acc ++ ns, h'.step ?_⟩
    exact hns.mono (fun _ hd => ⟨s, hs, hd⟩) (fun hH => hH s hs) fun _ hT => ⟨s, hs, hT⟩
  simp only [buildUnion, wp_bind, wp_cursor, wp_pushFrame, wp_attempt, wp_popFrame,
    wp_ofExcept_ok, wp_ofExcept_error, wpFail_true, and_true]
  refine (wp_foldlM ms _ J hmember 0 m₀ ⟨[], .nil m₀ m.cursor⟩).mono fun size m₁ h => ?_
  obtain ⟨acc, h₁⟩ := h
  simp only [wp_setCursor, wp_newNode, wp_pure]
  intro _
  have h₁scope : m₁.scope.layout =
      ((m.scope.push .compound m.cursor tn).extendMembers acc).layout := h₁.scope
  obtain ⟨hmem, hlay⟩ := Scope.pop_of_layout h₁scope
  refine ⟨⟨rfl, by simp [Node.fresh], hlay, h₁.endian⟩, rfl, fun hR hH => ?_⟩
  refine .of_children (fun ch hch => h₁.sound hR ch ?_) (fun ch hch => ?_)
    (fun hA hB => ?_) (by simp [Node.fresh])
  · simpa [hmem] using hch
  · simpa [Node.fresh] using h₁.within hR hH ch (by simpa [hmem] using hch)
  · simpa [Node.Anchored, Node.fresh, hmem] using h₁.anchors hR hH hA hB

/-! ### Members -/

lemma buildVar_spec (ih : BuildSpec fuel) (name : String) (ty : TypeDecl) (pl : Placement)
    (attrs : List Attribute) (sp : Span) :
    Wp (buildVar (fuel + 1) name ty pl attrs) c m fun _ m' =>
      ∃ ns, Appended c (Stmt.var name ty pl attrs sp).Uses (Stmt.var name ty pl attrs sp).AtCursor
        ((Stmt.var name ty pl attrs sp).Splices c.program) m ns m' := by
  have hR : c.program.Ready (Stmt.var name ty pl attrs sp).Uses → c.program.Ready (· = ty) :=
    fun hR => hR.mono fun _ hd => hd ▸ .var
  cases pl with
  | cursor =>
    simp only [buildVar, place, wp_bind]
    refine (ih.buildType ty name c m).mono fun b m₁ hb => ?_
    refine (wp_emit b.node b.inline attrs).mono fun _ m' h => ?_
    obtain ⟨n', inl, hn', hinl, hm'⟩ := h
    -- the node is spliced when its declaration or its type asks for it
    have hsp : (inl || b.inline) = true → (Stmt.var name ty .cursor attrs sp).Splices c.program ty := by
      intro h
      rcases Bool.or_eq_true_iff.mp h with h | h
      · exact .var (.inl (hinl h).1)
      · exact .var (.inr (hb.inline h).1)
    rw [hm']
    exact ⟨_, Appended.emit (inl || b.inline) hb.toLaid hn' (fun h => hb.sound (hR h))
      (fun h _ hs hS => hb.tiled (hR h) (hS ty (hsp hs)))
      (fun h _ hA hs hB => hb.anchored (hR h) hA (hB ty (hsp hs)))⟩
  | atOffset e =>
    simp only [buildVar, place, wp_bind]
    refine ((exprKeepsLayout fuel).evalExpr e).wp (.refl m) fun v m₁ h₁ => ?_
    simp only [wp_lift, wp_ite, wp_fault, wp_atOffset, wp_bind]
    intro a _
    refine ⟨fun _ => trivial, fun _ => ?_⟩
    -- built at the address, with the cursor put back: appended, but not at the cursor
    refine (ih.buildType ty name c _).mono fun b m₂ hb => ?_
    refine (wp_emit b.node b.inline attrs).mono fun _ m' h => ?_
    obtain ⟨n', inl, hn', -, hm'⟩ := h
    rw [hm']
    exact ⟨_, .away (hb.scope.trans h₁.scope) h₁.cursor (hb.endian.trans h₁.endian)
      (fun h => (hb.sound (hR h)).emitted hn' _) (by rintro ⟨⟩)⟩
  | input =>
    simp only [buildVar]
    exact (declareHost_keepsLayout name ty true).wp (.refl m) fun _ m' h => ⟨[], .of_keep h⟩
  | output =>
    simp only [buildVar]
    exact (declareHost_keepsLayout name ty false).wp (.refl m) fun _ m' h => ⟨[], .of_keep h⟩

/-- Members built one after the other append what each of them appends. -/
lemma wp_members (ih : BuildSpec fuel) {uses : TypeDecl → Prop} {here : Prop}
    {splices : TypeDecl → Prop} (ss : List Stmt) (m₀ : Machine)
    (hu : ∀ s ∈ ss, ∀ d, s.Uses d → uses d) (hh : ∀ s ∈ ss, here → s.AtCursor)
    (hs : ∀ s ∈ ss, ∀ T, s.Splices c.program T → splices T) :
    ∀ m, (∃ acc, Appended c uses here splices m₀ acc m) →
      Wp (ss.forM (buildMember fuel)) c m fun _ m' =>
        ∃ acc, Appended c uses here splices m₀ acc m' :=
  wp_forM ss _ _ fun s hs' _ h =>
    h.elim fun acc h' => (ih.buildMember s c _).mono fun _ _ h =>
      h.elim fun ns hns => ⟨acc ++ ns, h'.trans (hns.mono (hu s hs') (hh s hs') (hs s hs'))⟩

/-- A node built where a placement says and emitted under the declaration's attributes,
for a node that is tiled whenever it is compound, so that inlining it tiles too: arrays and
pointers. -/
lemma wp_placeEmit {st : Stmt} {ty : TypeDecl} (build : Eval Node) (pl : Placement)
    (attrs : List Attribute)
    (hbuild : ∀ m, Wp build c m fun N m' =>
      NodeBuilt c (· = ty) m N m' ∧ (N.isCompound = true → N.Tiled))
    (huses : st.Uses ty) (hhere : st.AtCursor → pl = .cursor) :
    Wp (place (evalExpr fuel) pl build) c m fun N m' => Wp (emit N false attrs) c m' fun _ m'' =>
      ∃ ns, Appended c st.Uses st.AtCursor (st.Splices c.program) m ns m'' := by
  have hR : c.program.Ready st.Uses → c.program.Ready (· = ty) :=
    fun hR => hR.mono fun _ hd => hd ▸ huses
  cases pl with
  | cursor =>
    refine (hbuild m).mono fun N m₁ h => ?_
    obtain ⟨hN, ht⟩ := h
    refine (wp_emit N false attrs).mono fun _ m' h => ?_
    obtain ⟨n', inl, hn', hinl, hm'⟩ := h
    -- only a compound is inlined, and a compound is tiled
    have htiled : (inl || false) = true → N.Tiled := fun h =>
      ht (hn'.isCompound_eq ▸ (hinl (by simpa using h)).2)
    rw [hm']
    exact ⟨_, Appended.emit (inl || false) hN.toLaid hn' (fun h => hN.sound (hR h))
      (fun _ _ hs _ => htiled hs) (fun _ _ _ hs _ => Node.Tiles.anchors (htiled hs))⟩
  | atOffset e =>
    simp only [place, wp_bind]
    refine ((exprKeepsLayout fuel).evalExpr e).wp (.refl m) fun v m₁ h₁ => ?_
    simp only [wp_lift, wp_ite, wp_fault, wp_atOffset, wp_bind]
    intro a _
    refine ⟨fun _ => trivial, fun _ => ?_⟩
    refine (hbuild _).mono fun N m₂ h => ?_
    obtain ⟨hN, -⟩ := h
    refine (wp_emit N false attrs).mono fun _ m' h => ?_
    obtain ⟨n', inl, hn', -, hm'⟩ := h
    rw [hm']
    exact ⟨_, .away (hN.scope.trans h₁.scope) h₁.cursor (hN.endian.trans h₁.endian)
      (fun h => (hN.sound (hR h)).emitted hn' _) fun h => Placement.noConfusion (hhere h)⟩
  | input | output => simp [place]

lemma buildMember_spec (ih : BuildSpec fuel) (s : Stmt) :
    Wp (buildMember (fuel + 1) s) c m fun _ m' =>
      ∃ ns, Appended c s.Uses s.AtCursor (s.Splices c.program) m ns m' := by
  -- the step count is not part of the layout
  have h₀ : m.SameLayout { m with steps := m.steps + 1 } := ⟨rfl, rfl, rfl, rfl, rfl⟩
  cases s
  all_goals
    simp only [buildMember, wp_withNode, wp_withLine, wp_bind, wp_tick, wp_fault, implies_true]
  all_goals try intro _
  case var name ty pl attrs sp _ =>
    exact (ih.buildVar name ty pl attrs sp c _).mono fun _ m' h =>
      h.imp fun _ h => h.of_sameLayout h₀
  case multi names ty sp _ =>
    -- each name is a variable of the type at the cursor, without attributes
    refine (wp_forM names _ (fun m' => ∃ acc, Appended c (Stmt.multi names ty sp).Uses
      (Stmt.multi names ty sp).AtCursor ((Stmt.multi names ty sp).Splices c.program) m acc m')
      (fun n _ m' h' => ?_) _ ⟨[], .of_keep h₀⟩).mono fun _ m' h => h
    obtain ⟨acc, h'⟩ := h'
    refine (ih.buildVar n ty .cursor [] sp c m').mono fun _ m'' h => ?_
    obtain ⟨ns, h⟩ := h
    refine ⟨acc ++ ns, h'.trans ?_⟩
    refine h.mono (fun d hd => ?_) (fun _ => .var) (fun T hT => ?_)
    · cases hd; exact .multi
    · rcases hT with ⟨⟨_, ha, _⟩ | hT⟩
      · exact absurd ha List.not_mem_nil
      · exact .multi hT
  case array name ty size pl attrs sp _ =>
    refine (wp_placeEmit _ pl attrs (fun m' => (ih.buildArray name ty size c m').mono
      fun N m'' h => ⟨h.toNodeBuilt, fun hc => h.tiled (h.compound hc)⟩) .array ?_).mono
      fun N m₁ h => h.mono fun _ m' h' => h'.imp fun _ h' => h'.of_sameLayout h₀
    rintro ⟨⟩; rfl
  case pointer name target addrType addrEndian pl attrs sp _ =>
    -- a pointer is no compound: it is never inlined
    refine (wp_placeEmit _ pl attrs (fun m' => (ih.buildPointer name target addrType addrEndian
      attrs c m').mono fun N m'' h => ⟨h.toNodeBuilt, fun hc => ?_⟩) .pointer ?_).mono
      fun N m₁ h => h.mono fun _ m' h' => h'.imp fun _ h' => h'.of_sameLayout h₀
    · obtain ⟨P, _, hk, _⟩ := h.pointee
      simp [Node.isCompound, hk] at hc
    · rintro ⟨⟩; rfl
  case padding size sp _ =>
    refine ((exprKeepsLayout fuel).evalExpr size).wp h₀ fun v m₁ h₁ => ?_
    simp only [wp_lift, wp_ite, wp_fault, wp_bind, wp_cursor, wp_checkRange, wp_newNode,
      wp_setCursor, wp_modifyScope, Scope.pushMember_eq]
    intro n _
    refine ⟨fun _ => trivial, fun _ _ _ => ?_⟩
    have hL : Laid m₁ { Node.fresh "padding" "padding" m₁.cursor n .padding with endian := m₁.endian }
        { m₁ with patterns := m₁.patterns + 1, cursor := m₁.cursor + n } :=
      ⟨rfl, rfl, rfl, rfl⟩
    have hleaf : Node.Leaf { Node.fresh "padding" "padding" m₁.cursor n .padding with endian := m₁.endian } := by
      simp [Node.Leaf, Node.fresh]
    exact ⟨_, (Appended.emit false hL (.refl _) (fun _ => .of_leaf hleaf) (fun _ _ h => absurd h (by simp))
      (fun _ _ _ h => absurd h (by simp))).of_sameLayout h₁⟩
  case ifElse cnd t e sp _ =>
    refine ((exprKeepsLayout fuel).evalExpr cnd).wp h₀ fun v m₁ h₁ => ?_
    simp only [truth, wp_lift]
    intro b _
    -- the branch taken appends; the other is not run
    cases b
    · exact wp_members ih e m (fun s hs d hd => .elseBranch hs hd)
        (fun s hs h => by cases h with | ifElse _ he => exact he s hs)
        (fun s hs T hT => .elseBranch hs hT) _ ⟨[], .of_keep h₁⟩
    · exact wp_members ih t m (fun s hs d hd => .thenBranch hs hd)
        (fun s hs h => by cases h with | ifElse ht _ => exact ht s hs)
        (fun s hs T hT => .thenBranch hs hT) _ ⟨[], .of_keep h₁⟩
  case exprStmt e sp _ =>
    exact ((exprKeepsLayout fuel).execExprStmt e).wp h₀ fun _ m' h => ⟨[], .of_keep h⟩
  case typeDef | function => simpa using ⟨[], .of_keep h₀⟩

end Steps

/-- Every builder keeps its promise at every fuel: the node a builder returns lies at the
cursor and the cursor ends right after it, members append their nodes to the innermost
frame, and for a program whose members are at the cursor the nodes are sound, tiled or
anchored as the promises say.

**Proof sketch.** Induction on the fuel, one lemma per builder. With no fuel left every
builder faults; with fuel, each builder keeps its promise when the builders it calls keep
theirs at one fuel less. -/
theorem buildSpec (fuel : Nat) : BuildSpec fuel := by
  induction fuel with
  | zero =>
    constructor <;> intros <;>
      simp [buildMember, buildVar, buildType, buildBody, buildStruct, buildUnion, buildEnum,
        buildBitfield, buildArray, buildElement, fixedElements, whileElements, unsizedElements,
        buildString, whileChars, unsizedChars, buildPointer]
  | succ fuel ih =>
    exact ⟨fun s _ _ => buildMember_spec ih s,
      fun name ty pl attrs sp _ _ => buildVar_spec ih name ty pl attrs sp,
      fun ty name _ _ => buildType_spec ih ty name, fun ty name _ _ => buildBody_spec ih ty name,
      fun bases ms name tn _ _ => buildStruct_spec ih bases ms name tn,
      fun ms name tn _ _ => buildUnion_spec ih ms name tn,
      fun u es name tn _ _ => buildEnum_spec u es name tn,
      fun es name tn _ _ => buildBitfield_spec es name tn,
      fun name ty size _ _ => buildArray_spec ih name ty size,
      fun ty i _ _ => buildElement_spec ih ty i,
      fun ty i n acc _ _ => fixedElements_spec ih ty i n acc,
      fun ty cnd count acc _ _ => whileElements_spec ih ty cnd count acc,
      fun ty count acc _ _ => unsizedElements_spec ih ty count acc,
      fun name ty size unit _ _ => buildString_spec ih name ty size unit,
      fun cnd start unit _ _ => whileChars_spec ih cnd start unit,
      fun unit _ _ => unsizedChars_spec ih unit,
      fun name target addrType addrEndian attrs _ _ =>
        buildPointer_spec ih name target addrType addrEndian attrs⟩

/-- At every fuel, a successful build of a pointer with a `pointer_base` attribute called the
named function, one fuel down, on the address its bytes hold, and built the target at that
address plus the result. -/
lemma wp_buildPointer_base {c : Context} {m : Machine} (fuel : Nat) (name : String)
    (target : TypeDecl) (addrType : Builtin) (addrEndian : Option Endian)
    (attrs : List Attribute) :
    Wp (buildPointer fuel name target addrType addrEndian attrs) c m fun N _ =>
      ∀ attr, attrs.find? (·.name == "pointer_base") = some attr →
        ∃ P bytes raw, N.kind = .pointer P ∧ Data.read c.data m.cursor N.size = .ok bytes ∧
          raw = Word.ofBytes ((addrEndian <|> m.endian).getD c.config.defaultEndian) bytes ∧
          ∃ fname f v k m₂, attr.value = some fname ∧ c.function? fname = some f ∧
            ((callUser (fuel - 1) f [.uint raw]).run c).run
              { m with cursor := m.cursor + N.size } = .ok (some v) m₂ ∧
            v.toUnsigned = .ok k ∧ P.offset = (raw + k) % 2 ^ 128 := by
  rcases fuel with _ | fuel
  · simp [buildPointer]
  · exact fun N m' h attr hattr =>
      buildPointer_base (buildSpec fuel) name target addrType addrEndian hattr N m' h

/-! ### The whole run -/

/-- The top-level declarations append their nodes to the global frame, and the forest is
that frame's nodes. -/
lemma wp_buildProgram (fuel : Nat) (p : Program) (c : Context) (inputs : List (String × Value)) :
    Wp (buildProgram fuel p) c (Machine.initial inputs) fun ns _ =>
      c.program.Ready (fun d => ∃ s ∈ p.stmts, s.Uses d) → ∀ N ∈ ns, N.Sound c.program := by
  unfold buildProgram
  simp only [wp_bind, wp_get, wp_pure]
  -- nothing is promised of the range: top-level declarations may be placed anywhere
  have h₀ : ∃ acc, Appended c (fun d => ∃ s ∈ p.stmts, s.Uses d) False (fun _ => True)
      (Machine.initial inputs) acc (Machine.initial inputs) := ⟨[], .nil _⟩
  refine (wp_members (buildSpec fuel) p.stmts (Machine.initial inputs)
    (fun s hs d hd => ⟨s, hs, hd⟩) (fun _ _ h => h.elim) (fun _ _ _ _ => trivial) _ h₀).mono
    fun _ m' h => ?_
  obtain ⟨acc, h⟩ := h
  rw [Scope.current_members_of_layout h.scope, List.reverse_reverse]
  exact h.sound

/-- A successful run is a successful build from the initial state, read out. -/
lemma runProgram_eq_ok {p : Program} {data : ByteArray} {config : RunConfig}
    {inputs : List (String × Value)} {ev : Evaluation} :
    runProgram p data config inputs = .ok ev ↔
      ∃ ns m', ((buildProgram Eval.fuel p).run (Context.of p data config)).run
        (Machine.initial inputs) = .ok ns m' ∧
        ev = ⟨ns, m'.outVariables, m'.console.reverse, m'.steps, m'.patterns, m'.spliced⟩ := by
  unfold runProgram Eval.outcome
  rcases ((buildProgram Eval.fuel p).run (Context.of p data config)).run
    (Machine.initial inputs) with ⟨ns, m'⟩ | ⟨e, m'⟩
  · simp only [bind, Except.bind, pure, Except.pure, Except.ok.injEq, EStateM.Result.ok.injEq]
    constructor
    · rintro rfl
      exact ⟨ns, m', ⟨rfl, rfl⟩, rfl⟩
    · rintro ⟨_, _, ⟨rfl, rfl⟩, rfl⟩
      rfl
  · simp [bind, Except.bind]

/-- What every successful build of a program promises of the nodes it returns holds of the
forest of every successful run. -/
lemma patterns_of_runProgram {p : Program} {data : ByteArray} {config : RunConfig}
    {inputs : List (String × Value)} {ev : Evaluation} {P : List Node → Prop}
    (hw : Wp (buildProgram Eval.fuel p) (Context.of p data config) (Machine.initial inputs)
      fun ns _ => P ns)
    (h : runProgram p data config inputs = .ok ev) : P ev.patterns := by
  obtain ⟨ns, m', hrun, rfl⟩ := runProgram_eq_ok.mp h
  exact hw ns m' hrun

/-- Every node of the forest of a successful run of a program whose members are at the
cursor is sound: children lie inside their parents at every depth, and for an anchoring
program every node with children has one at its start. -/
theorem runProgram_sound {p : Program} (hp : p.MembersAtCursor) {data : ByteArray}
    {config : RunConfig} {inputs : List (String × Value)} {ev : Evaluation}
    (h : runProgram p data config inputs = .ok ev) : ∀ N ∈ ev.patterns, N.Sound p := by
  refine patterns_of_runProgram ((wp_buildProgram Eval.fuel p _ inputs).mono
    fun ns _ hs => hs ⟨hp, ?_⟩) h
  rintro d ⟨s, hs, hd⟩
  exact .declared hs hd

end ByteLayout

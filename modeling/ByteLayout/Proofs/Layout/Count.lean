import Mathlib
import ByteLayout.Proofs.Layout.Build
import ByteLayout.Proofs.Layout.Relocate
import ByteLayout.Proofs.Layout.Parsed

set_option autoImplicit false

/-!
# How many nodes a run makes

A run counts every node it makes against the node limit, at the moment it makes it. The
forest a run returns holds, through children and pointees, every node that was made and then
kept. The others were dropped by a splice: a struct keeps the children of each of its bases
but not the node built for the base, and a declaration or a type with `[[inline]]` hands its
compound's children to the enclosing frame and drops the compound. A base can be of any type,
an enum or a builtin too, so what is dropped is not always a compound. The machine records
each node dropped so (`Machine.spliced`).

So the count is the number of nodes in the forest plus the number of nodes dropped, and a
program that splices nothing (`Program.SplicesNothing`) drops none. With a node limit the
count, and so the forest, never passes the limit.

## Main definitions

* `Node.nodeCount`, `Node.forestCount` — the nodes reached from a node, or from a list of
  nodes, through children and pointees.
* `Scope.held` — the nodes held in all the frames of a scope.
* `Program.SplicesNothing` — no struct the program builds has a base, and nothing asks for
  inlining.
* `Tallied` — a run that made `k` nodes more than it added to the frames and dropped, dropped
  none when it splices nothing, and kept within the node limit.
* `TallySpec` — what each builder counts, at one fuel.

## Main results

* `tallySpec` — every builder keeps its count at every fuel.
* `patternCount_eq_forest_add_spliced` — the count of a run is the nodes of its forest and
  the nodes it dropped, none when nothing is spliced, and it stays within the node limit.

## Design

The count is kept like a cost with a potential: the nodes held in the frames. Making a node
adds one to the count; adding a node to a frame raises what is held by the node's own count;
closing a frame moves what it held into the node made from it; a splice moves a node's
children into the frame and records the node itself as dropped. That is one node, since no
node that is spliced has a pointee. A builder of a node is `Tallied` by the nodes of what it
returns, a builder of members by none: what it made is in the frames, or was dropped.
-/

namespace ByteLayout

open Eval

/-! ### Counting nodes -/

mutual

/-- The nodes reached from a node through children and pointees, the node included. -/
def Node.nodeCount : Node → Nat
  | ⟨_, _, _, _, _, k, _, _, _, _, _, _, cs⟩ => 1 + k.nodeCount + Node.forestCount cs

/-- The nodes reached from a pointer's pointee; none for other kinds. -/
def NodeKind.nodeCount : NodeKind → Nat
  | .pointer p => p.nodeCount
  | _ => 0

/-- The nodes reached from the nodes of a list. -/
def Node.forestCount : List Node → Nat
  | [] => 0
  | n :: ns => n.nodeCount + Node.forestCount ns

end

example : (Node.fresh "x" "u8" 0 1 .unsigned).nodeCount = 1 := by decide

namespace Node

lemma nodeCount_eq (n : Node) : n.nodeCount = 1 + n.kind.nodeCount + forestCount n.children := by
  cases n
  rw [nodeCount]

@[simp] lemma forestCount_nil : forestCount [] = 0 := rfl

@[simp] lemma forestCount_cons (n : Node) (ns : List Node) :
    forestCount (n :: ns) = n.nodeCount + forestCount ns := rfl

@[simp] lemma forestCount_append (a b : List Node) :
    forestCount (a ++ b) = forestCount a + forestCount b := by
  induction a with
  | nil => simp
  | cons n a ih => simp [ih, Nat.add_assoc]

@[simp] lemma forestCount_reverse (ns : List Node) : forestCount ns.reverse = forestCount ns := by
  induction ns with
  | nil => rfl
  | cons n ns ih => simp [ih, Nat.add_comm]

/-- Mapping nodes to nodes with as many below them keeps the count of a list. -/
lemma forestCount_map {f : Node → Node} {ns : List Node}
    (h : ∀ n ∈ ns, (f n).nodeCount = n.nodeCount) : forestCount (ns.map f) = forestCount ns := by
  induction ns with
  | nil => rfl
  | cons n ns ih =>
    simp only [List.map_cons, forestCount_cons]
    rw [h n (by simp), ih fun x hx => h x (by simp [hx])]

@[simp] lemma nodeCount_fresh (name tn : String) (o s : Nat) (k : NodeKind) :
    (fresh name tn o s k).nodeCount = 1 + k.nodeCount := by
  simp [nodeCount_eq, fresh]

/-- Two nodes of one kind with the same children reach as many nodes. -/
lemma nodeCount_congr {n n' : Node} (hk : n'.kind = n.kind) (hc : n'.children = n.children) :
    n'.nodeCount = n.nodeCount := by
  rw [nodeCount_eq, nodeCount_eq, hk, hc]

/-- Recolouring reaches the same nodes: an array's elements are recoloured, not dropped. -/
lemma nodeCount_setColor (c : Nat) (n : Node) : (n.setColor c).nodeCount = n.nodeCount := by
  induction n using childInduction with
  | step n ih =>
    rw [nodeCount_eq, nodeCount_eq, kind_setColor, children_setColor]
    split
    · rw [forestCount_map ih]
    · rfl

lemma Restyled.nodeCount_eq {n n' : Node} (h : n.Restyled n') : n'.nodeCount = n.nodeCount := by
  induction h with
  | refl => rfl
  | present _ _ _ hk hc ih => exact (nodeCount_congr hk hc).trans ih
  | color c _ ih => rw [nodeCount_setColor, ih]

end Node

@[simp] lemma Builtin.nodeCount_nodeKind (b : Builtin) : b.nodeKind.nodeCount = 0 := by
  cases b <;> rfl

/-- A compound has no pointee. -/
lemma Node.kind_nodeCount_of_isCompound {n : Node} (h : n.isCompound = true) :
    n.kind.nodeCount = 0 := by
  unfold Node.isCompound at h
  split at h <;> simp_all [NodeKind.nodeCount]

/-! ### The nodes held in the frames -/

namespace Scope

/-- The nodes held in all the frames of a scope, through children and pointees. -/
def held (s : Scope) : Nat :=
  (s.inner.map fun f => Node.forestCount f.members).sum + Node.forestCount s.global.members

@[simp] lemma held_initial : Scope.initial.held = 0 := rfl

/-- What is held is read off the layout. -/
lemma held_congr {s s' : Scope} (h : s'.layout = s.layout) : s'.held = s.held := by
  have hinner : ∀ t : Scope, t.inner.map (fun f => Node.forestCount f.members) =
      t.layout.1.map fun l => Node.forestCount l.2.1 := fun t => by
    simp [layout, Frame.layout, Function.comp_def]
  have hglobal : s'.global.members = s.global.members := congrArg Prod.snd h
  rw [held, held, hinner s', hinner s, h, hglobal]

@[simp] lemma held_push (s : Scope) (k : FrameKind) (st : Nat) (tn : String) :
    (s.push k st tn).held = s.held := by
  simp [held, push, Frame.empty]

/-- Closing a frame moves what it held out of the scope. -/
lemma held_pop (s : Scope) : s.pop.2.held + Node.forestCount s.pop.1.members = s.held := by
  rcases s with ⟨_ | ⟨f, fs⟩, g⟩
  · simp [pop, Frame.empty]
  · simp only [pop, held, List.map_cons, List.sum_cons]
    omega

@[simp] lemma held_extendMembers (s : Scope) (ns : List Node) :
    (s.extendMembers ns).held = s.held + Node.forestCount ns := by
  rcases s with ⟨_ | ⟨f, fs⟩, g⟩
  · simp only [held, extendMembers, modifyCurrent, List.map_nil, List.sum_nil,
      Node.forestCount_append, Node.forestCount_reverse]
    omega
  · simp only [held, extendMembers, modifyCurrent, List.map_cons, List.sum_cons,
      Node.forestCount_append, Node.forestCount_reverse]
    omega

@[simp] lemma held_define (s : Scope) (name : String) (v : Variable) :
    (s.define name v).held = s.held :=
  held_congr (by rcases s with ⟨_ | ⟨f, fs⟩, g⟩ <;> rfl)

end Scope

/-! ### Programs that splice nothing -/

/-- A declaration asks by its own attributes for its node to be spliced: a variable, an array
or a pointer with `[[inline]]`, or such a declaration in either branch of a condition. -/
inductive Stmt.Inlines : Stmt → Prop
  | var {n : String} {d : TypeDecl} {pl : Placement} {attrs : List Attribute} {sp : Span} :
      Attribute.Inline attrs → Inlines (.var n d pl attrs sp)
  | array {n : String} {d : TypeDecl} {size : ArraySize} {pl : Placement}
      {attrs : List Attribute} {sp : Span} :
      Attribute.Inline attrs → Inlines (.array n d size pl attrs sp)
  | pointer {n : String} {d : TypeDecl} {a : Builtin} {e : Option Endian} {pl : Placement}
      {attrs : List Attribute} {sp : Span} :
      Attribute.Inline attrs → Inlines (.pointer n d a e pl attrs sp)
  | thenBranch {c : Expr} {t e : List Stmt} {sp : Span} {s : Stmt} :
      s ∈ t → Inlines s → Inlines (.ifElse c t e sp)
  | elseBranch {c : Expr} {t e : List Stmt} {sp : Span} {s : Stmt} :
      s ∈ e → Inlines s → Inlines (.ifElse c t e sp)

/-- A program that drops no node it makes: no struct it builds has a base, no type it builds
asks for inlining, and no declaration asks for it, at the top level or as a member of a type
the program builds. -/
structure Program.SplicesNothing (p : Program) : Prop where
  bases : ∀ d, p.Builds d → ∀ bases ms, d.body = .struct bases ms → bases = []
  types : ∀ d, p.Builds d → ¬ Attribute.Inline d.attrs
  members : ∀ d, p.Builds d → ∀ s ∈ d.body.members, ¬ s.Inlines
  top : ∀ s ∈ p.stmts, ¬ s.Inlines

/-- A type that a program splicing nothing builds: building it drops nothing. -/
def TypeDecl.KeepsNodes (p : Program) (d : TypeDecl) : Prop := p.SplicesNothing ∧ p.Builds d

/-- A member of a program splicing nothing, whose types the program builds and which does
not ask for inlining: building it drops nothing. -/
def Stmt.KeepsNodes (p : Program) (s : Stmt) : Prop :=
  p.SplicesNothing ∧ ¬ s.Inlines ∧ ∀ d, s.Uses d → p.Builds d

namespace TypeDecl.KeepsNodes

variable {p : Program} {d : TypeDecl}

lemma target {t : TypeDecl} (h : d.KeepsNodes p) (hb : d.body = .alias t) : t.KeepsNodes p :=
  ⟨h.1, .part h.2 (.alias hb)⟩

lemma forward {q : String} {d' : TypeDecl} (h : d.KeepsNodes p) (hq : p.typeNamed? q = some d') :
    d'.KeepsNodes p :=
  ⟨h.1, .registered hq⟩

lemma member (h : d.KeepsNodes p) {s : Stmt} (hs : s ∈ d.body.members) : s.KeepsNodes p :=
  ⟨h.1, h.1.members d h.2 s hs, fun _ hu => .part h.2 (.member hs hu)⟩

lemma struct {bases : List TypeDecl} {ms : List Stmt} (h : d.KeepsNodes p)
    (hb : d.body = .struct bases ms) : bases = [] ∧ ∀ s ∈ ms, s.KeepsNodes p :=
  ⟨h.1.bases d h.2 bases ms hb, fun _ hs => h.member (by simpa [hb] using hs)⟩

lemma union {ms : List Stmt} (h : d.KeepsNodes p) (hb : d.body = .union ms) :
    ∀ s ∈ ms, s.KeepsNodes p :=
  fun _ hs => h.member (by simpa [hb] using hs)

end TypeDecl.KeepsNodes

namespace Stmt.KeepsNodes

variable {p : Program} {c : Expr} {t e : List Stmt} {sp : Span} {s : Stmt}

lemma thenBranch (h : (Stmt.ifElse c t e sp).KeepsNodes p) (hs : s ∈ t) : s.KeepsNodes p :=
  ⟨h.1, fun hi => h.2.1 (.thenBranch hs hi), fun _ hu => h.2.2 _ (.thenBranch hs hu)⟩

lemma elseBranch (h : (Stmt.ifElse c t e sp).KeepsNodes p) (hs : s ∈ e) : s.KeepsNodes p :=
  ⟨h.1, fun hi => h.2.1 (.elseBranch hs hi), fun _ hu => h.2.2 _ (.elseBranch hs hu)⟩

end Stmt.KeepsNodes

/-! ### Tallied runs -/

/-- A run from `m` to `m'` that made `k` nodes more than it added to the frames and dropped,
dropped none when `keeps` holds, and, started within the node limit, ended within it. -/
structure Tallied (c : Context) (keeps : Prop) (m : Machine) (k : Nat) (m' : Machine) : Prop where
  balance : m'.patterns + m.scope.held + m.spliced = m.patterns + m'.scope.held + m'.spliced + k
  keeps : keeps → m'.spliced = m.spliced
  limit : 0 < c.config.maxPatterns → m.patterns ≤ c.config.maxPatterns →
    m'.patterns ≤ c.config.maxPatterns

namespace Tallied

variable {c : Context} {e e' : Prop} {m m₁ m₂ m' : Machine} {k k' : Nat}

lemma refl (m : Machine) : Tallied c e m 0 m :=
  ⟨by omega, fun _ => rfl, fun _ h => h⟩

lemma trans (h₁ : Tallied c e m k m₁) (h₂ : Tallied c e m₁ k' m') : Tallied c e m (k + k') m' := by
  have h₁b := h₁.balance
  have h₂b := h₂.balance
  exact ⟨by omega, fun he => (h₂.keeps he).trans (h₁.keeps he),
    fun h0 h => h₂.limit h0 (h₁.limit h0 h)⟩

lemma weaken (h : Tallied c e m k m') (he : e' → e) : Tallied c e' m k m' :=
  ⟨h.balance, fun h' => h.keeps (he h'), h.limit⟩

/-- Only the node count, the nodes held in the frames and the dropped nodes matter. -/
lemma congr_left (h : Tallied c e m₁ k m') (hp : m₁.patterns = m.patterns)
    (hs : m₁.scope.held = m.scope.held) (hd : m₁.spliced = m.spliced) : Tallied c e m k m' := by
  have hb := h.balance
  exact ⟨by omega, fun he => (h.keeps he).trans hd, fun h0 hm => h.limit h0 (by omega)⟩

lemma congr_right (h : Tallied c e m k m₁) (hp : m'.patterns = m₁.patterns)
    (hs : m'.scope.held = m₁.scope.held) (hd : m'.spliced = m₁.spliced) : Tallied c e m k m' := by
  have hb := h.balance
  exact ⟨by omega, fun he => hd.trans (h.keeps he), fun h0 hm => hp ▸ h.limit h0 hm⟩

lemma of_sameLayout (h : m.SameLayout m') : Tallied c e m 0 m' :=
  (refl m).congr_right h.patterns (Scope.held_congr h.scope) h.spliced

lemma sameLayout_left (h₀ : m.SameLayout m₁) (h : Tallied c e m₁ k m') : Tallied c e m k m' :=
  h.congr_left h₀.patterns (Scope.held_congr h₀.scope) h₀.spliced

lemma sameLayout_right (h : Tallied c e m k m₁) (h₁ : m₁.SameLayout m') : Tallied c e m k m' :=
  h.congr_right h₁.patterns (Scope.held_congr h₁.scope) h₁.spliced

/-- Making one more node, which the node limit allowed. -/
lemma count (h : Tallied c e m k m₁)
    (hlim : ¬(0 < c.config.maxPatterns ∧ c.config.maxPatterns < m₁.patterns + 1))
    (hp : m'.patterns = m₁.patterns + 1) (hs : m'.scope = m₁.scope)
    (hd : m'.spliced = m₁.spliced) (hk : k' = k + 1) : Tallied c e m k' m' := by
  have hb := h.balance
  refine ⟨by rw [hs]; omega, fun he => hd.trans (h.keeps he), fun h0 hm => ?_⟩
  have := h.limit h0 hm
  omega

/-- Adding nodes to the innermost frame. -/
lemma extend {ns : List Node} (h : Tallied c e m k m₁) (hk : k = k' + Node.forestCount ns) :
    Tallied c e m k' { m₁ with scope := m₁.scope.extendMembers ns } := by
  have hb := h.balance
  exact ⟨by simp only [Scope.held_extendMembers]; omega, h.keeps, h.limit⟩

/-- Closing the innermost frame: what it held is counted by the run. -/
lemma pop (h : Tallied c e m k m₁) :
    Tallied c e m (k + Node.forestCount m₁.scope.pop.1.members)
      { m₁ with scope := m₁.scope.pop.2 } := by
  have hb := h.balance
  have hpop := Scope.held_pop m₁.scope
  exact ⟨by dsimp only; omega, h.keeps, h.limit⟩

/-- Handing a node's children to the innermost frame and dropping the node itself, which is
one node when it has no pointee; a run that is to drop nothing does not do it. -/
lemma splice {N : Node} (h : Tallied c e m N.nodeCount m₁) (hN : N.kind.nodeCount = 0)
    (he : e' → False) :
    Tallied c e' m 0
      { m₁ with scope := m₁.scope.extendMembers N.children, spliced := m₁.spliced + 1 } := by
  have hb := h.balance
  have hcount := Node.nodeCount_eq N
  exact ⟨by simp only [Scope.held_extendMembers]; omega, fun h' => (he h').elim, h.limit⟩

/-- Emitting a node built by a counted run: the node, restyled, is added to the frame, or,
when it is inlined, its children are and it is dropped, which a run that is to drop nothing
does not ask for. Only a compound, or the node of a type that has no pointee, is inlined. -/
lemma emitted {N : Node} {inline : Bool} {attrs : List Attribute}
    (h : Tallied c e m N.nodeCount m₁) (hN : inline = true → N.kind.nodeCount = 0)
    (hemit : ∃ n' inl, N.Restyled n' ∧ (inl = true → Attribute.Inline attrs ∧ n'.isCompound) ∧
      m' = { m₁ with
        scope := m₁.scope.extendMembers (if (inl || inline) = true then n'.children else [n'])
        spliced := if (inl || inline) = true then m₁.spliced + 1 else m₁.spliced })
    (he : e' → e ∧ ¬ Attribute.Inline attrs ∧ inline = false) : Tallied c e' m 0 m' := by
  obtain ⟨n', inl, hr, hinl, rfl⟩ := hemit
  rw [← hr.nodeCount_eq] at h
  split
  · rename_i hsplice
    rcases Bool.or_eq_true_iff.mp hsplice with hi | hi
    · -- the declaration inlines a compound, which has no pointee
      refine h.splice (Node.kind_nodeCount_of_isCompound (hinl hi).2) fun h' => ?_
      exact (he h').2.1 (hinl hi).1
    · -- the type asks for inlining, and its node has no pointee
      refine h.splice (by rw [hr.kind_eq]; exact hN hi) fun h' => ?_
      simp [(he h').2.2] at hi
  · exact (h.extend (by simp)).weaken fun h' => (he h').1

end Tallied

/-- What an element loop counts, started with the earlier elements `acc` (most recent
first): the result is those elements followed by new ones, and the new ones are counted. -/
def ElementsTallied (c : Context) (exact : Prop) (m : Machine) (acc r : List Node)
    (m' : Machine) : Prop :=
  ∃ es, r = acc.reverse ++ es ∧ Tallied c exact m (Node.forestCount es) m'

namespace ElementsTallied

variable {c : Context} {e : Prop} {m m₁ m' : Machine} {acc r : List Node}

lemma done : ElementsTallied c e m acc acc.reverse m :=
  ⟨[], by simp, .refl m⟩

lemma of_sameLayout (h₀ : m.SameLayout m₁) (h : ElementsTallied c e m₁ acc r m') :
    ElementsTallied c e m acc r m' :=
  h.imp fun _ h => ⟨h.1, h.2.sameLayout_left h₀⟩

/-- An element built and counted, then the rest of the loop. -/
lemma cons {x : Node} (h₁ : Tallied c e m x.nodeCount m₁)
    (h₂ : ElementsTallied c e m₁ (x :: acc) r m') : ElementsTallied c e m acc r m' := by
  obtain ⟨es, rfl, h₂⟩ := h₂
  exact ⟨x :: es, by simp, h₁.trans h₂⟩

end ElementsTallied

/-- What each builder counts at one fuel: a builder of a node counts the nodes it returns,
a builder of members none beyond what it adds to the frames and drops, and each drops none
when what it builds splices nothing. The node of a type has no pointee, so that dropping it
drops one node. -/
structure TallySpec (fuel : Nat) : Prop where
  buildMember : ∀ s c m, Wp (buildMember fuel s) c m fun _ m' =>
    Tallied c (s.KeepsNodes c.program) m 0 m'
  buildVar : ∀ name ty pl attrs c m, Wp (buildVar fuel name ty pl attrs) c m fun _ m' =>
    Tallied c (ty.KeepsNodes c.program ∧ ¬ Attribute.Inline attrs) m 0 m'
  buildType : ∀ ty name c m, Wp (buildType fuel ty name) c m fun b m' =>
    Tallied c (ty.KeepsNodes c.program) m b.node.nodeCount m' ∧
      (ty.KeepsNodes c.program → b.inline = false) ∧ b.node.kind.nodeCount = 0
  buildBody : ∀ ty name c m, Wp (buildBody fuel ty name) c m fun b m' =>
    Tallied c (ty.KeepsNodes c.program) m b.node.nodeCount m' ∧
      (ty.KeepsNodes c.program → b.inline = false) ∧ b.node.kind.nodeCount = 0
  buildStruct : ∀ bases members name tn c m, Wp (buildStruct fuel bases members name tn) c m
    fun N m' => Tallied c (bases = [] ∧ ∀ s ∈ members, s.KeepsNodes c.program) m N.nodeCount m' ∧
      N.kind.nodeCount = 0
  buildUnion : ∀ members name tn c m, Wp (buildUnion fuel members name tn) c m
    fun N m' => Tallied c (∀ s ∈ members, s.KeepsNodes c.program) m N.nodeCount m' ∧
      N.kind.nodeCount = 0
  buildEnum : ∀ u es name tn c m, Wp (buildEnum fuel u es name tn) c m
    fun N m' => Tallied c True m N.nodeCount m' ∧ N.kind.nodeCount = 0
  buildBitfield : ∀ es name tn c m, Wp (buildBitfield fuel es name tn) c m
    fun N m' => Tallied c True m N.nodeCount m' ∧ N.kind.nodeCount = 0
  buildArray : ∀ name ty size c m, Wp (buildArray fuel name ty size) c m
    fun N m' => Tallied c (ty.KeepsNodes c.program) m N.nodeCount m'
  buildElement : ∀ ty i c m, Wp (buildElement fuel ty i) c m
    fun N m' => Tallied c (ty.KeepsNodes c.program) m N.nodeCount m'
  fixedElements : ∀ ty i n acc c m, Wp (fixedElements fuel ty i n acc) c m
    (ElementsTallied c (ty.KeepsNodes c.program) m acc)
  whileElements : ∀ ty cnd count acc c m, Wp (whileElements fuel ty cnd count acc) c m
    (ElementsTallied c (ty.KeepsNodes c.program) m acc)
  unsizedElements : ∀ ty count acc c m, Wp (unsizedElements fuel ty count acc) c m
    (ElementsTallied c (ty.KeepsNodes c.program) m acc)
  buildString : ∀ name ty size unit c m, Wp (buildString fuel name ty size unit) c m
    fun N m' => Tallied c True m N.nodeCount m'
  whileChars : ∀ cnd start unit c m, Wp (whileChars fuel cnd start unit) c m
    fun _ m' => Tallied c True m 0 m'
  unsizedChars : ∀ unit c m, Wp (unsizedChars fuel unit) c m fun _ m' => Tallied c True m 0 m'
  buildPointer : ∀ name target addrType addrEndian attrs c m,
    Wp (buildPointer fuel name target addrType addrEndian attrs) c m
      fun N m' => Tallied c (target.KeepsNodes c.program) m N.nodeCount m'

/-! ### Leaves: builtins, enums, bitfields, strings -/

section Steps

variable {fuel : Nat} {c : Context} {m : Machine}

lemma buildBuiltin_tally (b : Builtin) (name tn : String) :
    Wp (Eval.buildBuiltin b name tn) c m fun N m' =>
      Tallied c True m N.nodeCount m' ∧ N.kind.nodeCount = 0 := by
  unfold Eval.buildBuiltin
  split
  · simp only [wp_bind, wp_pure, wp_cursor, wp_checkRange, wp_newNode, wp_setCursor]
    intro _ hlim
    exact ⟨(Tallied.refl m).count hlim rfl rfl rfl (by simp [Node.nodeCount_eq, Node.fresh]),
      by simp [Node.fresh]⟩
  · split <;> simp

lemma buildEnum_tally (u : Builtin) (es : List EnumEntry) (name tn : String) :
    Wp (buildEnum (fuel + 1) u es name tn) c m fun N m' =>
      Tallied c True m N.nodeCount m' ∧ N.kind.nodeCount = 0 := by
  rcases hs : u.size? with _ | size <;> simp only [buildEnum, hs, wp_bind, wp_pure, wp_fault]
  refine ((exprKeepsLayout fuel).enumEntries u es).wp (.refl m) fun t m₁ h₁ => ?_
  simp only [wp_cursor, wp_checkRange, wp_newNode, wp_setCursor]
  intro _ hlim
  exact ⟨(Tallied.of_sameLayout h₁).count hlim rfl rfl rfl
    (by simp [Node.nodeCount_eq, Node.fresh, NodeKind.nodeCount]),
    by simp [Node.fresh, NodeKind.nodeCount]⟩

lemma buildBitfield_tally (es : List BitfieldEntry) (name tn : String) :
    Wp (buildBitfield (fuel + 1) es name tn) c m fun N m' =>
      Tallied c True m N.nodeCount m' ∧ N.kind.nodeCount = 0 := by
  simp only [buildBitfield, wp_bind, wp_cursor]
  -- each field that is not padding is a node, counted as it is made
  refine (wp_foldlM es _ (fun (r : Nat × List Node) m' => Tallied c True m (Node.forestCount r.2) m')
    ?_ _ m (.refl m)).mono fun r m₁ h₁ => ?_
  · rintro e - ⟨off, fields⟩ m' h'
    simp only [wp_bind]
    refine ((exprKeepsLayout fuel).evalExpr e.width).wp (.refl m') fun v m₂ h₂ => ?_
    simp only [wp_lift, wp_ite, wp_fault, wp_pure, wp_newNode, wp_bind]
    intro w _
    refine ⟨fun _ => trivial, fun _ => ⟨fun _ => h'.sameLayout_right h₂, fun _ hlim => ?_⟩⟩
    exact (h'.sameLayout_right h₂).count hlim rfl rfl rfl
      (by simp [Node.nodeCount_eq, Node.fresh, NodeKind.nodeCount]; omega)
  · -- the fields, resized to the bitfield, are its children
    obtain ⟨bits, fields⟩ := r
    simp only [wp_checkRange, wp_setCursor, wp_newNode, wp_pure]
    intro _ hlim
    refine ⟨h₁.count hlim rfl rfl rfl ?_, by simp [Node.fresh, NodeKind.nodeCount]⟩
    simp only [Node.nodeCount_eq (Node.mk _ _ _ _ _ _ _ _ _ _ _ _ _), Node.fresh]
    rw [Node.forestCount_map (f := fun g => { g with size := (bits + 7) / 8 })
      fun g _ => Node.nodeCount_congr rfl rfl, Node.forestCount_reverse]
    simp [NodeKind.nodeCount]
    omega

lemma whileChars_tally (ih : TallySpec fuel) (cnd : Expr) (start unit : Nat) :
    Wp (whileChars (fuel + 1) cnd start unit) c m fun _ m' => Tallied c True m 0 m' := by
  simp only [whileChars, wp_bind]
  refine ((exprKeepsLayout fuel).evalExpr cnd).wp (.refl m) fun v m₁ h₁ => ?_
  simp only [wp_truth, wp_ite, wp_tick, wp_cursor, wp_checkArrayLength, wp_checkRange,
    wp_setCursor, wp_pure, wp_bind]
  intro b _
  refine ⟨fun _ _ _ _ => ?_, fun _ => .of_sameLayout h₁⟩
  exact (ih.whileChars cnd start unit c _).mono fun _ m₂ h₂ =>
    (h₂.congr_left (m := m₁) rfl rfl rfl).sameLayout_left h₁

lemma unsizedChars_tally (ih : TallySpec fuel) (unit : Nat) :
    Wp (unsizedChars (fuel + 1) unit) c m fun _ m' => Tallied c True m 0 m' := by
  simp only [unsizedChars, wp_bind, wp_cursor, wp_read, wp_ite, wp_fault, wp_tick, wp_readBytes,
    wp_setCursor, wp_pure, implies_true, true_and]
  refine fun _ => ⟨fun _ _ bs _ => ⟨fun _ => ?_, fun _ => (Tallied.refl m).congr_right rfl rfl rfl⟩,
    fun _ => .refl m⟩
  exact (ih.unsizedChars unit c _).mono fun _ m₂ h₂ => h₂.congr_left rfl rfl rfl

/-- The node of a string, one node whatever its characters. -/
lemma wp_stringNode_tally {m₁ : Machine} (name : String) (ty : TypeDecl) (unit : Nat)
    (h : Tallied c True m 0 m₁) :
    Wp (do
      let k ← cursor
      if unit = 1 then do
        let node ← newNode name "char" m.cursor (k - m.cursor) .string
        return if ty.endian.isSome then { node with endian := ty.endian } else node
      else do
        let node ← newNode name "char16" m.cursor (k - m.cursor) .string16
        return if ty.endian.isSome then { node with endian := ty.endian } else node) c m₁
      fun N m' => Tallied c True m N.nodeCount m' := by
  simp only [wp_cursor, wp_bind, wp_ite, wp_newNode, wp_pure]
  constructor <;> intro _ hlim <;> refine h.count hlim rfl rfl rfl ?_ <;> split <;>
    simp [Node.nodeCount_eq, Node.fresh, NodeKind.nodeCount]

lemma buildString_tally (ih : TallySpec fuel) (name : String) (ty : TypeDecl) (size : ArraySize)
    (unit : Nat) :
    Wp (buildString (fuel + 1) name ty size unit) c m fun N m' => Tallied c True m N.nodeCount m' := by
  rw [buildString, wp_bind, wp_cursor]
  rcases size with count | cnd | _ <;> dsimp only
  · rw [wp_bind]
    refine ((exprKeepsLayout fuel).evalExpr count).wp (.refl m) fun v m₁ h₁ => ?_
    rw [wp_bind, wp_lift]
    intro n _
    rw [wp_bind, wp_checkArrayLength]
    intro _
    split
    · simp
    · rw [wp_bind, wp_checkRange]
      intro _
      rw [wp_bind, wp_setCursor]
      exact wp_stringNode_tally name ty unit ((Tallied.of_sameLayout h₁).congr_right rfl rfl rfl)
  · rw [wp_bind]
    exact (ih.whileChars cnd m.cursor unit c m).mono fun _ m₁ h₁ =>
      wp_stringNode_tally name ty unit h₁
  · rw [wp_bind]
    exact (ih.unsizedChars unit c m).mono fun _ m₁ h₁ => wp_stringNode_tally name ty unit h₁

/-! ### Arrays -/

lemma buildElement_tally (ih : TallySpec fuel) (ty : TypeDecl) (i : Nat) :
    Wp (buildElement (fuel + 1) ty i) c m
      fun N m' => Tallied c (ty.KeepsNodes c.program) m N.nodeCount m' := by
  simp only [buildElement, wp_bind, wp_tick, wp_pure]
  intro _
  exact (ih.buildType ty _ c _).mono fun b m₁ h₁ => h₁.1.congr_left rfl rfl rfl

lemma fixedElements_tally (ih : TallySpec fuel) (ty : TypeDecl) (i n : Nat) (acc : List Node) :
    Wp (fixedElements (fuel + 1) ty i n acc) c m
      (ElementsTallied c (ty.KeepsNodes c.program) m acc) := by
  simp only [fixedElements, wp_ite, wp_bind, wp_pure]
  exact ⟨fun _ => (ih.buildElement ty i c m).mono fun e m₁ h₁ =>
      (ih.fixedElements ty (i + 1) n (e :: acc) c m₁).mono fun _ _ h₂ => .cons h₁ h₂,
    fun _ => .done⟩

lemma whileElements_tally (ih : TallySpec fuel) (ty : TypeDecl) (cnd : Expr) (count : Nat)
    (acc : List Node) :
    Wp (whileElements (fuel + 1) ty cnd count acc) c m
      (ElementsTallied c (ty.KeepsNodes c.program) m acc) := by
  simp only [whileElements, wp_bind]
  refine ((exprKeepsLayout fuel).evalExpr cnd).wp (.refl m) fun v m₁ h₁ => ?_
  simp only [wp_truth, wp_ite, wp_checkArrayLength, wp_bind, wp_pure]
  intro b _
  refine ⟨fun _ _ => (ih.buildElement ty count c m₁).mono fun e m₂ h₂ => ?_,
    fun _ => ElementsTallied.done.of_sameLayout h₁⟩
  exact (ih.whileElements ty cnd (count + 1) (e :: acc) c m₂).mono fun _ _ h₃ =>
    (ElementsTallied.cons h₂ h₃).of_sameLayout h₁

lemma unsizedElements_tally (ih : TallySpec fuel) (ty : TypeDecl) (count : Nat)
    (acc : List Node) :
    Wp (unsizedElements (fuel + 1) ty count acc) c m
      (ElementsTallied c (ty.KeepsNodes c.program) m acc) := by
  simp only [unsizedElements, wp_bind, wp_cursor, wp_read, wp_ite, wp_checkArrayLength,
    wp_readBytes, wp_pure]
  refine ⟨fun _ _ => (ih.buildElement ty count c m).mono fun e m₁ h₁ bs _ => ⟨fun _ => ?_,
    fun _ => ?_⟩, fun _ => .done⟩
  · -- the all-zero element ends the array
    exact .cons h₁ .done
  · exact (ih.unsizedElements ty (count + 1) (e :: acc) c m₁).mono fun _ _ h₂ => .cons h₁ h₂

/-- The array node over its elements reaches them and itself. -/
lemma wp_arrayNode_tally {m₁ : Machine} {e : Prop} {ty : TypeDecl} {es : List Node}
    (name : String) (h : ElementsTallied c e m [] es m₁) :
    Wp (do
      let k ← cursor
      let node ← newNode name ty.displayName m.cursor (k - m.cursor) .array
      return { node with children := es }) c m₁ fun N m' => Tallied c e m N.nodeCount m' := by
  obtain ⟨es', hes, h⟩ := h
  rw [List.reverse_nil, List.nil_append] at hes
  subst hes
  simp only [wp_cursor, wp_bind, wp_newNode, wp_pure]
  intro hlim
  exact h.count hlim rfl rfl rfl (by simp [Node.nodeCount_eq, Node.fresh, NodeKind.nodeCount]; omega)

lemma buildArray_tally (ih : TallySpec fuel) (name : String) (ty : TypeDecl) (size : ArraySize) :
    Wp (buildArray (fuel + 1) name ty size) c m
      fun N m' => Tallied c (ty.KeepsNodes c.program) m N.nodeCount m' := by
  simp only [buildArray]
  split
  · exact (ih.buildString name ty size 1 c m).mono fun _ _ h => h.weaken fun _ => trivial
  · exact (ih.buildString name ty size 2 c m).mono fun _ _ h => h.weaken fun _ => trivial
  · rw [wp_bind, wp_cursor]
    rcases size with count | cnd | _ <;> dsimp only <;> rw [wp_bind]
    · refine ((exprKeepsLayout fuel).evalExpr count).wp (.refl m) fun v m₁ h₁ => ?_
      rw [wp_bind, wp_lift]
      intro n _
      rw [wp_bind, wp_checkArrayLength]
      intro _
      rw [wp_bind]
      exact (ih.fixedElements ty 0 n [] c m₁).mono fun es m₂ h₂ =>
        wp_arrayNode_tally name (h₂.of_sameLayout h₁)
    · exact (ih.whileElements ty cnd 0 [] c m).mono fun es m₂ h₂ => wp_arrayNode_tally name h₂
    · exact (ih.unsizedElements ty 0 [] c m).mono fun es m₂ h₂ => wp_arrayNode_tally name h₂

/-! ### Pointers -/

lemma buildPointer_tally (ih : TallySpec fuel) (name : String) (target : TypeDecl)
    (addrType : Builtin) (addrEndian : Option Endian) (attrs : List Attribute) :
    Wp (buildPointer (fuel + 1) name target addrType addrEndian attrs) c m
      fun N m' => Tallied c (target.KeepsNodes c.program) m N.nodeCount m' := by
  -- the pointer node reaches its pointee, built at the address and counted there
  simp only [buildPointer]
  rcases hw : addrType.size? with _ | w
  · simp
  · simp only [wp_pure, wp_cursor, wp_endianFor, wp_readBytes, wp_setCursor, wp_bind]
    intro bs hbs
    split
    · simp only [wp_pure, wp_ite, wp_fault, wp_bind, wp_atOffset, wp_newNode, wp_get]
      refine ⟨fun _ => trivial, fun _ => (ih.buildType target name c _).mono
        fun b m₄ h₄ hlim => ?_⟩
      exact (h₄.1.congr_left (m := m) rfl rfl rfl).count hlim rfl rfl rfl
        (by rw [Node.nodeCount_eq]; simp [Node.fresh, NodeKind.nodeCount]; omega)
    · rename_i attr hsome
      rw [wp_bind, wp_withLine]
      refine (wp_pointerBase fuel attr _).mono fun a m₂ h₂ => ?_
      simp only [wp_pure, wp_ite, wp_fault, wp_bind, wp_atOffset, wp_newNode, wp_get]
      refine ⟨fun _ => trivial, fun _ => (ih.buildType target name c _).mono
        fun b m₄ h₄ hlim => ?_⟩
      have h₄' : Tallied c (target.KeepsNodes c.program) m b.node.nodeCount m₄ :=
        ((h₄.1.congr_left (m := m₂) rfl rfl rfl).sameLayout_left h₂).congr_left rfl rfl rfl
      exact h₄'.count hlim rfl rfl rfl
        (by rw [Node.nodeCount_eq]; simp [Node.fresh, NodeKind.nodeCount]; omega)

/-! ### Types -/

lemma buildType_tally (ih : TallySpec fuel) (ty : TypeDecl) (name : String) :
    Wp (buildType (fuel + 1) ty name) c m fun b m' =>
      Tallied c (ty.KeepsNodes c.program) m b.node.nodeCount m' ∧
        (ty.KeepsNodes c.program → b.inline = false) ∧ b.node.kind.nodeCount = 0 := by
  -- the body is built from the count and frames of `m`; the type's attributes restyle it, and
  -- ask for inlining only where the program does
  rw [wp_buildType]
  intro _
  refine (ih.buildBody ty name c _).mono fun b m₂ h₂ => ?_
  refine (wp_applyAttributes b.node ty.attrs).mono fun r m₃ h => ?_
  obtain ⟨h₃, hr, hi⟩ := h
  subst h₃
  refine ⟨?_, fun hk => ?_, ?_⟩
  · rw [hr.nodeCount_eq]
    exact (h₂.1.congr_left (m := m) rfl rfl rfl).congr_right rfl rfl rfl
  · have hinl : r.2 = false := by
      cases hr2 : r.2
      · rfl
      · exact absurd (hi hr2).1 (hk.1.types ty hk.2)
    simp [h₂.2.1 hk, hinl]
  · rw [hr.kind_eq]
    exact h₂.2.2

lemma buildBody_tally (ih : TallySpec fuel) (ty : TypeDecl) (name : String) :
    Wp (buildBody (fuel + 1) ty name) c m fun b m' =>
      Tallied c (ty.KeepsNodes c.program) m b.node.nodeCount m' ∧
        (ty.KeepsNodes c.program → b.inline = false) ∧ b.node.kind.nodeCount = 0 := by
  simp only [buildBody]
  rcases hb : ty.body with b | ⟨bases, ms⟩ | ms | ⟨u, es⟩ | es | inner | q
  case builtin =>
    simp only [wp_bind, wp_pure]
    exact (buildBuiltin_tally b name _).mono fun N m' h =>
      ⟨h.1.weaken fun _ => trivial, fun _ => trivial, h.2⟩
  case struct =>
    simp only [wp_bind, wp_pure]
    exact (ih.buildStruct bases ms name _ c m).mono fun N m' h =>
      ⟨h.1.weaken fun hk => hk.struct hb, fun _ => trivial, h.2⟩
  case union =>
    simp only [wp_bind, wp_pure]
    exact (ih.buildUnion ms name _ c m).mono fun N m' h =>
      ⟨h.1.weaken fun hk => hk.union hb, fun _ => trivial, h.2⟩
  case enum =>
    simp only [wp_bind, wp_pure]
    exact (ih.buildEnum u es name _ c m).mono fun N m' h =>
      ⟨h.1.weaken fun _ => trivial, fun _ => trivial, h.2⟩
  case bitfield =>
    simp only [wp_bind, wp_pure]
    exact (ih.buildBitfield es name _ c m).mono fun N m' h =>
      ⟨h.1.weaken fun _ => trivial, fun _ => trivial, h.2⟩
  case «alias» =>
    simp only [wp_bind, wp_pure]
    -- the alias builds its target under its own name
    refine (ih.buildType inner name c m).mono fun b m' h =>
      ⟨?_, fun hk => h.2.1 (hk.target hb), h.2.2⟩
    have hcount : ({ b.node with typeName := ty.displayName } : Node).nodeCount =
        b.node.nodeCount :=
      Node.nodeCount_congr rfl rfl
    rw [hcount]
    exact h.1.weaken fun hk => hk.target hb
  case forward =>
    simp only [wp_bind, wp_read]
    split
    · rename_i d hq
      exact (ih.buildType d name c m).mono fun b m' h =>
        ⟨h.1.weaken fun hk => hk.forward hq, fun hk => h.2.1 (hk.forward hq), h.2.2⟩
    · simp

/-! ### Compounds -/

lemma buildStruct_tally (ih : TallySpec fuel) (bases : List TypeDecl) (ms : List Stmt)
    (name tn : String) :
    Wp (buildStruct (fuel + 1) bases ms name tn) c m fun N m' =>
      Tallied c (bases = [] ∧ ∀ s ∈ ms, s.KeepsNodes c.program) m N.nodeCount m' ∧
        N.kind.nodeCount = 0 := by
  -- the struct's frame gathers what the bases hand over and what the members add; a base's
  -- own node is dropped, which a struct with no base never does
  let e : Prop := bases = [] ∧ ∀ s ∈ ms, s.KeepsNodes c.program
  let m₀ : Machine := { m with scope := m.scope.push .compound m.cursor tn }
  have hbase : ∀ base ∈ bases, ∀ m', Tallied c e m₀ 0 m' → Wp (do
      let inherited ← buildType fuel base ""
      splice inherited.node) c m' fun _ m'' => Tallied c e m₀ 0 m'' := by
    intro base hbase m' h'
    simp only [wp_bind, wp_splice]
    refine (ih.buildType base "" c m').mono fun b m'' hb => ?_
    exact h'.trans (hb.1.splice hb.2.2 fun he => by simp [he.1] at hbase)
  have hmember : ∀ s ∈ ms, ∀ m', Tallied c e m₀ 0 m' →
      Wp (buildMember fuel s) c m' fun _ m'' => Tallied c e m₀ 0 m'' :=
    fun s hs m' h' => (ih.buildMember s c m').mono fun _ _ h =>
      h'.trans (h.weaken fun he => he.2 s hs)
  simp only [buildStruct, wp_bind, wp_cursor, wp_pushFrame, wp_attempt, wp_popFrame,
    wp_ofExcept_ok, wp_ofExcept_error, wpFail_true, and_true]
  refine (wp_forM bases _ _ hbase m₀ (.refl m₀)).mono fun _ m₁ h₁ => ?_
  refine (wp_forM ms _ _ hmember m₁ h₁).mono fun _ m₂ h₂ => ?_
  simp only [wp_newNode, wp_pure]
  intro hlim
  -- the struct's children are what its frame held
  exact ⟨(h₂.congr_left (m := m) rfl (Scope.held_push _ _ _ _) rfl).pop.count hlim rfl rfl rfl
    (by simp [Node.nodeCount_eq, Node.fresh, NodeKind.nodeCount]; omega),
    by simp [Node.fresh, NodeKind.nodeCount]⟩

lemma buildUnion_tally (ih : TallySpec fuel) (ms : List Stmt) (name tn : String) :
    Wp (buildUnion (fuel + 1) ms name tn) c m fun N m' =>
      Tallied c (∀ s ∈ ms, s.KeepsNodes c.program) m N.nodeCount m' ∧
        N.kind.nodeCount = 0 := by
  -- every member is built from the start again, into the union's own frame
  let e : Prop := ∀ s ∈ ms, s.KeepsNodes c.program
  let m₀ : Machine := { m with scope := m.scope.push .compound m.cursor tn }
  have hmember : ∀ s ∈ ms, ∀ (size : Nat) m', Tallied c e m₀ 0 m' → Wp (do
      setCursor m.cursor
      buildMember fuel s
      return max size ((← cursor) - m.cursor)) c m' fun _ m'' => Tallied c e m₀ 0 m'' := by
    intro s hs size m' h'
    simp only [wp_bind, wp_setCursor, wp_cursor, wp_pure]
    exact (ih.buildMember s c _).mono fun _ _ h =>
      h'.trans ((h.weaken fun he => he s hs).congr_left rfl rfl rfl)
  simp only [buildUnion, wp_bind, wp_cursor, wp_pushFrame, wp_attempt, wp_popFrame,
    wp_ofExcept_ok, wp_ofExcept_error, wpFail_true, and_true]
  refine (wp_foldlM ms _ (fun _ m' => Tallied c e m₀ 0 m') hmember 0 m₀ (.refl m₀)).mono
    fun size m₁ h₁ => ?_
  simp only [wp_setCursor, wp_newNode, wp_pure]
  intro hlim
  exact ⟨(h₁.congr_left (m := m) rfl (Scope.held_push _ _ _ _) rfl).pop.count hlim rfl rfl rfl
    (by simp [Node.nodeCount_eq, Node.fresh, NodeKind.nodeCount]; omega),
    by simp [Node.fresh, NodeKind.nodeCount]⟩

/-! ### Members -/

/-- A build where a placement says counts what the build counts: at the cursor, or at an
address with the cursor put back. -/
lemma wp_place_tally {α : Type} {e : Prop} {K : α → Nat} {Q : α → Prop} (build : Eval α)
    (pl : Placement) (hbuild : ∀ m, Wp build c m fun a m' => Tallied c e m (K a) m' ∧ Q a) :
    Wp (place (evalExpr fuel) pl build) c m fun a m' => Tallied c e m (K a) m' ∧ Q a := by
  cases pl with
  | cursor => exact hbuild m
  | atOffset e =>
    simp only [place, wp_bind]
    refine ((exprKeepsLayout fuel).evalExpr e).wp (.refl m) fun v m₁ h₁ => ?_
    simp only [wp_lift, wp_ite, wp_fault, wp_atOffset, wp_bind]
    intro a _
    refine ⟨fun _ => trivial, fun _ => (hbuild _).mono fun x m₂ h => ⟨?_, h.2⟩⟩
    exact ((h.1.congr_left (m := m₁) rfl rfl rfl).sameLayout_left h₁).congr_right rfl rfl rfl
  | input | output => simp [place]

lemma buildVar_tally (ih : TallySpec fuel) (name : String) (ty : TypeDecl) (pl : Placement)
    (attrs : List Attribute) :
    Wp (buildVar (fuel + 1) name ty pl attrs) c m fun _ m' =>
      Tallied c (ty.KeepsNodes c.program ∧ ¬ Attribute.Inline attrs) m 0 m' := by
  cases pl with
  | input =>
    simp only [buildVar]
    exact (declareHost_keepsLayout name ty true).wp (.refl m) fun _ m' h => .of_sameLayout h
  | output =>
    simp only [buildVar]
    exact (declareHost_keepsLayout name ty false).wp (.refl m) fun _ m' h => .of_sameLayout h
  | cursor | atOffset =>
    simp only [buildVar, wp_bind]
    refine (wp_place_tally _ _ fun m' => ih.buildType ty name c m').mono fun b m₁ hb => ?_
    exact (wp_emit b.node b.inline attrs).mono fun _ m' h =>
      hb.1.emitted (fun _ => hb.2.2) h fun he => ⟨he.1, he.2, hb.2.1 he.1⟩

/-- A node built where a placement says and emitted under the declaration's attributes. -/
lemma wp_placeEmit_tally {ty : TypeDecl} (build : Eval Node) (pl : Placement)
    (attrs : List Attribute) {m₀ : Machine} (h₀ : m₀.SameLayout m)
    (hbuild : ∀ m, Wp build c m fun N m' => Tallied c (ty.KeepsNodes c.program) m N.nodeCount m') :
    Wp (place (evalExpr fuel) pl build) c m fun N m' => Wp (emit N false attrs) c m'
      fun _ m'' => Tallied c (ty.KeepsNodes c.program ∧ ¬ Attribute.Inline attrs) m₀ 0 m'' := by
  refine (wp_place_tally (Q := fun _ => True) _ pl fun m' => (hbuild m').mono
    fun N m'' h => ⟨h, trivial⟩).mono fun N m₁ h => ?_
  exact (wp_emit N false attrs).mono fun _ m' h' =>
    (h.1.sameLayout_left h₀).emitted (fun h => absurd h Bool.false_ne_true) h'
      fun he => ⟨he.1, he.2, rfl⟩

lemma buildMember_tally (ih : TallySpec fuel) (s : Stmt) :
    Wp (buildMember (fuel + 1) s) c m fun _ m' => Tallied c (s.KeepsNodes c.program) m 0 m' := by
  -- the step count is not part of the count of nodes
  have h₀ : m.SameLayout { m with steps := m.steps + 1 } := ⟨rfl, rfl, rfl, rfl, rfl⟩
  cases s
  all_goals
    simp only [buildMember, wp_withNode, wp_withLine, wp_bind, wp_tick, wp_fault, implies_true]
  all_goals try intro _
  case var name ty pl attrs sp _ =>
    exact (ih.buildVar name ty pl attrs c _).mono fun _ m' h =>
      (h.sameLayout_left h₀).weaken fun hk => ⟨⟨hk.1, hk.2.2 ty .var⟩, fun hi => hk.2.1 (.var hi)⟩
  case multi names ty sp _ =>
    -- each name is a variable of the type at the cursor, without attributes
    refine (wp_forM names _ (fun m' => Tallied c ((Stmt.multi names ty sp).KeepsNodes c.program)
      m 0 m') (fun n _ m' h' => ?_) _ (.of_sameLayout h₀)).mono fun _ m' h => h
    exact (ih.buildVar n ty .cursor [] c m').mono fun _ m'' h =>
      h'.trans (h.weaken fun hk => ⟨⟨hk.1, hk.2.2 ty .multi⟩, fun hi => by
        obtain ⟨a, ha, -⟩ := hi
        cases ha⟩)
  case array name ty size pl attrs sp _ =>
    exact (wp_placeEmit_tally _ pl attrs h₀ fun m' => ih.buildArray name ty size c m').mono
      fun N m₁ h => h.mono fun _ m' h' =>
        h'.weaken fun hk => ⟨⟨hk.1, hk.2.2 ty .array⟩, fun hi => hk.2.1 (.array hi)⟩
  case pointer name target addrType addrEndian pl attrs sp _ =>
    exact (wp_placeEmit_tally _ pl attrs h₀ fun m' =>
      ih.buildPointer name target addrType addrEndian attrs c m').mono
      fun N m₁ h => h.mono fun _ m' h' =>
        h'.weaken fun hk => ⟨⟨hk.1, hk.2.2 target .pointer⟩, fun hi => hk.2.1 (.pointer hi)⟩
  case padding size sp _ =>
    refine ((exprKeepsLayout fuel).evalExpr size).wp h₀ fun v m₁ h₁ => ?_
    simp only [wp_lift, wp_ite, wp_fault, wp_bind, wp_cursor, wp_checkRange, wp_newNode,
      wp_setCursor, wp_modifyScope, Scope.pushMember_eq]
    intro n _
    refine ⟨fun _ => trivial, fun _ _ hlim => ?_⟩
    -- the padding node goes straight into the frame
    have hmade : Tallied c True m 1
        { m₁ with patterns := m₁.patterns + 1, cursor := m₁.cursor + n } :=
      (Tallied.of_sameLayout h₁).count hlim rfl rfl rfl rfl
    exact (hmade.extend (by simp [Node.nodeCount_eq, Node.fresh, NodeKind.nodeCount])).weaken
      fun _ => trivial
  case ifElse cnd t els sp _ =>
    refine ((exprKeepsLayout fuel).evalExpr cnd).wp h₀ fun v m₁ h₁ => ?_
    simp only [truth, wp_lift]
    intro b _
    -- the branch taken adds what its members add; the other is not run
    cases b
    · exact wp_forM els _ (fun m' => Tallied c _ m 0 m')
        (fun s hs m' h' => (ih.buildMember s c m').mono fun _ _ h =>
          h'.trans (h.weaken fun hk => hk.elseBranch hs)) _ (.of_sameLayout h₁)
    · exact wp_forM t _ (fun m' => Tallied c _ m 0 m')
        (fun s hs m' h' => (ih.buildMember s c m').mono fun _ _ h =>
          h'.trans (h.weaken fun hk => hk.thenBranch hs)) _ (.of_sameLayout h₁)
  case exprStmt e sp _ =>
    exact ((exprKeepsLayout fuel).execExprStmt e).wp h₀ fun _ m' h => .of_sameLayout h
  case typeDef | function => exact (wp_pure _).mpr (.of_sameLayout h₀)

end Steps

/-- Every builder keeps its count at every fuel.

**Proof sketch.** Induction on the fuel, one lemma per builder, as for `buildSpec`. With no
fuel left every builder faults; with fuel, each builder counts what it makes when the
builders it calls count theirs at one fuel less. -/
theorem tallySpec (fuel : Nat) : TallySpec fuel := by
  induction fuel with
  | zero =>
    constructor <;> intros <;>
      simp [buildMember, buildVar, buildType, buildBody, buildStruct, buildUnion, buildEnum,
        buildBitfield, buildArray, buildElement, fixedElements, whileElements, unsizedElements,
        buildString, whileChars, unsizedChars, buildPointer]
  | succ fuel ih =>
    exact ⟨fun s _ _ => buildMember_tally ih s,
      fun name ty pl attrs _ _ => buildVar_tally ih name ty pl attrs,
      fun ty name _ _ => buildType_tally ih ty name, fun ty name _ _ => buildBody_tally ih ty name,
      fun bases ms name tn _ _ => buildStruct_tally ih bases ms name tn,
      fun ms name tn _ _ => buildUnion_tally ih ms name tn,
      fun u es name tn _ _ => buildEnum_tally u es name tn,
      fun es name tn _ _ => buildBitfield_tally es name tn,
      fun name ty size _ _ => buildArray_tally ih name ty size,
      fun ty i _ _ => buildElement_tally ih ty i,
      fun ty i n acc _ _ => fixedElements_tally ih ty i n acc,
      fun ty cnd count acc _ _ => whileElements_tally ih ty cnd count acc,
      fun ty count acc _ _ => unsizedElements_tally ih ty count acc,
      fun name ty size unit _ _ => buildString_tally ih name ty size unit,
      fun cnd start unit _ _ => whileChars_tally ih cnd start unit,
      fun unit _ _ => unsizedChars_tally ih unit,
      fun name target addrType addrEndian attrs _ _ =>
        buildPointer_tally ih name target addrType addrEndian attrs⟩

/-! ### The whole run -/

/-- The top-level declarations count what they leave in the global frame, which is the forest
the build returns, and what they dropped. -/
lemma wp_buildProgram_tally (fuel : Nat) (p : Program) (data : ByteArray) (config : RunConfig)
    (inputs : List (String × Value)) :
    Wp (buildProgram fuel p) (Context.of p data config) (Machine.initial inputs) fun ns m' =>
      m'.patterns = Node.forestCount ns + m'.spliced ∧
        (p.SplicesNothing → m'.spliced = 0) ∧
        (0 < config.maxPatterns → m'.patterns ≤ config.maxPatterns) := by
  unfold buildProgram
  simp only [wp_bind, wp_get, wp_pure]
  have hcount : Wp (p.stmts.forM (buildMember fuel)) (Context.of p data config)
      (Machine.initial inputs) fun _ m' =>
        Tallied (Context.of p data config) p.SplicesNothing (Machine.initial inputs) 0 m' :=
    wp_forM p.stmts _ _ (fun s hs m' h' => ((tallySpec fuel).buildMember s _ m').mono
      fun _ _ h => h'.trans (h.weaken fun hp => ⟨hp, hp.top s hs, fun _ hd => .declared hs hd⟩))
      _ (.refl _)
  -- at the end only the global frame is open, and it holds the forest
  have hlayout : Wp (p.stmts.forM (buildMember fuel)) (Context.of p data config)
      (Machine.initial inputs) fun _ m' => ∃ acc, Appended (Context.of p data config)
        (fun d => ∃ s ∈ p.stmts, s.Uses d) False (fun _ => True) (Machine.initial inputs) acc m' :=
    wp_members (buildSpec fuel) p.stmts _ (fun s hs d hd => ⟨s, hs, hd⟩) (fun _ _ h => h.elim)
      (fun _ _ _ _ => trivial) _ ⟨[], .nil _⟩
  refine (hcount.and hlayout).mono fun _ m' h => ?_
  obtain ⟨hc, acc, ha⟩ := h
  obtain ⟨hp₀, hs₀, hd₀⟩ : (Machine.initial inputs).patterns = 0 ∧
      (Machine.initial inputs).scope.held = 0 ∧ (Machine.initial inputs).spliced = 0 :=
    ⟨rfl, rfl, rfl⟩
  have hheld : m'.scope.held = Node.forestCount acc := by
    rw [Scope.held_congr ha.scope, Scope.held_extendMembers, hs₀, Nat.zero_add]
  rw [Scope.current_members_of_layout ha.scope, List.reverse_reverse]
  have hbalance := hc.balance
  exact ⟨by omega, fun hp => (hc.keeps hp).trans hd₀, fun h0 => hc.limit h0 (Nat.zero_le _)⟩

/-- **The node count of a run is its forest and what it dropped.** For every successful run,
the number of nodes it reports making is the number of nodes in the forest it returns,
counted through children and pointees, plus the number of nodes it made and then dropped
when it spliced their children into the enclosing frame: the node of each base of a struct,
of whatever type, and each node inlined by `[[inline]]`. A program that splices nothing, no
struct it builds having a base and nothing asking for `[[inline]]`, drops none; and when the
node limit is set, the count, hence the forest, stays within it.

**Proof sketch.** Each builder is `Tallied` (`tallySpec`): a node made adds one to the count
and to what the run returns; adding it to a frame moves it into what the frames hold, and a
splice moves its children there and records the node as dropped. So at the end of the
top-level declarations the count is what the global frame holds, which is the forest, and
what was dropped (`wp_buildProgram_tally`). Every node is made under the limit check. -/
theorem patternCount_eq_forest_add_spliced {p : Program} {data : ByteArray}
    {config : RunConfig} {inputs : List (String × Value)} {ev : Evaluation}
    (h : runProgram p data config inputs = .ok ev) :
    ev.patternCount = Node.forestCount ev.patterns + ev.spliced ∧
      (p.SplicesNothing → ev.spliced = 0) ∧
      (0 < config.maxPatterns → ev.patternCount ≤ config.maxPatterns) := by
  obtain ⟨ns, m', hrun, rfl⟩ := runProgram_eq_ok.mp h
  exact wp_buildProgram_tally Eval.fuel p data config inputs ns m' hrun

/-- `struct P { u8 a; u8 b; }; P p @ 0;` -/
def pairProgram : Program :=
  let byte := TypeDecl.ofBuiltin (.unsigned .w8) none default
  let pair : TypeDecl :=
    ⟨"P", none, .struct [] [.var "a" byte .cursor [] default, .var "b" byte .cursor [] default],
      [], default⟩
  ⟨[.typeDef pair default,
    .var "p" ⟨"", none, .forward "P", [], default⟩ (.atOffset (.lit (.int 0) default)) [] default],
    [("P", pair)]⟩

/-- The types `pairProgram` builds: the struct, the reference to it, and its members' byte. -/
lemma pairProgram_builds {d : TypeDecl} (h : pairProgram.Builds d) :
    d = ⟨"P", none, .struct [] [.var "a" (TypeDecl.ofBuiltin (.unsigned .w8) none default) .cursor
      [] default, .var "b" (TypeDecl.ofBuiltin (.unsigned .w8) none default) .cursor [] default],
      [], default⟩ ∨
    d = ⟨"", none, .forward "P", [], default⟩ ∨ d = TypeDecl.ofBuiltin (.unsigned .w8) none default := by
  induction h with
  | registered hq =>
    simp only [pairProgram, Program.typeNamed?, List.lookup] at hq
    split at hq <;> simp_all
  | declared hs hu =>
    simp only [pairProgram, List.mem_cons, List.not_mem_nil, or_false] at hs
    rcases hs with rfl | rfl
    · cases hu
    · cases hu
      exact .inr (.inl rfl)
  | part _ hpart ih =>
    rcases ih with rfl | rfl | rfl
    · rcases hpart with ⟨hb, hbase⟩ | ⟨hs, hu⟩ | hb
      · cases hb
        cases hbase
      · simp only [TypeBody.members, List.mem_cons, List.not_mem_nil, or_false] at hs
        rcases hs with rfl | rfl <;> cases hu <;> exact .inr (.inr rfl)
      · cases hb
    · rcases hpart with ⟨hb, -⟩ | ⟨hs, -⟩ | hb
      · cases hb
      · simp [TypeBody.members] at hs
      · cases hb
    · rcases hpart with ⟨hb, -⟩ | ⟨hs, -⟩ | hb
      · cases hb
      · simp [TypeBody.members, TypeDecl.ofBuiltin] at hs
      · cases hb

lemma pairProgram_splicesNothing : pairProgram.SplicesNothing := by
  refine ⟨fun d hd bases ms hb => ?_, fun d hd hi => ?_, fun d hd s hs hi => ?_, fun s hs hi => ?_⟩
  · rcases pairProgram_builds hd with rfl | rfl | rfl <;> cases hb
    rfl
  · obtain ⟨a, ha, -⟩ := hi
    rcases pairProgram_builds hd with rfl | rfl | rfl <;> cases ha
  · rcases pairProgram_builds hd with rfl | rfl | rfl
    · simp only [TypeBody.members, List.mem_cons, List.not_mem_nil, or_false] at hs
      rcases hs with rfl | rfl <;>
      · cases hi with
        | var ha =>
          obtain ⟨a, ha, -⟩ := ha
          cases ha
    · simp [TypeBody.members] at hs
    · simp [TypeBody.members, TypeDecl.ofBuiltin] at hs
  · simp only [pairProgram, List.mem_cons, List.not_mem_nil, or_false] at hs
    rcases hs with rfl | rfl
    · cases hi
    · cases hi with
      | var ha =>
        obtain ⟨a, ha, -⟩ := ha
        cases ha

/-- The struct `P` over two bytes: three nodes made, all of them in the forest. -/
theorem patternCount_eq_forest_add_spliced_pair :
    pairProgram.SplicesNothing ∧
      ∃ ev, runProgram pairProgram (ByteArray.mk #[1, 2]) RunConfig.standard [] = .ok ev ∧
        ev.patternCount = Node.forestCount ev.patterns + ev.spliced ∧
        (pairProgram.SplicesNothing → ev.spliced = 0) ∧
        (0 < RunConfig.standard.maxPatterns → ev.patternCount ≤ RunConfig.standard.maxPatterns) :=
  have hr := Except.eq_ok_get (by decide +kernel)
  ⟨pairProgram_splicesNothing, _, hr, patternCount_eq_forest_add_spliced hr⟩

/-- `enum E : u8 { A }; struct S : E { u8 x; }; S s @ 0;` -/
def tokensEnumBase : Array Token := #[
  tokenAt (.keyword "enum") 0 4, tokenAt (.ident "E") 5 6, tokenAt (.symbol ":") 7 8,
  tokenAt (.builtin (.unsigned .w8)) 9 11, tokenAt (.symbol "\x7b") 12 13,
  tokenAt (.ident "A") 14 15, tokenAt (.symbol "\x7d") 16 17, tokenAt (.symbol ";") 17 18,
  tokenAt (.keyword "struct") 19 25, tokenAt (.ident "S") 26 27, tokenAt (.symbol ":") 28 29,
  tokenAt (.ident "E") 30 31, tokenAt (.symbol "\x7b") 32 33,
  tokenAt (.builtin (.unsigned .w8)) 34 36, tokenAt (.ident "x") 37 38,
  tokenAt (.symbol ";") 38 39, tokenAt (.symbol "\x7d") 40 41, tokenAt (.symbol ";") 41 42,
  tokenAt (.ident "S") 43 44, tokenAt (.ident "s") 45 46, tokenAt (.symbol "@") 47 48,
  tokenAt (.int 0) 49 50, tokenAt (.symbol ";") 50 51, tokenAt .eof 51 51]

/-- A base's node is dropped even when it is no compound: the struct `S` inherits from the enum
`E`, whose node is made and counted, then dropped with its (empty) list of children. The run
counts three nodes; its forest holds two, `S` and its member `x`, and the one node dropped is
the enum's, so nothing compound was spliced away. -/
theorem enumBase_counted_not_kept :
    ∃ p, parseTokens tokensEnumBase = .ok p ∧
      ∃ ev, runProgram p (ByteArray.mk #[0, 0]) RunConfig.standard [] = .ok ev ∧
        ev.patternCount = 3 ∧ Node.forestCount ev.patterns = 2 ∧ ev.spliced = 1 ∧
        ev.patterns.map (fun N => (N.typeName, N.children.map Node.name)) = [("S", ["x"])] :=
  ⟨_, Except.eq_ok_get (by decide +kernel), _, Except.eq_ok_get (by decide +kernel),
    by decide +kernel⟩

end ByteLayout

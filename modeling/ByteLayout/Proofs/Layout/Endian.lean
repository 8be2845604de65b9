import Mathlib
import ByteLayout.Proofs.Eval.Invariant
import ByteLayout.Proofs.Layout.Fits

set_option autoImplicit false

/-!
# Byte orders of nodes

A type's `le` or `be` qualifier sets the byte order its body is built in, and the order it
replaced is put back when the body is done, or has failed: every evaluation ends in the
byte order it started in, however it ends (`Machine.EndianKept`). A leaf node takes the byte
order of the state it is made in, so a scalar, an enum or a bitfield reached through aliases
and forward references takes the innermost qualifier along that chain, else the one
inherited from the declarations around it (`TypeDecl.LeafEndian`, `buildType_leafEndian`); so
do a bitfield's fields.

Strings and pointers are made otherwise. A string is not built through its element type:
its node takes the qualifier written where the string is declared, else the inherited one.
So an alias of `char16` with a qualifier of its own, qualified again where a string of it is
declared, gives the string the outer qualifier and a scalar of it the inner one
(`requalifiedAlias_string_scalar_endian`). A pointer's node takes the qualifier of its address
type, else the inherited one, and its address is decoded in that order, else the document's.

## Main definitions

* `Machine.EndianKept` — a run ends in the byte order it started in.
* `Node.InOrder` — a node and its children carry one byte order.
* `TypeDecl.LeafEndian` — the innermost qualifier along a chain of aliases and forward
  references down to a builtin, an enum or a bitfield.

## Main results

* `buildType_leafEndian` — the node of such a chain takes its innermost qualifier.
* `byteOrder_of_nodes` — the byte order is put back after every evaluation, and the byte
  orders of scalar, enum, bitfield, string and pointer nodes.
* `requalifiedAlias_string_scalar_endian` — a string and a scalar of one re-qualified alias
  take different byte orders.
-/

namespace ByteLayout

open Eval

/-! ### The byte order is put back -/

/-- A run ends in the byte order it started in. -/
def Machine.EndianKept (_ : Context) (m₀ m : Machine) : Prop := m.endian = m₀.endian

/-- Every change the evaluator makes to its state keeps the byte order, but for a type's
body, after which the old order is put back. -/
lemma Machine.endianKept_invariant : Invariant Machine.EndianKept where
  refl := rfl
  trans h₁ h₂ := h₂.trans h₁
  frame h _ _ he := he.trans h
  inData h _ := h
  away h := h
  farthest _ h := h
  endian _ := rfl
  push h := h
  pop h := h
  extend h := h
  define h _ := h
  assign h _ := h
  host h _ := h

/-! ### Attributes keep the byte order -/

section Attributes

variable {c : Context} {m : Machine}

@[simp] lemma Node.endian_setColor (k : Nat) (n : Node) : (n.setColor k).endian = n.endian := by
  rw [Node.setColor_eq]

@[simp] lemma Node.children_endian_setColor (k : Nat) (n : Node) :
    (n.setColor k).children.map Node.endian = n.children.map Node.endian := by
  rw [Node.children_setColor]
  split <;> simp [Function.comp_def]

lemma wp_applyAttribute_endian (node : Node) (attr : Attribute) :
    Wp (applyAttribute node attr) c m fun r _ => r.1.endian = node.endian ∧
      r.1.children.map Node.endian = node.children.map Node.endian := by
  unfold applyAttribute
  split
  · simp
  · rename_i tv _
    rcases attr.value with _ | v <;> cases tv <;> simp only [wp_fault, wp_bind, wp_pure]
    all_goals
      split <;> simp -failIfUnchanged only [wp_bind, wp_lift, wp_pure, wp_ite, wp_fault,
        Node.endian_setColor, Node.children_endian_setColor, implies_true, and_self]
      -- the functions `format`, `transform` and `pointer_base` name are looked up, and the
      -- node is returned as it was
      case h_6 | h_7 => exact wp_roleFunction _ _ fun _ => trivial
      case h_8 =>
        split
        · simp only [wp_bind, wp_pure]
          exact wp_roleFunction _ _ fun _ => ⟨trivial, trivial⟩
        · simp

/-- Attributes never change the byte order of a node or of its children. -/
lemma wp_applyAttributes_endian (node : Node) (attrs : List Attribute) :
    Wp (applyAttributes node attrs) c m fun r _ => r.1.endian = node.endian ∧
      r.1.children.map Node.endian = node.children.map Node.endian := by
  unfold applyAttributes
  simp only [wp_bind, wp_cursor]
  refine wp_foldlM attrs _ (fun (r : Node × Bool) _ => r.1.endian = node.endian ∧
    r.1.children.map Node.endian = node.children.map Node.endian) ?_ _ m ⟨rfl, rfl⟩
  rintro attr - ⟨n, i⟩ _ hn
  simp only [wp_bind, wp_withLine]
  exact (wp_applyAttribute_endian n attr).mono fun r _ hr => by
    simpa only [wp_setCursor, wp_pure, hr] using hn

end Attributes

/-! ### Leaves take the byte order they are made in -/

/-- A node and its children carry the byte order `e`. -/
def Node.InOrder (e : Option Endian) (n : Node) : Prop :=
  n.endian = e ∧ ∀ x ∈ n.children, x.endian = e

/-- A node whose byte order and whose children's agree with those of a node in order. -/
lemma Node.InOrder.of_endians {e : Option Endian} {n n' : Node} (hn : n.InOrder e)
    (h : n'.endian = n.endian) (hc : n'.children.map Node.endian = n.children.map Node.endian) :
    n'.InOrder e := by
  have hall : ∀ y ∈ n.children.map Node.endian, y = e := List.forall_mem_map.mpr hn.2
  rw [← hc] at hall
  exact ⟨h.trans hn.1, List.forall_mem_map.mp hall⟩

lemma Machine.endianKept_at (fuel : Nat) : KeptAt Machine.EndianKept fuel :=
  Machine.endianKept_invariant.keptAt fuel

section Leaves

variable {c : Context} {m : Machine}

lemma wp_buildBuiltin_endian (b : Builtin) (name tn : String) :
    Wp (buildBuiltin b name tn) c m fun N _ => N.InOrder m.endian := by
  unfold buildBuiltin
  split
  · simp [Node.InOrder, Node.fresh]
  · split <;> simp

lemma buildEnum_endian (fuel : Nat) (u : Builtin) (es : List EnumEntry) (name tn : String) :
    Wp (buildEnum fuel u es name tn) c m fun N _ => N.InOrder m.endian := by
  rcases fuel with _ | fuel
  · simp [buildEnum]
  rcases hs : u.size? with _ | size <;> simp only [buildEnum, hs, wp_bind, wp_pure, wp_fault]
  -- the entries' expressions keep the byte order the enum's node is made in
  refine ((Machine.endianKept_at fuel).enumEntries u es c m).1.mono fun t m₁ h₁ => ?_
  simp [Node.InOrder, Node.fresh, show m₁.endian = m.endian from h₁]

/-- A bitfield and its fields are made in the byte order the bitfield starts in. -/
lemma buildBitfield_endian (fuel : Nat) (es : List BitfieldEntry) (name tn : String) :
    Wp (buildBitfield fuel es name tn) c m fun N _ => N.InOrder m.endian := by
  rcases fuel with _ | fuel
  · simp [buildBitfield]
  simp only [buildBitfield, wp_bind, wp_cursor]
  refine (wp_foldlM es _ (fun r m' => m'.endian = m.endian ∧ ∀ f ∈ r.2, f.endian = m.endian)
    ?_ (0, []) m ⟨rfl, by simp⟩).mono fun r m₁ h₁ => ?_
  · rintro entry - ⟨off, fields⟩ m' ⟨h', hf⟩
    simp only [wp_bind]
    refine ((Machine.endianKept_at fuel).evalExpr entry.width c m').1.mono fun v m₂ h₂ => ?_
    have h₂' : m₂.endian = m.endian := h₂.trans h'
    simp only [wp_lift, wp_ite, wp_fault, wp_pure, wp_newNode, wp_bind]
    intro w _
    exact ⟨fun _ => trivial, fun _ => ⟨fun _ => ⟨h₂', hf⟩, fun _ _ => by simpa [h₂'] using hf⟩⟩
  obtain ⟨bits, fields⟩ := r
  simp only [wp_checkRange, wp_setCursor, wp_newNode, wp_pure]
  intro _ _
  simp [Node.InOrder, h₁.1]
  exact fun f hf => h₁.2 f hf

end Leaves

/-! ### Types take the innermost qualifier -/

section Types

variable {c : Context} {m : Machine}

/-- A type's body is built in the type's own byte order, else the inherited one; the type's
node carries the byte orders of the body's node. -/
lemma buildType_inOrder {fuel : Nat} {ty : TypeDecl} {name : String} {e : Option Endian}
    (hbody : Wp (buildBody fuel ty name) c
      { m with depth := m.depth + 1, endian := ty.endian.or m.endian } fun b _ => b.node.InOrder e) :
    Wp (buildType (fuel + 1) ty name) c m fun b _ => b.node.InOrder e := by
  rw [wp_buildType]
  intro _
  refine hbody.mono fun b _ hb => ?_
  refine (wp_applyAttributes_endian _ _).mono fun r _ hr => ?_
  exact hb.of_endians hr.1 hr.2

/-- At every fuel, with the body's node in order whenever there is fuel to build it. -/
lemma buildType_inOrder_of_body {ty : TypeDecl} {name : String} {e : Option Endian}
    (hbody : ∀ fuel, Wp (buildBody (fuel + 1) ty name) c
      { m with depth := m.depth + 1, endian := ty.endian.or m.endian } fun b _ => b.node.InOrder e)
    (fuel : Nat) : Wp (buildType fuel ty name) c m fun b _ => b.node.InOrder e := by
  rcases fuel with _ | _ | fuel
  · simp [buildType]
  · exact buildType_inOrder (by simp [buildBody])
  · exact buildType_inOrder (hbody fuel)

end Types

/-- The byte order a type's node takes from the declarations of the type: a builtin, an enum
and a bitfield their own qualifier; an alias and a forward reference the innermost qualifier
of the type they stand for, else their own. `none` when no declaration along the chain has
one: the node then takes the byte order inherited from the declarations around it. -/
inductive TypeDecl.LeafEndian (p : Program) : TypeDecl → Option Endian → Prop
  | builtin {d : TypeDecl} {b : Builtin} : d.body = .builtin b → LeafEndian p d d.endian
  | enum {d : TypeDecl} {u : Builtin} {es : List EnumEntry} :
      d.body = .enum u es → LeafEndian p d d.endian
  | bitfield {d : TypeDecl} {es : List BitfieldEntry} :
      d.body = .bitfield es → LeafEndian p d d.endian
  | aliased {d inner : TypeDecl} {e : Option Endian} :
      d.body = .alias inner → LeafEndian p inner e → LeafEndian p d (e.or d.endian)
  | forward {d d' : TypeDecl} {q : String} {e : Option Endian} :
      d.body = .forward q → p.typeNamed? q = some d' → LeafEndian p d' e →
        LeafEndian p d (e.or d.endian)

/-- A scalar, an enum or a bitfield reached through aliases and forward references takes the
innermost qualifier along the chain, else the inherited byte order; so do a bitfield's fields.
-/
lemma buildType_leafEndian {p : Program} {d : TypeDecl} {e : Option Endian}
    (hd : d.LeafEndian p e) {c : Context} (hp : c.program = p) (fuel : Nat) (name : String)
    (m : Machine) : Wp (buildType fuel d name) c m fun b _ => b.node.InOrder (e.or m.endian) := by
  induction hd generalizing fuel m with
  | @builtin d b hb =>
    refine buildType_inOrder_of_body (fun fuel => ?_) fuel
    simp only [buildBody, hb, wp_bind, wp_pure]
    exact wp_buildBuiltin_endian b name _
  | @enum d u es hb =>
    refine buildType_inOrder_of_body (fun fuel => ?_) fuel
    simp only [buildBody, hb, wp_bind, wp_pure]
    exact buildEnum_endian fuel u es name _
  | @bitfield d es hb =>
    refine buildType_inOrder_of_body (fun fuel => ?_) fuel
    simp only [buildBody, hb, wp_bind, wp_pure]
    exact buildBitfield_endian fuel es name _
  | @aliased d inner e hb _ ih =>
    refine buildType_inOrder_of_body (fun fuel => ?_) fuel
    simp only [buildBody, hb, wp_bind, wp_pure]
    -- the alias's node is the inner type's, renamed
    refine (ih fuel _).mono fun b _ hb => ?_
    rw [Option.or_assoc]
    exact hb
  | @forward d d' q e hb hq _ ih =>
    refine buildType_inOrder_of_body (fun fuel => ?_) fuel
    simp only [buildBody, hb, wp_bind, wp_read, hp, hq]
    rw [Option.or_assoc]
    exact ih fuel _

/-! ### Strings and pointers take the qualifier written where they are declared -/

section Declared

variable {c : Context} {m : Machine}

/-- The node of a string, made after its characters, takes the qualifier of the string's
declaration, else the inherited byte order. -/
lemma stringNode_endian {m₁ : Machine} (name : String) (ty : TypeDecl) (unit : Nat)
    (h : m₁.endian = m.endian) :
    Wp (do
      let k ← cursor
      if unit = 1 then do
        let node ← newNode name "char" m.cursor (k - m.cursor) .string
        return if ty.endian.isSome then { node with endian := ty.endian } else node
      else do
        let node ← newNode name "char16" m.cursor (k - m.cursor) .string16
        return if ty.endian.isSome then { node with endian := ty.endian } else node) c m₁
      fun N _ => N.endian = ty.endian.or m.endian := by
  simp only [wp_cursor, wp_bind, wp_ite, wp_newNode, wp_pure]
  rcases ty.endian with _ | e <;> simp [h]

/-- A string's node takes the qualifier of the string's declaration, else the inherited byte
order, whatever its element type's declarations say. -/
lemma buildString_endian (fuel : Nat) (name : String) (ty : TypeDecl) (size : ArraySize)
    (unit : Nat) :
    Wp (buildString fuel name ty size unit) c m fun N _ => N.endian = ty.endian.or m.endian := by
  rcases fuel with _ | fuel
  · simp [buildString]
  have K := Machine.endianKept_at fuel
  rw [buildString, wp_bind, wp_cursor]
  rcases size with count | cnd | _ <;> dsimp only <;> rw [wp_bind]
  · refine (K.evalExpr count c m).1.mono fun v m₁ (h₁ : m₁.endian = m.endian) => ?_
    rw [wp_bind, wp_lift]
    intro n _
    rw [wp_bind, wp_checkArrayLength]
    intro _
    split
    · simp
    · rw [wp_bind, wp_checkRange]
      intro _
      rw [wp_bind, wp_setCursor]
      exact stringNode_endian name ty unit h₁
  · exact (K.whileChars cnd m.cursor unit c m).1.mono fun _ _ h₁ => stringNode_endian name ty unit h₁
  · exact (K.unsizedChars unit c m).1.mono fun _ _ h₁ => stringNode_endian name ty unit h₁

/-- A pointer's node takes its address type's qualifier, else the inherited byte order: the
target is built at the address and the byte order is back before the node is made. -/
lemma buildPointer_endian (fuel : Nat) (name : String) (target : TypeDecl) (addrType : Builtin)
    (addrEndian : Option Endian) (attrs : List Attribute) :
    Wp (buildPointer fuel name target addrType addrEndian attrs) c m fun N _ =>
      N.endian = addrEndian.or m.endian := by
  rcases fuel with _ | fuel
  · simp [buildPointer]
  have K := Machine.endianKept_at fuel
  simp only [buildPointer]
  rcases hw : addrType.size? with _ | w
  · simp
  · simp only [wp_pure, wp_cursor, wp_endianFor, wp_readBytes, wp_setCursor, wp_bind]
    intro bs _
    split
    · simp only [wp_pure, wp_ite, wp_fault, wp_bind, wp_atOffset, wp_newNode, wp_get]
      exact ⟨fun _ => trivial, fun _ => (K.buildType target name c _).1.mono
        fun _ _ (h₃ : _ = _) _ => by simp [h₃]⟩
    · rw [wp_bind, wp_withLine]
      -- the address is asked of the `pointer_base` function, which keeps the byte order too
      split
      · simp only [wp_pure, wp_bind]
        refine wp_roleFunction _ _ fun f => ?_
        refine (K.callUser f _ c _).1.mono fun r m₂ (h₂ : _ = _) => ?_
        split
        · simp only [wp_bind, wp_lift, wp_pure, wp_ite, wp_fault, wp_atOffset, wp_newNode, wp_get]
          exact fun _ _ => ⟨fun _ => trivial, fun _ => (K.buildType target name c _).1.mono
            fun _ _ (h₃ : _ = _) _ => by simp [h₃, h₂]⟩
        · simp
      · simp

/-- A pointer reads as the address its target was built at: the address is decoded in the
pointer's byte order, else the document's, as reading the node decodes it. -/
lemma buildPointer_reads_address (fuel : Nat) (name : String) (target : TypeDecl)
    (addrType : Builtin) (addrEndian : Option Endian) (attrs : List Attribute) :
    Wp (buildPointer fuel name target addrType addrEndian attrs) c m fun N _ =>
      ∃ P, N.kind = .pointer P ∧ (attrs.find? (·.name == "pointer_base") = none →
        N.readValue c.data c.config.defaultEndian = .ok (.uint P.offset)) := by
  refine (((buildSpec fuel).buildPointer name target addrType addrEndian attrs c m).and
    (buildPointer_endian fuel name target addrType addrEndian attrs)).mono
    fun N _ ⟨hb, he⟩ => ?_
  obtain ⟨P, bytes, hk, hs, hr, hP⟩ := hb.pointee
  refine ⟨P, hk, fun hn => ?_⟩
  have h16 : ¬N.size > 16 := not_lt.mpr (Builtin.size?_le hs)
  rw [hP hn]
  simp [Node.readValue, hk, Node.readWord, h16, hb.offset, hr, he]

end Declared

/-! ### Byte orders of nodes -/

/-- **Byte orders of nodes.** Every function of the evaluator, at every fuel, ends in the
byte order it started in, whether it succeeds or fails. A type built in an inherited byte order `o` that is a builtin, an
enum or a bitfield reached through aliases and forward references makes its node, and a
bitfield's fields, in the innermost qualifier along that chain, else in `o`. A string's node
takes the qualifier written where the string is declared, else `o`. A pointer's node takes
its address type's qualifier, else `o`, and reads as the address its target was built at
when no `pointer_base` function moves the target: the address is decoded in the pointer's
byte order, else the document's.

**Proof sketch.** Each change of state keeps the byte order, but for a type's body, after
which the old order is put back, on a failure too (`Machine.endianKept_invariant`). A type's body is built in
the type's qualifier, else the inherited order (`buildType_inOrder`), and a leaf node takes
the order of the state it is made in; induction on the chain of declarations
(`buildType_leafEndian`). -/
theorem byteOrder_of_nodes (fuel : Nat) (c : Context) (m : Machine) :
    KeptAt Machine.EndianKept fuel ∧
    (∀ {d : TypeDecl} {e : Option Endian}, d.LeafEndian c.program e → ∀ name,
      Wp (buildType fuel d name) c m fun b _ => b.node.InOrder (e.or m.endian)) ∧
    (∀ name ty size unit,
      Wp (buildString fuel name ty size unit) c m fun N _ => N.endian = ty.endian.or m.endian) ∧
    ∀ name target addrType addrEndian attrs,
      Wp (buildPointer fuel name target addrType addrEndian attrs) c m fun N _ =>
        N.endian = addrEndian.or m.endian ∧ ∃ P, N.kind = .pointer P ∧
          (attrs.find? (·.name == "pointer_base") = none →
            N.readValue c.data c.config.defaultEndian = .ok (.uint P.offset)) :=
  ⟨Machine.endianKept_at fuel, fun hd name => buildType_leafEndian hd rfl fuel name m,
    fun name ty size unit => buildString_endian fuel name ty size unit,
    fun name target addrType addrEndian attrs =>
      (buildPointer_endian fuel name target addrType addrEndian attrs).and
        (buildPointer_reads_address fuel name target addrType addrEndian attrs)⟩

/-- A `u16` declared `be`, named by an alias declared `le`: a scalar of the alias is built
in the inner qualifier. -/
theorem byteOrder_of_nodes_alias :
    Wp (buildType Eval.fuel
        ⟨"A", some .little, .alias ⟨"u16", some .big, .builtin (.unsigned .w16), [], ⟨10, 16, 1⟩⟩,
          [], ⟨0, 20, 1⟩⟩ "x")
      (Context.of ⟨[], []⟩ ByteArray.empty RunConfig.standard) (Machine.initial [])
      fun b _ => b.node.InOrder (some .big) := by
  refine ((byteOrder_of_nodes _ _ _).2.1 (.aliased rfl (.builtin rfl)) _).mono fun _ _ h => ?_
  exact h

/-- `using A = be char16; le A s[1] @ 0; le A x @ 0;` -/
def tokensRequalifiedAlias : Array Token := #[
  tokenAt (.keyword "using") 0 5, tokenAt (.ident "A") 6 7, tokenAt (.symbol "=") 8 9,
  tokenAt (.keyword "be") 10 12, tokenAt (.builtin .char16) 13 19, tokenAt (.symbol ";") 19 20,
  tokenAt (.keyword "le") 21 23, tokenAt (.ident "A") 24 25, tokenAt (.ident "s") 26 27,
  tokenAt (.symbol "[") 27 28, tokenAt (.int 1) 28 29, tokenAt (.symbol "]") 29 30,
  tokenAt (.symbol "@") 31 32, tokenAt (.int 0) 33 34, tokenAt (.symbol ";") 34 35,
  tokenAt (.keyword "le") 36 38, tokenAt (.ident "A") 39 40, tokenAt (.ident "x") 41 42,
  tokenAt (.symbol "@") 43 44, tokenAt (.int 0) 45 46, tokenAt (.symbol ";") 46 47,
  tokenAt .eof 47 47]

/-- An alias of `char16` declared `be`, used under `le`: the string of it is made little
endian, from the qualifier at its declaration, while the character of it is made big endian,
from the innermost qualifier. -/
theorem requalifiedAlias_string_scalar_endian :
    ∃ p, parseTokens tokensRequalifiedAlias = .ok p ∧
      ∃ ev, runProgram p (ByteArray.mk #[0, 1]) RunConfig.standard [] = .ok ev ∧
        ∃ S ∈ ev.patterns, ∃ X ∈ ev.patterns, S.kind = .string16 ∧ S.endian = some .little ∧
          X.kind = .character16 ∧ X.endian = some .big := by
  refine ⟨_, Except.eq_ok_get (by decide +kernel), _, Except.eq_ok_get (by decide +kernel),
    _, List.head_mem (List.ne_nil_of_length_pos (by decide +kernel)),
    _, List.getLast_mem (List.ne_nil_of_length_pos (by decide +kernel)), ?_⟩
  exact ⟨NodeKind.eq_of_ctorIdx (by decide +kernel) (by simp) (by simp) (by simp),
    by decide +kernel, NodeKind.eq_of_ctorIdx (by decide +kernel) (by simp) (by simp) (by simp),
    by decide +kernel⟩

end ByteLayout

import ByteLayout.Proofs.Layout.Build
import ByteLayout.Proofs.Syntax.Placement
import ByteLayout.Proofs.Syntax.Lexer

set_option autoImplicit false

/-!
# The layout of parsed programs

Every program the parser returns places its members at the cursor
(`parseTokens_membersAtCursor`), and that is all the builders' promises ask of a program
beyond the types it builds. So for parsed programs the promises of the builders become
statements about every run.

The layout law: a type, an array or a pointer is built at the cursor and leaves the
cursor right after its bytes; a build placed at an address starts there and leaves the
cursor where it was; a pointer's target is built at the address its bytes hold, moved by
what its `pointer_base` function returns if it names one; the nodes of a member at the cursor cover the bytes it takes, end to
end. A type whose every splice, at any depth, is a struct builds a node its children
cover end to end, and so does an array.

The forest: every node below a pattern of a run lies inside its parent. When every type
the program splices builds a node with a child at its start (a struct, a union or a
bitfield with a field), every node with children also starts at its first child. A splice
of any other type contributes its bytes but no node: a struct whose base is an alias of a
builtin starts before its first child, and its children do not cover it.

## Main definitions

* `LayoutLaw` — what the builders promise for one context, fuel and state.

## Main results

* `layoutLaw` — the layout law holds for every parsed program.
* `runProgram_forest` — containment, and the least child offset for anchoring programs, in
  the forest of every run of a parsed program.
-/

namespace ByteLayout

open Eval

/-- The token `kind` at bytes `[start, stop)` of the first line. -/
def tokenAt (kind : Token.Kind) (start stop : Nat) : Token := ⟨kind, ⟨start, stop, 1⟩⟩

/-- `u8 x @ 0;` -/
def tokensByte : Array Token := #[
  tokenAt (.builtin (.unsigned .w8)) 0 2, tokenAt (.ident "x") 3 4, tokenAt (.symbol "@") 5 6,
  tokenAt (.int 0) 7 8, tokenAt (.symbol ";") 8 9, tokenAt .eof 9 9]

/-! ### The layout law -/

/-- What the builders promise in the context `c` from the state `m` at one fuel: every
type, array and pointer is laid at the cursor, a build placed at `a` starts at `a` and puts
the cursor back, and the nodes of a member at the cursor cover the bytes it takes. The
children of a struct-closed type's node and the elements of an array cover the node. A
pointer's target is built at the address its bytes hold, or, with a `pointer_base`
attribute, at that address plus the unsigned word the named function returns for it,
modulo `2 ^ 128`. -/
structure LayoutLaw (c : Context) (fuel : Nat) (m : Machine) : Prop where
  type : ∀ ty name, c.program.Builds ty → Wp (buildType fuel ty name) c m fun b m' =>
    Laid m b.node m' ∧ (ty.StructClosed c.program → b.node.Tiled)
  array : ∀ name ty size, Wp (buildArray fuel name ty size) c m fun N m' =>
    Laid m N m' ∧ (N.kind = .array → N.Tiled)
  pointer : ∀ name target addrType addrEndian attrs,
    Wp (buildPointer fuel name target addrType addrEndian attrs) c m fun N m' =>
      Laid m N m' ∧ ∃ P bytes raw, N.kind = .pointer P ∧ addrType.size? = some N.size ∧
        Data.read c.data m.cursor N.size = .ok bytes ∧
        raw = Word.ofBytes ((addrEndian <|> m.endian).getD c.config.defaultEndian) bytes ∧
        (attrs.find? (·.name == "pointer_base") = none → P.offset = raw) ∧
        ∀ attr, attrs.find? (·.name == "pointer_base") = some attr →
          ∃ fname f v k m₂, attr.value = some fname ∧ c.function? fname = some f ∧
            ((callUser (fuel - 1) f [.uint raw]).run c).run
              { m with cursor := m.cursor + N.size } = .ok (some v) m₂ ∧
            v.toUnsigned = .ok k ∧ P.offset = (raw + k) % 2 ^ 128
  placed : ∀ a ty name, Wp (atOffset a (buildType fuel ty name)) c m fun b m' =>
    b.node.offset = a ∧ m'.cursor = m.cursor
  member : ∀ s, s.AtCursor → (∀ d, s.Uses d → c.program.Builds d) →
    (∀ T, s.Splices c.program T → T.StructClosed c.program) →
    Wp (buildMember fuel s) c m fun _ m' =>
      ∃ ns, m'.scope.layout = (m.scope.extendMembers ns).layout ∧ Node.Tiles ns m.cursor m'.cursor

/-- The layout law holds in every run of every parsed program, at every fuel and from
every state.

**Proof sketch.** Each field is the promise of its builder (`buildSpec`); the promises
about children ask the program to have its members at the cursor, which the parser
guarantees (`parseTokens_membersAtCursor`), and to build the types concerned. -/
theorem layoutLaw {tokens : Array Token} {p : Program} (hp : parseTokens tokens = .ok p)
    (data : ByteArray) (config : RunConfig) (fuel : Nat) (m : Machine) :
    LayoutLaw (Context.of p data config) fuel m := by
  have spec := buildSpec fuel
  have hm := parseTokens_membersAtCursor hp
  refine ⟨fun ty name hB => ?_, fun name ty size => ?_, fun name target addrType addrEndian attrs => ?_,
    fun a ty name => ?_, fun s hs hU hS => ?_⟩
  · exact (spec.buildType ty name _ m).mono fun b m' hb =>
      ⟨hb.toLaid, hb.tiled ⟨hm, fun _ hd => hd ▸ hB⟩⟩
  · exact (spec.buildArray name ty size _ m).mono fun N m' hN => ⟨hN.toLaid, hN.tiled⟩
  · -- the `pointer_base` function is called one fuel down
    refine ((spec.buildPointer name target addrType addrEndian attrs _ m).and
      (wp_buildPointer_base fuel name target addrType addrEndian attrs)).mono
      fun N m' h => ⟨h.1.toLaid, ?_⟩
    obtain ⟨hN, hb⟩ := h
    obtain ⟨P, bytes, hk, hs, hr, hnone⟩ := hN.pointee
    refine ⟨P, bytes, _, hk, hs, hr, rfl, hnone, fun attr hattr => ?_⟩
    obtain ⟨P', bytes', _, hk', hr', rfl, hcall⟩ := hb attr hattr
    -- one node, one read: the two promises speak of the same target and bytes
    obtain rfl : P' = P := NodeKind.pointer.inj (hk'.symm.trans hk)
    obtain rfl : bytes' = bytes := Except.ok.inj (hr'.symm.trans hr)
    exact hcall
  · rw [wp_atOffset]
    exact (spec.buildType ty name _ _).mono fun b m' hb => ⟨hb.offset, rfl⟩
  · exact (spec.buildMember s _ m).mono fun _ m' h =>
      h.imp fun _ hns => ⟨hns.scope, hns.tiles ⟨hm, hU⟩ hs hS⟩

/-- The law for the program `u8 x @ 0;` over one byte. -/
theorem layoutLaw_byte :
    ∃ p, parseTokens tokensByte = .ok p ∧
      LayoutLaw (Context.of p (ByteArray.mk #[0]) RunConfig.standard) 1 (Machine.initial []) :=
  have hp := Except.eq_ok_get (by decide +kernel)
  ⟨_, hp, layoutLaw hp _ _ _ _⟩

/-- `using A = u8; struct T : A {}; struct S : T { u8 x; }; S s @ 0;` -/
def tokensNestedBase : Array Token := #[
  tokenAt (.keyword "using") 0 5, tokenAt (.ident "A") 6 7, tokenAt (.symbol "=") 8 9,
  tokenAt (.builtin (.unsigned .w8)) 10 12, tokenAt (.symbol ";") 12 13,
  tokenAt (.keyword "struct") 14 20, tokenAt (.ident "T") 21 22, tokenAt (.symbol ":") 23 24,
  tokenAt (.ident "A") 25 26, tokenAt (.symbol "\x7b") 27 28, tokenAt (.symbol "\x7d") 28 29,
  tokenAt (.symbol ";") 29 30, tokenAt (.keyword "struct") 31 37, tokenAt (.ident "S") 38 39,
  tokenAt (.symbol ":") 40 41, tokenAt (.ident "T") 42 43, tokenAt (.symbol "\x7b") 44 45,
  tokenAt (.builtin (.unsigned .w8)) 46 48, tokenAt (.ident "x") 49 50,
  tokenAt (.symbol ";") 50 51, tokenAt (.symbol "\x7d") 52 53, tokenAt (.symbol ";") 53 54,
  tokenAt (.ident "S") 55 56, tokenAt (.ident "s") 57 58, tokenAt (.symbol "@") 59 60,
  tokenAt (.int 0) 61 62, tokenAt (.symbol ";") 62 63, tokenAt .eof 63 63]

/-- A struct that inherits only from a struct, with nothing of a union or a bitfield spliced
into it, whose children do not cover it: its base `T` inherits the alias `A` of a builtin,
which takes the first byte but leaves no node, so `S`'s only child starts one byte late. -/
theorem nestedBase_children_start_late :
    ∃ p, parseTokens tokensNestedBase = .ok p ∧
      ∃ ev, runProgram p (ByteArray.mk #[0, 0]) RunConfig.standard [] = .ok ev ∧
        ∃ N ∈ ev.patterns, N.typeName = "S" ∧ N.isCompound = true ∧ N.offset = 0 ∧
          N.size = 2 ∧ N.children.map (fun C => (C.offset, C.size)) = [(1, 1)] :=
  ⟨_, Except.eq_ok_get (by decide +kernel), _, Except.eq_ok_get (by decide +kernel),
    by decide +kernel⟩

/-! ### The forest of a run -/

/-- A node whose children lie inside it, one of them at its start, starts at the least
offset of its children. -/
lemma Node.min_children_offset {P : Node} (hw : P.ChildrenWithin) (hs : P.StartsAtChild)
    (hne : P.children ≠ []) : (P.children.map Node.offset).min? = some P.offset := by
  obtain ⟨C, hC, hCo⟩ := hs hne
  refine List.min?_eq_some_iff.mpr ⟨List.mem_map.mpr ⟨C, hC, hCo⟩, fun b hb => ?_⟩
  obtain ⟨C', hC', rfl⟩ := List.mem_map.mp hb
  exact (hw C' hC').1

/-- In the forest of every run of a parsed program, every node below a pattern, through
children and pointees, holds its children inside its bytes; and when every splice of the
program is anchoring, every such node with children starts at the least offset of them.

**Proof sketch.** Every pattern of the run is sound (`runProgram_sound`), since the parser
places members at the cursor; soundness is containment at every node below, and for an
anchoring program a child at the start of every node with children, which with
containment is the least child offset. -/
theorem runProgram_forest {tokens : Array Token} {p : Program} (hp : parseTokens tokens = .ok p)
    {data : ByteArray} {config : RunConfig} {inputs : List (String × Value)} {ev : Evaluation}
    (h : runProgram p data config inputs = .ok ev) :
    ∀ N ∈ ev.patterns, ∀ P, N.Reaches P →
      (∀ C ∈ P.children, P.offset ≤ C.offset ∧ C.offset + C.size ≤ P.offset + P.size) ∧
      (p.SplicesAnchoring → P.children ≠ [] →
        (P.children.map Node.offset).min? = some P.offset) := by
  intro N hN P hP
  have hs := runProgram_sound (parseTokens_membersAtCursor hp) h N hN
  have hw : P.ChildrenWithin := hs.contained.of_reaches hP
  exact ⟨hw, fun hA hne => Node.min_children_offset hw ((hs.starts hA).of_reaches hP) hne⟩

/-- The forest of the run of `u8 x @ 0;` over one byte. -/
theorem runProgram_forest_byte :
    ∃ p ev, parseTokens tokensByte = .ok p ∧
      runProgram p (ByteArray.mk #[0]) RunConfig.standard [] = .ok ev ∧
      ∀ N ∈ ev.patterns, ∀ P, N.Reaches P →
        (∀ C ∈ P.children, P.offset ≤ C.offset ∧ C.offset + C.size ≤ P.offset + P.size) ∧
        (p.SplicesAnchoring → P.children ≠ [] →
          (P.children.map Node.offset).min? = some P.offset) :=
  have hp := Except.eq_ok_get (by decide +kernel)
  have h := Except.eq_ok_get (by decide +kernel)
  ⟨_, _, hp, h, runProgram_forest hp h⟩

/-- `using A = u8; struct S : A { u8 x; }; S s @ 0;` -/
def tokensBaseAlias : Array Token := #[
  tokenAt (.keyword "using") 0 5, tokenAt (.ident "A") 6 7, tokenAt (.symbol "=") 8 9,
  tokenAt (.builtin (.unsigned .w8)) 10 12, tokenAt (.symbol ";") 12 13,
  tokenAt (.keyword "struct") 14 20, tokenAt (.ident "S") 21 22, tokenAt (.symbol ":") 23 24,
  tokenAt (.ident "A") 25 26, tokenAt (.symbol "\x7b") 27 28,
  tokenAt (.builtin (.unsigned .w8)) 29 31, tokenAt (.ident "x") 32 33,
  tokenAt (.symbol ";") 33 34, tokenAt (.symbol "\x7d") 35 36, tokenAt (.symbol ";") 36 37,
  tokenAt (.ident "S") 38 39, tokenAt (.ident "s") 40 41, tokenAt (.symbol "@") 42 43,
  tokenAt (.int 0) 44 45, tokenAt (.symbol ";") 45 46, tokenAt .eof 46 46]

/-- A struct node with a child that does not start at its least child offset: the base
`A`, an alias of a builtin, takes the first byte and leaves no node. -/
theorem baseAlias_starts_before_children :
    ∃ p, parseTokens tokensBaseAlias = .ok p ∧
      ∃ ev, runProgram p (ByteArray.mk #[0, 0]) RunConfig.standard [] = .ok ev ∧
        ∃ N ∈ ev.patterns, N.isCompound = true ∧ N.offset = 0 ∧
          (N.children.map Node.offset).min? = some 1 :=
  ⟨_, Except.eq_ok_get (by decide +kernel), _, Except.eq_ok_get (by decide +kernel),
    by decide +kernel⟩

end ByteLayout

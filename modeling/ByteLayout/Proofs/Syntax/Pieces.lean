import Mathlib
import ByteLayout.Syntax.Tree

set_option autoImplicit false

/-!
# The pieces of a program

A program is a tree of expressions, statements and type uses, beside the registry of the
types it declares. This file names the immediate pieces of each piece (`Piece.Child`) and the
pieces a program holds: those below one of its statements or below one of its registered
declarations (`Program.Holds`). A property holds of every piece of a program as soon as it
holds all the way below each of these roots (`Piece.Deep`).

A statement stands in one of three places: at the top level, among the members of a struct,
a union or a member condition, or in a function body. `Stmt.Fits` is the statement grammar
of each place. A type use names the registry coherently (`TypeDecl.NamesIn`) when it is a
forward reference to a registered name, a copy of the registered declaration of its name
with its byte order possibly replaced, or a builtin used directly.

## Main definitions

* `Site`, `Stmt.Fits` — the places a statement can stand in, and what each admits.
* `Piece`, `Piece.Child` — pieces of syntax and their immediate pieces.
* `Piece.Deep` — a property of a piece and of every piece below it.
* `Program.Holds` — the pieces of a program, its registered declarations included.
* `TypeDecl.NamesIn`, `Piece.Valid` — coherent type uses, and statements in their place.
-/

namespace ByteLayout

/-- Where a statement stands. -/
inductive Site where
  /-- A statement of the program itself. -/
  | top
  /-- A member of a struct, a union or a member condition. -/
  | member
  /-- A statement of a function body. -/
  | body
  deriving DecidableEq

namespace Stmt

/-- The statements each place admits. At the top level: variables placed anywhere, arrays
and pointers placed with `@`, definitions of types and functions, and calls. Among members:
variables, arrays and pointers at the cursor, groups of variables, padding, conditions and
calls. In a function body: variables at the cursor, groups of variables, groups of
statements, assignments, conditions, loops, `return`, `break`, `continue` and calls. -/
inductive Fits : Site → Stmt → Prop
  | topVar {n : String} {ty : TypeDecl} {pl : Placement} {attrs : List Attribute} {sp : Span} :
      Fits .top (.var n ty pl attrs sp)
  | topArray {n : String} {ty : TypeDecl} {size : ArraySize} {e : Expr} {attrs : List Attribute}
      {sp : Span} : Fits .top (.array n ty size (.atOffset e) attrs sp)
  | topPointer {n : String} {ty : TypeDecl} {a : Builtin} {en : Option Endian} {e : Expr}
      {attrs : List Attribute} {sp : Span} : Fits .top (.pointer n ty a en (.atOffset e) attrs sp)
  | topTypeDef {d : TypeDecl} {sp : Span} : Fits .top (.typeDef d sp)
  | topFunction {n : String} {ps : List Param} {b : List Stmt} {sp : Span} :
      Fits .top (.function n ps b sp)
  | call {k : Site} {name ns : String} {args : List Expr} {csp sp : Span} :
      Fits k (.exprStmt (.call name ns args csp) sp)
  | memberVar {n : String} {ty : TypeDecl} {attrs : List Attribute} {sp : Span} :
      Fits .member (.var n ty .cursor attrs sp)
  | memberArray {n : String} {ty : TypeDecl} {size : ArraySize} {attrs : List Attribute}
      {sp : Span} : Fits .member (.array n ty size .cursor attrs sp)
  | memberPointer {n : String} {ty : TypeDecl} {a : Builtin} {en : Option Endian}
      {attrs : List Attribute} {sp : Span} : Fits .member (.pointer n ty a en .cursor attrs sp)
  | memberMulti {names : List String} {ty : TypeDecl} {sp : Span} :
      Fits .member (.multi names ty sp)
  | memberPadding {size : Expr} {sp : Span} : Fits .member (.padding size sp)
  | memberIf {c : Expr} {t e : List Stmt} {sp : Span} : Fits .member (.ifElse c t e sp)
  | bodyVar {n : String} {ty : TypeDecl} {attrs : List Attribute} {sp : Span} :
      Fits .body (.var n ty .cursor attrs sp)
  | bodyMulti {names : List String} {ty : TypeDecl} {sp : Span} : Fits .body (.multi names ty sp)
  | bodyCompound {ss : List Stmt} {sp : Span} : Fits .body (.compound ss sp)
  | bodyAssign {n : String} {v : Expr} {sp : Span} : Fits .body (.assign n v sp)
  | bodyIf {c : Expr} {t e : List Stmt} {sp : Span} : Fits .body (.ifElse c t e sp)
  | bodyWhile {c : Expr} {b : List Stmt} {post : Option Stmt} {sp : Span} :
      Fits .body (.whileLoop c b post sp)
  | bodyReturn {v : Option Expr} {sp : Span} : Fits .body (.returnWith v sp)
  | bodyBreak {sp : Span} : Fits .body (.breakLoop sp)
  | bodyContinue {sp : Span} : Fits .body (.continueLoop sp)

/-- The placement of a declaration of a variable, an array or a pointer. -/
def placement? : Stmt → Option Placement
  | .var _ _ pl _ _ | .array _ _ _ pl _ _ | .pointer _ _ _ _ pl _ _ => some pl
  | _ => none

/-- Only a variable at the top level is placed `in` or `out`. -/
lemma Fits.eq_top_of_host {k : Site} {s : Stmt} (h : s.Fits k) {pl : Placement}
    (hpl : s.placement? = some pl) (hhost : pl = .input ∨ pl = .output) :
    k = .top ∧ ∃ n ty attrs sp, s = .var n ty pl attrs sp := by
  cases h <;> simp only [placement?, Option.some.injEq, reduceCtorEq] at hpl <;> subst hpl <;>
    simp_all

end Stmt

/-- A piece of syntax: an expression, a statement in its place, a type as used at one place,
or a type as declared. -/
inductive Piece where
  | expr (e : Expr)
  | stmt (site : Site) (s : Stmt)
  | use (d : TypeDecl)
  | decl (d : TypeDecl)

/-- The immediate pieces of a type body: its bases and an alias's target as uses, its
members in their place, and the expressions of enum values and bitfield widths. -/
inductive TypeBody.Holds : TypeBody → Piece → Prop
  | base {bases : List TypeDecl} {ms : List Stmt} {b : TypeDecl} :
      b ∈ bases → Holds (.struct bases ms) (.use b)
  | structMember {bases : List TypeDecl} {ms : List Stmt} {s : Stmt} :
      s ∈ ms → Holds (.struct bases ms) (.stmt .member s)
  | unionMember {ms : List Stmt} {s : Stmt} : s ∈ ms → Holds (.union ms) (.stmt .member s)
  | enumValue {u : Builtin} {es : List EnumEntry} {en : EnumEntry} :
      en ∈ es → Holds (.enum u es) (.expr en.value)
  | bitfieldWidth {es : List BitfieldEntry} {en : BitfieldEntry} :
      en ∈ es → Holds (.bitfield es) (.expr en.width)
  | aliasTarget {t : TypeDecl} : Holds (.alias t) (.use t)

/-- The immediate pieces of a piece. The statements of a function body stand in a body, the
members of a type among members, and the statements inside a condition, a loop or a group
where the statement around them stands. -/
inductive Piece.Child : Piece → Piece → Prop
  | unary {op : UnaryOp} {e : Expr} {sp : Span} : Child (.expr (.unary op e sp)) (.expr e)
  | binaryLeft {op : BinOp} {l r : Expr} {sp : Span} :
      Child (.expr (.binary op l r sp)) (.expr l)
  | binaryRight {op : BinOp} {l r : Expr} {sp : Span} :
      Child (.expr (.binary op l r sp)) (.expr r)
  | ternaryCond {c t e : Expr} {sp : Span} : Child (.expr (.ternary c t e sp)) (.expr c)
  | ternaryThen {c t e : Expr} {sp : Span} : Child (.expr (.ternary c t e sp)) (.expr t)
  | ternaryElse {c t e : Expr} {sp : Span} : Child (.expr (.ternary c t e sp)) (.expr e)
  | cast {ty : Builtin} {en : Option Endian} {e : Expr} {sp : Span} :
      Child (.expr (.cast ty en e sp)) (.expr e)
  | scope {ty : TypeDecl} {m : String} {sp : Span} : Child (.expr (.scope ty m sp)) (.use ty)
  | callArg {name ns : String} {args : List Expr} {sp : Span} {a : Expr} :
      a ∈ args → Child (.expr (.call name ns args sp)) (.expr a)
  | pathIndex {segs : List PathSeg} {sp : Span} {i : Expr} :
      .index i ∈ segs → Child (.expr (.path segs sp)) (.expr i)
  | addressOfIndex {segs : List PathSeg} {sp : Span} {i : Expr} :
      .index i ∈ segs → Child (.expr (.addressOf segs sp)) (.expr i)
  | sizeOfIndex {segs : List PathSeg} {sp : Span} {i : Expr} :
      .index i ∈ segs → Child (.expr (.sizeOfPath segs sp)) (.expr i)
  | varType {k : Site} {n : String} {ty : TypeDecl} {pl : Placement} {attrs : List Attribute}
      {sp : Span} : Child (.stmt k (.var n ty pl attrs sp)) (.use ty)
  | varOffset {k : Site} {n : String} {ty : TypeDecl} {e : Expr} {attrs : List Attribute}
      {sp : Span} : Child (.stmt k (.var n ty (.atOffset e) attrs sp)) (.expr e)
  | arrayType {k : Site} {n : String} {ty : TypeDecl} {size : ArraySize} {pl : Placement}
      {attrs : List Attribute} {sp : Span} : Child (.stmt k (.array n ty size pl attrs sp)) (.use ty)
  | arrayCount {k : Site} {n : String} {ty : TypeDecl} {c : Expr} {pl : Placement}
      {attrs : List Attribute} {sp : Span} :
      Child (.stmt k (.array n ty (.fixed c) pl attrs sp)) (.expr c)
  | arrayCond {k : Site} {n : String} {ty : TypeDecl} {c : Expr} {pl : Placement}
      {attrs : List Attribute} {sp : Span} :
      Child (.stmt k (.array n ty (.whileCond c) pl attrs sp)) (.expr c)
  | arrayOffset {k : Site} {n : String} {ty : TypeDecl} {size : ArraySize} {e : Expr}
      {attrs : List Attribute} {sp : Span} :
      Child (.stmt k (.array n ty size (.atOffset e) attrs sp)) (.expr e)
  | pointerTarget {k : Site} {n : String} {ty : TypeDecl} {a : Builtin} {en : Option Endian}
      {pl : Placement} {attrs : List Attribute} {sp : Span} :
      Child (.stmt k (.pointer n ty a en pl attrs sp)) (.use ty)
  | pointerOffset {k : Site} {n : String} {ty : TypeDecl} {a : Builtin} {en : Option Endian}
      {e : Expr} {attrs : List Attribute} {sp : Span} :
      Child (.stmt k (.pointer n ty a en (.atOffset e) attrs sp)) (.expr e)
  | padding {k : Site} {size : Expr} {sp : Span} : Child (.stmt k (.padding size sp)) (.expr size)
  | multiType {k : Site} {names : List String} {ty : TypeDecl} {sp : Span} :
      Child (.stmt k (.multi names ty sp)) (.use ty)
  | typeDef {k : Site} {d : TypeDecl} {sp : Span} : Child (.stmt k (.typeDef d sp)) (.decl d)
  | param {k : Site} {n : String} {ps : List Param} {b : List Stmt} {sp : Span} {p : Param} :
      p ∈ ps → Child (.stmt k (.function n ps b sp)) (.use p.ty)
  | functionBody {k : Site} {n : String} {ps : List Param} {b : List Stmt} {sp : Span} {s : Stmt} :
      s ∈ b → Child (.stmt k (.function n ps b sp)) (.stmt .body s)
  | ifCond {k : Site} {c : Expr} {t e : List Stmt} {sp : Span} :
      Child (.stmt k (.ifElse c t e sp)) (.expr c)
  | ifThen {k : Site} {c : Expr} {t e : List Stmt} {sp : Span} {s : Stmt} :
      s ∈ t → Child (.stmt k (.ifElse c t e sp)) (.stmt k s)
  | ifElse {k : Site} {c : Expr} {t e : List Stmt} {sp : Span} {s : Stmt} :
      s ∈ e → Child (.stmt k (.ifElse c t e sp)) (.stmt k s)
  | whileCond {k : Site} {c : Expr} {b : List Stmt} {post : Option Stmt} {sp : Span} :
      Child (.stmt k (.whileLoop c b post sp)) (.expr c)
  | whileBody {k : Site} {c : Expr} {b : List Stmt} {post : Option Stmt} {sp : Span} {s : Stmt} :
      s ∈ b → Child (.stmt k (.whileLoop c b post sp)) (.stmt k s)
  | whilePost {k : Site} {c : Expr} {b : List Stmt} {sp : Span} {s : Stmt} :
      Child (.stmt k (.whileLoop c b (some s) sp)) (.stmt k s)
  | compound {k : Site} {ss : List Stmt} {sp : Span} {s : Stmt} :
      s ∈ ss → Child (.stmt k (.compound ss sp)) (.stmt k s)
  | assign {k : Site} {n : String} {v : Expr} {sp : Span} : Child (.stmt k (.assign n v sp)) (.expr v)
  | returnValue {k : Site} {e : Expr} {sp : Span} :
      Child (.stmt k (.returnWith (some e) sp)) (.expr e)
  | exprStmt {k : Site} {e : Expr} {sp : Span} : Child (.stmt k (.exprStmt e sp)) (.expr e)
  | use {d : TypeDecl} {x : Piece} : d.body.Holds x → Child (.use d) x
  | decl {d : TypeDecl} {x : Piece} : d.body.Holds x → Child (.decl d) x

namespace Piece

open Relation

/-- `G` holds of `x` and of every piece below it. -/
def Deep (G : Piece → Prop) (x : Piece) : Prop := ∀ y, ReflTransGen Child x y → G y

variable {G G' : Piece → Prop} {x y : Piece}

lemma Deep.self (h : x.Deep G) : G x := h x .refl

lemma Deep.child (h : x.Deep G) (hy : Child x y) : y.Deep G :=
  fun z hz => h z (ReflTransGen.head hy hz)

/-- A piece is deep in `G` when it has `G` and its immediate pieces are deep in `G`. -/
lemma Deep.intro (hx : G x) (hc : ∀ y, Child x y → y.Deep G) : x.Deep G := by
  intro z hz
  rcases ReflTransGen.cases_head hz with rfl | ⟨y, hy, hyz⟩
  · exact hx
  · exact hc y hy z hyz

lemma Deep.mono (h : x.Deep G) (hG : ∀ y, G y → G' y) : x.Deep G' := fun z hz => hG z (h z hz)

/-- A type use is made of the pieces of its body, as the declaration it copies is. -/
lemma Deep.use_of_body {d e : TypeDecl} (he : (Piece.decl e).Deep G) (hb : d.body = e.body)
    (hd : G (.use d)) : (Piece.use d).Deep G :=
  Deep.intro hd fun y hy => by
    cases hy with
    | use h => exact he.child (.decl (hb ▸ h))

/-- A declaration whose attributes change keeps the pieces of its body. -/
lemma Deep.decl_of_body {d e : TypeDecl} (he : (Piece.decl e).Deep G) (hb : d.body = e.body)
    (hd : G (.decl d)) : (Piece.decl d).Deep G :=
  Deep.intro hd fun y hy => by
    cases hy with
    | decl h => exact he.child (.decl (hb ▸ h))

end Piece

/-! ### The pieces of a program -/

/-- The pieces of a program: those below one of its statements, at the top level, or below
one of its registered declarations. -/
def Program.Holds (p : Program) (x : Piece) : Prop :=
  (∃ s ∈ p.stmts, Relation.ReflTransGen Piece.Child (.stmt .top s) x) ∨
    ∃ e ∈ p.types, Relation.ReflTransGen Piece.Child (.decl e.2) x

namespace Program.Holds

variable {p : Program} {x y : Piece}

lemma child (h : p.Holds x) (hy : x.Child y) : p.Holds y := by
  rcases h with ⟨s, hs, hx⟩ | ⟨e, he, hx⟩
  · exact .inl ⟨s, hs, hx.tail hy⟩
  · exact .inr ⟨e, he, hx.tail hy⟩

lemma stmt {s : Stmt} (hs : s ∈ p.stmts) : p.Holds (.stmt .top s) := .inl ⟨s, hs, .refl⟩

lemma registered {e : String × TypeDecl} (he : e ∈ p.types) : p.Holds (.decl e.2) :=
  .inr ⟨e, he, .refl⟩

/-- A property deep below each statement and each registered declaration of a program holds
of every piece of it. -/
lemma of_deep {G : Piece → Prop} (hs : ∀ s ∈ p.stmts, (Piece.stmt .top s).Deep G)
    (ht : ∀ e ∈ p.types, (Piece.decl e.2).Deep G) (h : p.Holds x) : G x := by
  rcases h with ⟨s, hm, hx⟩ | ⟨e, hm, hx⟩
  · exact hs s hm x hx
  · exact ht e hm x hx

end Program.Holds

/-! ### Type uses that name the registry -/

/-- A type use names the registry `R`, beside the names `O` whose declarations are still
being read: it is a forward reference to a registered or an open name, a copy of the
registered declaration of its name with the byte order possibly replaced, or a builtin used
directly. -/
def TypeDecl.NamesIn (R : List (String × TypeDecl)) (O : List String) (d : TypeDecl) : Prop :=
  (∃ q, d.body = .forward q ∧ (q ∈ R.map Prod.fst ∨ q ∈ O)) ∨
    (∃ e, R.lookup d.name = some e ∧ { d with endian := e.endian } = e) ∨
    (d.name = "" ∧ ∃ b, d.body = .builtin b)

/-- More registered declarations, and open names that are registered or still open. -/
lemma TypeDecl.NamesIn.mono {R E : List (String × TypeDecl)} {O O' : List String} {d : TypeDecl}
    (h : d.NamesIn R O) (hO : ∀ q ∈ O, q ∈ (R ++ E).map Prod.fst ∨ q ∈ O') :
    d.NamesIn (R ++ E) O' := by
  rcases h with ⟨q, hq, hk | ho⟩ | ⟨e, he, hde⟩ | hb
  · exact .inl ⟨q, hq, .inl (by simp only [List.map_append, List.mem_append]; exact .inl hk)⟩
  · exact .inl ⟨q, hq, hO q ho⟩
  · exact .inr (.inl ⟨e, by rw [List.lookup_append, he]; rfl, hde⟩)
  · exact .inr (.inr hb)

/-- A piece in its place: a statement its place admits, a type use that names the registry
`R` beside the open names `O`. -/
def Piece.Valid (R : List (String × TypeDecl)) (O : List String) : Piece → Prop
  | .stmt k s => s.Fits k
  | .use d => d.NamesIn R O
  | .expr _ | .decl _ => True

lemma Piece.Valid.mono {R E : List (String × TypeDecl)} {O O' : List String} {x : Piece}
    (h : x.Valid R O) (hO : ∀ q ∈ O, q ∈ (R ++ E).map Prod.fst ∨ q ∈ O') :
    x.Valid (R ++ E) O' := by
  cases x with
  | use d => exact TypeDecl.NamesIn.mono h hO
  | stmt k s => exact h
  | expr e => trivial
  | decl d => trivial

/-- Every piece of the program stands in its place and every type use in it names the
registry. -/
def Program.Valid (p : Program) : Prop := ∀ x, p.Holds x → x.Valid p.types []

/-- The registry entry a statement makes: a type definition registers its type under the
type's name. -/
def Stmt.typeEntry? : Stmt → Option (String × TypeDecl)
  | .typeDef d _ => some (d.name, d)
  | _ => none

end ByteLayout

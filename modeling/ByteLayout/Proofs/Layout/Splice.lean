import Mathlib
import ByteLayout.Syntax.Tree

/-!
# What a program builds and what it splices

A struct's children are not only its members' nodes. The children of its bases are spliced
in ahead of the members, and so are the children of a member whose declaration or type
carries `[[inline]]`. Whether a struct's children cover it end to end, or whether one of
them starts where it starts, therefore depends on what gets spliced, at any depth. This
file states, on the syntax of a program alone, which declarations a program can build and
which of them end up spliced into which.

A type use stands for the body it builds (`TypeDecl.Resolves`): its own, or through an
alias or a forward reference the body of the declaration it names. The types a program
builds (`Program.Builds`) are its registered declarations, the types of its top-level
declarations, and every base, member type and alias target inside one of those.

Members of structs, unions and member conditions are always placed at the cursor in a
parsed program; `Program.MembersAtCursor` says so of every type the program builds.

## Main definitions

* `TypeDecl.Resolves` — the body a type use builds.
* `Stmt.AtCursor`, `Program.MembersAtCursor` — members placed at the cursor.
* `Program.Builds` — the types a program can build.
* `TypeDecl.Inlined`, `Stmt.Splices`, `TypeDecl.Spliced` — which types are spliced where.
* `TypeDecl.StructClosed` — a type whose splices, at any depth, are all structs.
* `Program.SplicesAnchoring` — every splice in the program is of a struct, a union or a
  bitfield with a field.
-/

namespace ByteLayout

/-- Aliases and forward references stand for another declaration. -/
def TypeBody.refers : TypeBody → Bool
  | .alias _ | .forward _ => true
  | _ => false

/-- The member statements of a struct or union body. -/
def TypeBody.members : TypeBody → List Stmt
  | .struct _ ms => ms
  | .union ms => ms
  | _ => []

/-- A struct body. -/
def TypeBody.isStruct : TypeBody → Bool
  | .struct .. => true
  | _ => false

/-- Bodies whose node has a child at its start, or no children and no bytes: structs and
unions whose own splices are such, and bitfields with at least one field. -/
def TypeBody.anchoring : TypeBody → Bool
  | .struct .. | .union .. => true
  | .bitfield entries => entries.any (!·.padding)
  | _ => false

@[simp] lemma TypeBody.refers_struct (bases : List TypeDecl) (ms : List Stmt) :
    (TypeBody.struct bases ms).refers = false := rfl

@[simp] lemma TypeBody.members_struct (bases : List TypeDecl) (ms : List Stmt) :
    (TypeBody.struct bases ms).members = ms := rfl

@[simp] lemma TypeBody.members_union (ms : List Stmt) : (TypeBody.union ms).members = ms := rfl

/-- A list of attributes asks for inlining. -/
def Attribute.Inline (attrs : List Attribute) : Prop := ∃ a ∈ attrs, a.name = "inline"

/-! ### Resolution -/

namespace TypeDecl

/-- The body a type use builds: its own, or the body of the declaration an alias or a
forward reference names. -/
inductive Resolves (p : Program) : TypeDecl → TypeBody → Prop
  | alias {d t : TypeDecl} {b : TypeBody} : d.body = .alias t → Resolves p t b → Resolves p d b
  | forward {d d' : TypeDecl} {q : String} {b : TypeBody} : d.body = .forward q →
      p.typeNamed? q = some d' → Resolves p d' b → Resolves p d b
  | own {d : TypeDecl} : d.body.refers = false → Resolves p d d.body

variable {p : Program} {d t d' : TypeDecl} {b : TypeBody}

lemma resolves_alias_iff (h : d.body = .alias t) : d.Resolves p b ↔ t.Resolves p b := by
  constructor
  · rintro (⟨h', ht⟩ | ⟨h', -, -⟩ | hown)
    · rw [h] at h'; cases h'; exact ht
    · rw [h] at h'; cases h'
    · simp [h, TypeBody.refers] at hown
  · exact .alias h

lemma resolves_forward_iff {q : String} (h : d.body = .forward q)
    (hq : p.typeNamed? q = some d') : d.Resolves p b ↔ d'.Resolves p b := by
  constructor
  · rintro (⟨h', -⟩ | ⟨h', hq', ht⟩ | hown)
    · rw [h] at h'; cases h'
    · rw [h] at h'; cases h'; rw [hq] at hq'; cases hq'; exact ht
    · simp [h, TypeBody.refers] at hown
  · exact .forward h hq

lemma resolves_own (h : d.body.refers = false) : d.Resolves p b ↔ b = d.body := by
  constructor
  · rintro (⟨h', -⟩ | ⟨h', -, -⟩ | -)
    · simp [h', TypeBody.refers] at h
    · simp [h', TypeBody.refers] at h
    · rfl
  · rintro rfl; exact .own h

/-! ### Inlining -/

/-- A use of the type is inlined by the attributes of the type itself, or of a declaration
it stands for through aliases and forward references. -/
inductive Inlined (p : Program) : TypeDecl → Prop
  | attr {d : TypeDecl} : Attribute.Inline d.attrs → Inlined p d
  | alias {d t : TypeDecl} : d.body = .alias t → Inlined p t → Inlined p d
  | forward {d d' : TypeDecl} {q : String} : d.body = .forward q → p.typeNamed? q = some d' →
      Inlined p d' → Inlined p d

end TypeDecl

/-! ### Member statements -/

namespace Stmt

/-- A member placed at the cursor: declarations without `@`, `in` or `out`, and the members
of both branches of a condition likewise. -/
inductive AtCursor : Stmt → Prop
  | var {n : String} {d : TypeDecl} {attrs : List Attribute} {sp : Span} :
      AtCursor (.var n d .cursor attrs sp)
  | array {n : String} {d : TypeDecl} {size : ArraySize} {attrs : List Attribute} {sp : Span} :
      AtCursor (.array n d size .cursor attrs sp)
  | pointer {n : String} {d : TypeDecl} {a : Builtin} {e : Option Endian}
      {attrs : List Attribute} {sp : Span} : AtCursor (.pointer n d a e .cursor attrs sp)
  | multi {names : List String} {d : TypeDecl} {sp : Span} : AtCursor (.multi names d sp)
  | padding {size : Expr} {sp : Span} : AtCursor (.padding size sp)
  | exprStmt {e : Expr} {sp : Span} : AtCursor (.exprStmt e sp)
  | ifElse {c : Expr} {t e : List Stmt} {sp : Span} : (∀ s ∈ t, AtCursor s) →
      (∀ s ∈ e, AtCursor s) → AtCursor (.ifElse c t e sp)

/-- The types a member statement builds: those of its declarations, and those of the
members of both branches of a condition. -/
inductive Uses : Stmt → TypeDecl → Prop
  | var {n : String} {d : TypeDecl} {pl : Placement} {attrs : List Attribute} {sp : Span} :
      Uses (.var n d pl attrs sp) d
  | array {n : String} {d : TypeDecl} {size : ArraySize} {pl : Placement}
      {attrs : List Attribute} {sp : Span} : Uses (.array n d size pl attrs sp) d
  | pointer {n : String} {d : TypeDecl} {a : Builtin} {e : Option Endian} {pl : Placement}
      {attrs : List Attribute} {sp : Span} : Uses (.pointer n d a e pl attrs sp) d
  | multi {names : List String} {d : TypeDecl} {sp : Span} : Uses (.multi names d sp) d
  | thenBranch {c : Expr} {t e : List Stmt} {sp : Span} {s : Stmt} {d : TypeDecl} :
      s ∈ t → Uses s d → Uses (.ifElse c t e sp) d
  | elseBranch {c : Expr} {t e : List Stmt} {sp : Span} {s : Stmt} {d : TypeDecl} :
      s ∈ e → Uses s d → Uses (.ifElse c t e sp) d

/-- The types whose children a member statement splices into the enclosing compound: an
inlined variable's type, in either branch of a condition. -/
inductive Splices (p : Program) : Stmt → TypeDecl → Prop
  | var {n : String} {d : TypeDecl} {pl : Placement} {attrs : List Attribute} {sp : Span} :
      Attribute.Inline attrs ∨ d.Inlined p → Splices p (.var n d pl attrs sp) d
  | multi {names : List String} {d : TypeDecl} {sp : Span} :
      d.Inlined p → Splices p (.multi names d sp) d
  | thenBranch {c : Expr} {t e : List Stmt} {sp : Span} {s : Stmt} {d : TypeDecl} :
      s ∈ t → Splices p s d → Splices p (.ifElse c t e sp) d
  | elseBranch {c : Expr} {t e : List Stmt} {sp : Span} {s : Stmt} {d : TypeDecl} :
      s ∈ e → Splices p s d → Splices p (.ifElse c t e sp) d

end Stmt

/-! ### The types a program builds -/

/-- `d'` is built as part of `d`: a base, the type of a member, or an alias's target. -/
inductive TypeDecl.Part : TypeDecl → TypeDecl → Prop
  | base {d b : TypeDecl} {bases : List TypeDecl} {ms : List Stmt} :
      d.body = .struct bases ms → b ∈ bases → Part d b
  | member {d d' : TypeDecl} {s : Stmt} : s ∈ d.body.members → s.Uses d' → Part d d'
  | alias {d t : TypeDecl} : d.body = .alias t → Part d t

/-- The types a program can build: its registered declarations, the types of its top-level
declarations, and their parts at any depth. -/
inductive Program.Builds (p : Program) : TypeDecl → Prop
  | registered {q : String} {d : TypeDecl} : p.typeNamed? q = some d → Builds p d
  | declared {s : Stmt} {d : TypeDecl} : s ∈ p.stmts → s.Uses d → Builds p d
  | part {d d' : TypeDecl} : Builds p d → d.Part d' → Builds p d'

/-- Every member of every struct and union the program builds is placed at the cursor. -/
def Program.MembersAtCursor (p : Program) : Prop :=
  ∀ d, p.Builds d → ∀ s ∈ d.body.members, s.AtCursor

/-! ### Splices -/

namespace TypeDecl

/-- `T` is spliced into the compound that `S` builds: a base of a struct, or the type of an
inlined member of a struct or union. -/
inductive Spliced (p : Program) : TypeDecl → TypeDecl → Prop
  | base {S T : TypeDecl} {bases : List TypeDecl} {ms : List Stmt} :
      S.Resolves p (.struct bases ms) → T ∈ bases → Spliced p S T
  | member {S T : TypeDecl} {b : TypeBody} {s : Stmt} :
      S.Resolves p b → s ∈ b.members → s.Splices p T → Spliced p S T

/-- `S` builds a struct, and so does every type spliced into it, at any depth. -/
def StructClosed (p : Program) (S : TypeDecl) : Prop :=
  ∀ T, Relation.ReflTransGen (Spliced p) S T → ∀ b, T.Resolves p b → b.isStruct

variable {p : Program} {d t d' S T : TypeDecl}

lemma spliced_of_resolves_eq (h : ∀ b, d.Resolves p b ↔ d'.Resolves p b) :
    d.Spliced p T ↔ d'.Spliced p T := by
  constructor
  · rintro (⟨hr, hT⟩ | ⟨hr, hs, hT⟩)
    · exact .base ((h _).mp hr) hT
    · exact .member ((h _).mp hr) hs hT
  · rintro (⟨hr, hT⟩ | ⟨hr, hs, hT⟩)
    · exact .base ((h _).mpr hr) hT
    · exact .member ((h _).mpr hr) hs hT

/-- Two uses that build the same body are struct-closed together. -/
lemma structClosed_of_resolves_eq (h : ∀ b, d.Resolves p b ↔ d'.Resolves p b)
    (hd : d.StructClosed p) : d'.StructClosed p := by
  intro T hT
  rcases Relation.ReflTransGen.cases_head hT with rfl | ⟨U, hU, hUT⟩
  · intro b hb
    exact hd d .refl b ((h b).mpr hb)
  · exact hd T (.head ((spliced_of_resolves_eq h).mpr hU) hUT)

lemma StructClosed.isStruct (h : S.StructClosed p) {b : TypeBody} (hb : S.Resolves p b) :
    b.isStruct := h S .refl b hb

lemma StructClosed.of_spliced (h : S.StructClosed p) (hT : S.Spliced p T) :
    T.StructClosed p :=
  fun U hU => h U (.head hT hU)

end TypeDecl

/-- Every type spliced anywhere in the program builds a struct, a union, or a bitfield with
a field: a node with a child at its start. -/
def Program.SplicesAnchoring (p : Program) : Prop :=
  ∀ S, p.Builds S → ∀ T, S.Spliced p T → ∀ b, T.Resolves p b → b.anchoring

end ByteLayout

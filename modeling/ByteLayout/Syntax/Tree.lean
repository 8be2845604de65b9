import ByteLayout.Syntax.Token

/-!
# Syntax trees of pattern programs

A program is a list of statements and the table of the types it declares. The same
statement type serves three places: the top level, the bodies of structs, unions and
member conditionals (where statements describe data), and function bodies (where they
run). Each type use carries its own copy of the declaration it names, except inside the
body of a type still being declared, where it holds a forward reference by name.

## Main definitions

* `Expr`, `PathSeg` — expressions and the segments of member paths.
* `TypeDecl`, `TypeBody` — a type as declared or used: builtin, struct, union, enum,
  bitfield, alias or forward reference.
* `Stmt` — declarations, placements, control flow and calls.
* `Program` — statements and the declared types by qualified name.
-/

namespace ByteLayout

/-- A literal value written in the source. -/
inductive Literal where
  | int (v : Nat)
  | float (v : Binary64)
  | bool (v : Bool)
  | char (v : Char)
  | str (v : String)
  deriving DecidableEq, Repr, Inhabited

/-- The binary operators. -/
inductive BinOp where
  | add | sub | mul | div | mod | shl | shr | bitAnd | bitOr | bitXor
  | logAnd | logOr | logXor | eq | ne | lt | gt | le | ge
  deriving DecidableEq, Repr, Inhabited

/-- The spelling of a binary operator. -/
def BinOp.symbol : BinOp → String
  | .add => "+"
  | .sub => "-"
  | .mul => "*"
  | .div => "/"
  | .mod => "%"
  | .shl => "<<"
  | .shr => ">>"
  | .bitAnd => "&"
  | .bitOr => "|"
  | .bitXor => "^"
  | .logAnd => "&&"
  | .logOr => "||"
  | .logXor => "^^"
  | .eq => "=="
  | .ne => "!="
  | .lt => "<"
  | .gt => ">"
  | .le => "<="
  | .ge => ">="

/-- Every binary operator. -/
def BinOp.all : List BinOp :=
  [.add, .sub, .mul, .div, .mod, .shl, .shr, .bitAnd, .bitOr, .bitXor, .logAnd, .logOr,
    .logXor, .eq, .ne, .lt, .gt, .le, .ge]

/-- The binary operator with a given spelling. -/
def BinOp.ofSymbol? (s : String) : Option BinOp := BinOp.all.find? (·.symbol == s)

/-- The unary operators: `+`, `-`, logical `!` and bitwise `~`. -/
inductive UnaryOp where
  | plus | neg | not | bitNot
  deriving DecidableEq, Repr, Inhabited

/-- The spelling of a unary operator. -/
def UnaryOp.symbol : UnaryOp → String
  | .plus => "+"
  | .neg => "-"
  | .not => "!"
  | .bitNot => "~"

/-- The unary operator with a given spelling. -/
def UnaryOp.ofSymbol? (s : String) : Option UnaryOp :=
  [UnaryOp.plus, .neg, .not, .bitNot].find? (·.symbol == s)

/-- An attribute `[[name]]` or `[[name("value")]]`, with the span of its name. -/
structure Attribute where
  name : String
  value : Option String
  span : Span
  deriving DecidableEq, Repr, Inhabited

mutual

/-- An expression; every node keeps the span it was read from. -/
inductive Expr where
  | lit (v : Literal) (span : Span)
  /-- A member path such as `a.b[i].c`, `parent.x` or `this`. -/
  | path (segs : List PathSeg) (span : Span)
  /-- `$`, the current offset. -/
  | cursor (span : Span)
  | unary (op : UnaryOp) (e : Expr) (span : Span)
  | binary (op : BinOp) (l r : Expr) (span : Span)
  | ternary (c t e : Expr) (span : Span)
  /-- `[le|be] builtin(e)`. -/
  | cast (ty : Builtin) (endian : Option Endian) (e : Expr) (span : Span)
  /-- `Type::member`, an enum entry. -/
  | scope (ty : TypeDecl) (member : String) (span : Span)
  /-- `ns::name(args)`, with the namespace enclosing the call. -/
  | call (name : String) (ns : String) (args : List Expr) (span : Span)
  | addressOf (segs : List PathSeg) (span : Span)
  | sizeOfPath (segs : List PathSeg) (span : Span)
  | sizeOfType (ty : Builtin) (span : Span)

/-- One step of a member path. -/
inductive PathSeg where
  | name (n : String)
  | parent
  /-- `this`, the compound being built. -/
  | current
  | index (e : Expr)

/-- A type as declared, or as used at one place. The name is qualified by its
namespace and empty for a builtin used directly. -/
structure TypeDecl where
  name : String
  endian : Option Endian
  body : TypeBody
  attrs : List Attribute
  span : Span

/-- What a type is made of. -/
inductive TypeBody where
  | builtin (b : Builtin)
  /-- Inherited types, built before the own members. -/
  | struct (bases : List TypeDecl) (members : List Stmt)
  | union (members : List Stmt)
  | enum (underlying : Builtin) (entries : List EnumEntry)
  | bitfield (entries : List BitfieldEntry)
  /-- `using Name = Type;`. -/
  | alias (target : TypeDecl)
  /-- A type whose declaration was still open where it was used. -/
  | forward (name : String)

/-- An enum entry and the expression of its value. -/
structure EnumEntry where
  name : String
  value : Expr

/-- A bitfield entry of `width` bits; padding entries produce no field. -/
structure BitfieldEntry where
  name : String
  width : Expr
  padding : Bool

/-- Where a declaration takes its data from. -/
inductive Placement where
  /-- At the cursor, which then moves past it. -/
  | cursor
  /-- `@ offset`; the cursor stays where it was. -/
  | atOffset (e : Expr)
  /-- `in`: a value supplied by the host. -/
  | input
  /-- `out`: a value reported to the host. -/
  | output

/-- How many elements an array has. -/
inductive ArraySize where
  | fixed (count : Expr)
  /-- Elements are read while the condition holds. -/
  | whileCond (cond : Expr)
  /-- Elements are read up to and including the first all-zero one. -/
  | unsized

/-- A statement. -/
inductive Stmt where
  | var (name : String) (ty : TypeDecl) (placement : Placement) (attrs : List Attribute)
      (span : Span)
  | array (name : String) (ty : TypeDecl) (size : ArraySize) (placement : Placement)
      (attrs : List Attribute) (span : Span)
  /-- `Target *name : AddressType`. -/
  | pointer (name : String) (target : TypeDecl) (addrType : Builtin)
      (addrEndian : Option Endian) (placement : Placement) (attrs : List Attribute)
      (span : Span)
  | padding (size : Expr) (span : Span)
  /-- `Type a, b, c;`. -/
  | multi (names : List String) (ty : TypeDecl) (span : Span)
  | typeDef (decl : TypeDecl) (span : Span)
  | function (name : String) (params : List Param) (body : List Stmt) (span : Span)
  | ifElse (cond : Expr) (thenBody elseBody : List Stmt) (span : Span)
  /-- A loop; `post` runs after each iteration (a `for` loop's step). -/
  | whileLoop (cond : Expr) (body : List Stmt) (post : Option Stmt) (span : Span)
  /-- Statements run in sequence without a scope of their own. -/
  | compound (stmts : List Stmt) (span : Span)
  | assign (name : String) (value : Expr) (span : Span)
  | returnWith (value : Option Expr) (span : Span)
  | breakLoop (span : Span)
  | continueLoop (span : Span)
  /-- An expression run for its effect: a call. -/
  | exprStmt (e : Expr) (span : Span)

/-- A function parameter: its name (or position) and type. -/
structure Param where
  name : String
  ty : TypeDecl

end

/-- The span an expression was read from. -/
def Expr.span : Expr → Span
  | .lit _ s => s
  | .path _ s => s
  | .cursor s => s
  | .unary _ _ s => s
  | .binary _ _ _ s => s
  | .ternary _ _ _ s => s
  | .cast _ _ _ s => s
  | .scope _ _ s => s
  | .call _ _ _ s => s
  | .addressOf _ s => s
  | .sizeOfPath _ s => s
  | .sizeOfType _ s => s

/-- The span a statement was read from. -/
def Stmt.span : Stmt → Span
  | .var _ _ _ _ s => s
  | .array _ _ _ _ _ s => s
  | .pointer _ _ _ _ _ _ s => s
  | .padding _ s => s
  | .multi _ _ s => s
  | .typeDef _ s => s
  | .function _ _ _ s => s
  | .ifElse _ _ _ s => s
  | .whileLoop _ _ _ s => s
  | .compound _ s => s
  | .assign _ _ s => s
  | .returnWith _ s => s
  | .breakLoop s => s
  | .continueLoop s => s
  | .exprStmt _ s => s

instance : Inhabited TypeDecl := ⟨⟨"", none, .builtin .auto, [], default⟩⟩

namespace TypeDecl

/-- A builtin type used directly. -/
def ofBuiltin (b : Builtin) (endian : Option Endian) (span : Span) : TypeDecl :=
  ⟨"", endian, .builtin b, [], span⟩

/-- The builtin type a declaration stands for, through aliases. -/
def asBuiltin? (t : TypeDecl) : Option Builtin :=
  match t with
  | ⟨_, _, .builtin b, _, _⟩ => some b
  | ⟨_, _, .alias inner, _, _⟩ => inner.asBuiltin?
  | _ => none

/-- The name a type is shown by: its declared name, else the builtin's spelling. -/
def displayName (t : TypeDecl) : String :=
  if !t.name.isEmpty then t.name
  else
    match t with
    | ⟨_, _, .builtin b, _, _⟩ => b.name
    | ⟨_, _, .alias inner, _, _⟩ => inner.displayName
    | ⟨_, _, .forward n, _, _⟩ => n
    | _ => ""

end TypeDecl

/-- A parsed program: the statements, namespace contents flattened, and every declared
type by its qualified name, in declaration order. -/
structure Program where
  stmts : List Stmt
  types : List (String × TypeDecl)

/-- The declared type with a qualified name. -/
def Program.typeNamed? (p : Program) (name : String) : Option TypeDecl :=
  p.types.lookup name

end ByteLayout

import ByteLayout.Syntax.Parser.Basic

/-!
# Types and expressions

Type uses `[le|be] (builtin | ns::Name)` and the expression grammar: a precedence ladder
from the right-associative ternary through ten levels of left-associative binary
operators (`||`, `^^`, `&&`, `|`, `^`, `&`, equality, comparison, shifts, additive,
multiplicative), then unary operators, casts `[le|be] builtin(e)` whose operand is a
primary, and primaries: literals, parentheses, calls, `Type::member`, member paths, `$`,
`addressof(path)` and `sizeof(path | builtin)`.

Every function takes a fuel argument that each nested call lowers by one. The parser
never needs more than a fixed multiple of the number of tokens, which is what the
callers supply.

## Main definitions

* `Parse.typeUse` — a type use, with `str` and `auto` allowed only where asked.
* `Parse.expr` — an expression.
* `Parse.call` — a call `ns::name(args)`.
-/

namespace ByteLayout

namespace Parse

/-- A type use: `[le|be]` then a type name or a builtin. A qualifier given here replaces
the declaration's own byte order; `str` and `auto` only where `allowAny` holds (in
functions). -/
def typeUse (allowAny : Bool) : Parse TypeDecl := do
  let span ← spanAt 0
  let endian : Option Endian ← do
    if ← accept [.kw "le"] then pure (some .little)
    else if ← accept [.kw "be"] then pure (some .big)
    else pure none
  if ← peekAt .ident 0 then
    let name ← namespacePath
    match ← instantiate? name span with
    | none => failAt (.unknownType name) (-1)
    | some d => return if endian.isSome then { d with endian := endian } else d
  else if ← accept [.builtin] then
    let b ← builtinBefore
    if !allowAny && (b == .str || b == .auto) then failAt (.disallowedType b.name) (-1)
    return TypeDecl.ofBuiltin b endian span
  else fail .expectedType

/-- The binary operators by precedence level, loosest first. -/
def binaryLevels : List (List (String × BinOp)) :=
  [[("||", .logOr)], [("^^", .logXor)], [("&&", .logAnd)], [("|", .bitOr)],
    [("^", .bitXor)], [("&", .bitAnd)], [("==", .eq), ("!=", .ne)],
    [("<", .lt), (">", .gt), ("<=", .le), (">=", .ge)], [("<<", .shl), (">>", .shr)],
    [("+", .add), ("-", .sub)], [("*", .mul), ("/", .div), ("%", .mod)]]

/-- The operator of a level at the position, if there is one. -/
def levelOp? (level : Nat) : Parse (Option BinOp) := do
  match ← kindAt 0 with
  | .symbol s => return (binaryLevels.getD level []).lookup s
  | _ => return none

/-- The literal a token stands for. -/
def literalOf? : Token.Kind → Option Literal
  | .int v => some (.int v)
  | .float v => some (.float v)
  | .str v => some (.str v)
  | .char v => some (.char v)
  | .bool v => some (.bool v)
  | _ => none

/-- Requires the `)` closing the operand of `addressof` or `sizeof`. -/
def closeOperand (what : String) : Parse Unit := do
  unless ← accept [.sym ")"] do fail (.expectedClosing ("')' after " ++ what ++ " operand"))

/-- A call `ns::name(args)`, recording the namespace it appears in; `args` reads the
arguments after the opening parenthesis. -/
def callWith (args : Parse (List Expr)) : Parse Expr := do
  let span ← spanAt 0
  let name ← namespacePath
  unless ← accept [.sym "("] do fail .expectedCallParen
  let args ← if ← accept [.sym ")"] then pure [] else args
  return .call name ("::".intercalate (← get).ns) args (span.merge (← spanAt (-1)))

mutual

/-- An expression. -/
def expr : Nat → Parse Expr
  | 0 => fail .tooDeep
  | fuel + 1 => ternary fuel

/-- `c ? t : e`, right-associative. -/
def ternary : Nat → Parse Expr
  | 0 => fail .tooDeep
  | fuel + 1 => do
    let c ← binary fuel 0
    if !(← accept [.sym "?"]) then return c
    let t ← ternary fuel
    unless ← accept [.sym ":"] do fail .expectedTernaryColon
    let e ← ternary fuel
    return .ternary c t e (c.span.merge e.span)

/-- The binary operators from `level` on, tighter levels first. -/
def binary : Nat → Nat → Parse Expr
  | 0, _ => fail .tooDeep
  | fuel + 1, level =>
    if level < binaryLevels.length then do
      let lhs ← binary fuel (level + 1)
      binaryRest fuel level lhs
    else unary fuel

/-- Further operands of one level, folded to the left. -/
def binaryRest : Nat → Nat → Expr → Parse Expr
  | 0, _, _ => fail .tooDeep
  | fuel + 1, level, lhs => do
    match ← levelOp? level with
    | none => return lhs
    | some op =>
      advance 1
      let rhs ← binary fuel (level + 1)
      binaryRest fuel level (.binary op lhs rhs (lhs.span.merge rhs.span))

/-- Prefix operators, nested. -/
def unary : Nat → Parse Expr
  | 0 => fail .tooDeep
  | fuel + 1 => do
    let start ← spanAt 0
    let op? : Option UnaryOp :=
      match ← kindAt 0 with
      | .symbol s => UnaryOp.ofSymbol? s
      | _ => none
    match op? with
    | some op =>
      advance 1
      let e ← unary fuel
      return .unary op e (start.merge e.span)
    | none => cast fuel

/-- `[le|be] builtin(e)`, else a primary. -/
def cast : Nat → Parse Expr
  | 0 => fail .tooDeep
  | fuel + 1 => do
    let k ← kindAt 0
    let starts := (TokenClass.kw "le").test k || (TokenClass.kw "be").test k ||
      TokenClass.builtin.test k
    if !starts then primary fuel
    else
      let start ← spanAt 0
      let target ← typeUse true
      match (if target.name.isEmpty then target.asBuiltin? else none) with
      | none => failAt .castTarget (-1)
      | some ty =>
        unless ← peekAt (.sym "(") 0 do fail .expectedCastParen
        let e ← primary fuel
        return .cast ty target.endian e (start.merge e.span)

/-- Literals, parentheses, calls, scope resolution, paths, `$`, `addressof`, `sizeof`. -/
def primary : Nat → Parse Expr
  | 0 => fail .tooDeep
  | fuel + 1 => do
    let span ← spanAt 0
    let k ← kindAt 0
    match literalOf? k with
    | some l => advance 1; return .lit l span
    | none =>
    if ← accept [.sym "("] then
      let inner ← expr fuel
      unless ← accept [.sym ")"] do failAt (.expectedClosing "parenthesis") (-1)
      return inner
    if ← peekCall then return ← callWith (arguments fuel [])
    -- `Type::member`, `ns::Type::member`
    if (← peekAt .ident 0) && (← peekAt (.sym "::") 1) then
      let first ← identHere
      advance 1
      return ← scopeRest fuel span first
    if TokenClass.ident.test k || (TokenClass.kw "parent").test k ||
        (TokenClass.kw "this").test k then
      let segs ← path fuel []
      return .path segs (span.merge (← spanAt (-1)))
    if ← accept [.sym "$"] then return .cursor span
    if ← accept [.kw "addressof", .sym "("] then
      let segs ← path fuel []
      closeOperand "addressof"
      return .addressOf segs (span.merge (← spanAt (-1)))
    if ← accept [.kw "sizeof", .sym "("] then
      let e ← do
        if ← accept [.builtin] then pure (Expr.sizeOfType (← builtinBefore) span)
        else pure (Expr.sizeOfPath (← path fuel []) span)
      closeOperand "sizeof"
      let whole := span.merge (← spanAt (-1))
      return match e with
        | .sizeOfType b _ => .sizeOfType b whole
        | .sizeOfPath p _ => .sizeOfPath p whole
        | other => other
    if TokenClass.eof.test k then failAt .unexpectedEnd (-1)
    fail (.expectedValue k)

/-- A member path `a.b[i].c`: names, `parent`, `this` first only, each optionally
indexed once. -/
def path : Nat → List PathSeg → Parse (List PathSeg)
  | 0, _ => fail .tooDeep
  | fuel + 1, acc => do
    let seg : PathSeg ← do
      if ← accept [.ident] then pure (.name (← identBefore 1))
      else if ← accept [.kw "parent"] then pure .parent
      else if acc.isEmpty then
        if ← accept [.kw "this"] then pure .current else fail .expectedPathIdent
      else fail .expectedPathIdent
    let acc := acc ++ [seg]
    let acc ← do
      if ← accept [.sym "["] then
        let i ← expr fuel
        unless ← accept [.sym "]"] do failAt (.expectedClosing "']' after array index") (-1)
        pure (acc ++ [.index i])
      else pure acc
    if ← accept [.sym "."] then path fuel acc else return acc

/-- The rest of a scope resolution `Type::member` after the type name so far: the last
name is the member, the rest names the type, which must be known. -/
def scopeRest : Nat → Span → String → Parse Expr
  | 0, _, _ => fail .tooDeep
  | fuel + 1, span, typeName => do
    unless ← accept [.sym "::", .ident] do fail .scopeSyntax
    let part ← identBefore 1
    if (← peekAt (.sym "::") 0) && (← peekAt .ident 1) then
      scopeRest fuel span (typeName ++ "::" ++ part)
    else
      match ← instantiate? typeName span with
      | none => failAt (.invalidScope typeName) (-1)
      | some ty => return .scope ty part (span.merge (← spanAt (-1)))

/-- Call arguments up to the closing parenthesis. -/
def arguments : Nat → List Expr → Parse (List Expr)
  | 0, _ => fail .tooDeep
  | fuel + 1, acc => do
    let a ← expr fuel
    let acc := acc ++ [a]
    if ← accept [.sym ",", .sym ")"] then failAt .trailingComma (-1)
    if ← accept [.sym ")"] then return acc
    unless ← accept [.sym ","] do fail .missingArgComma
    arguments fuel acc

end

/-- A call `ns::name(args)`, recording the namespace it appears in. -/
def call (fuel : Nat) : Parse Expr := callWith (arguments fuel [])

end Parse

end ByteLayout

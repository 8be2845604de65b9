import ByteLayout.Syntax.Parser.Expr

/-!
# Statements and programs

The statement grammar in its three places. At the top level: namespaces, `using`
aliases, calls, placements of variables, arrays and pointers, and the declarations of
structs, unions, enums, bitfields and functions. In the bodies of structs, unions and
member conditionals: member variables (one or several of a type), arrays, pointers,
padding, calls and `if`. In function bodies: assignments (with `op=` forms written out as
`name = name op value`), `return`, `break`, `continue`, `if`, `while`, `for` (written out
as a declaration followed by a loop with a step), calls and local declarations.

Trailing attributes `[[name, name("value")]]` may follow a variable, array, pointer or
type declaration; those of a type declaration also go into the registry.

## Main definitions

* `Parse.statements` — one top-level statement, or the contents of a namespace.
* `parseTokens`, `parse` — a program from tokens or from source text.
-/

namespace ByteLayout

namespace Parse

/-- The attributes a statement can carry, or `none` for statements that carry none. -/
def Stmt.attrs? : Stmt → Option (List Attribute)
  | .var _ _ _ a _ => some a
  | .array _ _ _ _ a _ => some a
  | .pointer _ _ _ _ _ a _ => some a
  | .typeDef d _ => some d.attrs
  | _ => none

/-- Appends attributes to a statement that can carry them. -/
def Stmt.withAttrs (s : Stmt) (more : List Attribute) : Stmt :=
  match s with
  | .var n t p a sp => .var n t p (a ++ more) sp
  | .array n t z p a sp => .array n t z p (a ++ more) sp
  | .pointer n t b e p a sp => .pointer n t b e p (a ++ more) sp
  | .typeDef d sp => .typeDef { d with attrs := d.attrs ++ more } sp
  | other => other

/-- Attribute items up to the end of the list. -/
def attributeItems : Nat → List Attribute → Parse (List Attribute)
  | 0, _ => fail .tooDeep
  | fuel + 1, acc => do
    let span ← spanAt 0
    unless ← accept [.ident] do fail .expectedAttribute
    let name ← identBefore 1
    let value ← do
      if ← accept [.sym "(", .str, .sym ")"] then pure (some (← stringBefore 2))
      else if ← peekAt (.sym "(") 0 then fail (.attributeArgument name)
      else pure none
    let acc := acc ++ [⟨name, value, span⟩]
    if ← accept [.sym ","] then attributeItems fuel acc else return acc

/-- Trailing attributes `[[…]]` of a statement, if any follow. -/
def trailingAttributes (s : Stmt) : Parse Stmt := do
  if !((← peekAt (.sym "[") 0) && (← peekAt (.sym "[") 1)) then return s
  if (Stmt.attrs? s).isNone then fail .attributeTarget
  advance 2
  let attrs ← attributeItems (← get).tokens.size []
  unless ← accept [.sym "]", .sym "]"] do fail .expectedAttributeClose
  if let .typeDef d _ := s then addTypeAttrs d.name attrs
  return Stmt.withAttrs s attrs

/-- The rest of `Type name` or `Type a, b, c` after the first name. -/
def memberVariable (ty : TypeDecl) (span : Span) : Parse Stmt := do
  let first ← identBefore 1
  if !(← peekAt (.sym ",") 0) then return .var first ty .cursor [] span
  let rec more (acc : List String) : Nat → Parse (List String)
    | 0 => return acc
    | fuel + 1 => do
      if ← accept [.sym ",", .ident] then more (acc ++ [← identBefore 1]) fuel
      else return acc
  let names ← more [first] (← get).tokens.size
  return .multi names ty span

/-- The address type of a pointer after `Target *name :`. -/
def pointerTail (target : TypeDecl) (span : Span) : Parse Stmt := do
  let name ← identBefore 2
  let size ← typeUse false
  match size.asBuiltin? with
  | some b =>
    if b.isUnsigned then return .pointer name target b size.endian .cursor [] span
    else failAt .pointerSize (-1)
  | none => failAt .pointerSize (-1)

/-- The size of an array after `[`: nothing, `while (cond)` or a count, then `]`. -/
def arraySize (fuel : Nat) : Parse ArraySize := do
  if ← accept [.sym "]"] then return .unsized
  let size ← do
    if ← accept [.kw "while", .sym "("] then
      let c ← expr fuel
      unless ← accept [.sym ")"] do failAt (.expectedClosing "')' after while head") (-1)
      pure (ArraySize.whileCond c)
    else pure (ArraySize.fixed (← expr fuel))
  unless ← accept [.sym "]"] do
    failAt (.expectedClosing "']' at end of array declaration") (-1)
  return size

/-- Sets the placement of a variable, array or pointer statement. -/
def Stmt.placedAt (s : Stmt) (p : Placement) : Stmt :=
  match s with
  | .var n t _ a sp => .var n t p a sp
  | .array n t z _ a sp => .array n t z p a sp
  | .pointer n t b e _ a sp => .pointer n t b e p a sp
  | other => other

mutual

/-- A member of a struct, union or conditional body. -/
def member : Nat → Parse Stmt
  | 0 => fail .tooDeep
  | fuel + 1 => do
    let span ← spanAt 0
    let s : Stmt ← do
      if ← peekCall then pure (.exprStmt (← call fuel) span)
      else if ← peekTypeStart then
        let ty ← typeUse false
        if ← peekArrayDeclarator then
          advance 2
          let name ← identBefore 2
          let size ← arraySize fuel
          pure (.array name ty size .cursor [] span)
        else if ← accept [.ident] then memberVariable ty span
        else if ← accept [.sym "*", .ident, .sym ":"] then pointerTail ty span
        else fail .invalidVariable
      else if ← accept [.kw "padding", .sym "["] then
        let size ← expr fuel
        unless ← accept [.sym "]"] do failAt (.expectedClosing "']' at end of padding") (-1)
        pure (.padding size span)
      else if ← accept [.kw "if", .sym "("] then
        return ← memberConditional fuel span
      else if ← peekAt .eof 0 then failAt .unexpectedEnd (-1)
      else fail (.invalidMember (← kindAt 0))
    let s ← trailingAttributes s
    expectSemicolon
    return s

/-- Members up to and including the closing brace of a block of the named kind. -/
def memberBlock : Nat → String → List Stmt → Parse (List Stmt)
  | 0, _, _ => fail .tooDeep
  | fuel + 1, what, acc => do
    if ← accept [.sym "\x7d"] then return acc
    if ← peekAt .eof 0 then failAt (.missingClose what) (-1)
    let m ← member fuel
    memberBlock fuel what (acc ++ [m])

/-- A member conditional after `if (`: both branches hold members. -/
def memberConditional : Nat → Span → Parse Stmt
  | 0, _ => fail .tooDeep
  | fuel + 1, span => do
    let c ← expr fuel
    unless ← accept [.sym ")"] do failAt (.expectedClosing "')' after condition") (-1)
    let t ← memberBody fuel
    let e ← if ← accept [.kw "else"] then memberBody fuel else pure []
    skipSemicolons (← get).tokens.size
    return .ifElse c t e span

/-- A braced block of members or a single member. -/
def memberBody : Nat → Parse (List Stmt)
  | 0 => fail .tooDeep
  | fuel + 1 => do
    if ← accept [.sym "\x7b"] then memberBlock fuel "conditional" []
    else return [← member fuel]

end

mutual

/-- A statement of a function body. -/
def functionStatement : Nat → Parse Stmt
  | 0 => fail .tooDeep
  | fuel + 1 => do
    let span ← spanAt 0
    if ← peekAssignment then
      let s ← assignment fuel
      expectSemicolon
      return s
    if ← accept [.kw "return"] then
      let v ← if ← peekAt (.sym ";") 0 then pure none else pure (some (← expr fuel))
      expectSemicolon
      return .returnWith v span
    if ← accept [.kw "break"] then expectSemicolon; return .breakLoop span
    if ← accept [.kw "continue"] then expectSemicolon; return .continueLoop span
    if ← accept [.kw "if", .sym "("] then
      let c ← expr fuel
      unless ← accept [.sym ")"] do failAt (.expectedClosing "')' after condition") (-1)
      let t ← statementBody fuel
      let e ← if ← accept [.kw "else"] then statementBody fuel else pure []
      return .ifElse c t e span
    if ← accept [.kw "while", .sym "("] then
      let c ← expr fuel
      unless ← accept [.sym ")"] do failAt (.expectedClosing "')' after while head") (-1)
      let body ← statementBody fuel
      return .whileLoop c body none span
    if ← accept [.kw "for", .sym "("] then
      let init ← localDeclaration fuel
      unless ← accept [.sym ","] <||> accept [.sym ";"] do
        fail (.expectedForComma "variable declaration")
      let c ← expr fuel
      unless ← accept [.sym ","] <||> accept [.sym ";"] do fail (.expectedForComma "condition")
      unless ← peekAssignment do fail .expectedForStep
      let step ← assignment fuel
      unless ← accept [.sym ")"] do failAt (.expectedClosing "')' after for loop head") (-1)
      let body ← statementBody fuel
      return .compound [init, .whileLoop c body (some step) span] span
    let s ← do
      if ← peekCall then pure (.exprStmt (← call fuel) span)
      else if ← peekTypeStart then localDeclaration fuel
      else if ← peekAt .eof 0 then failAt .unexpectedEnd (-1)
      else fail (.invalidSequence (← kindAt 0))
    expectSemicolon
    return s

/-- `name = value` or `name op= value`, the latter written out. -/
def assignment : Nat → Parse Stmt
  | 0 => fail .tooDeep
  | fuel + 1 => do
    let span ← spanAt 0
    let name ← identHere
    let op := (assignOp? (← kindAt 1)).getD none
    advance 2
    let rhs ← expr fuel
    let value := match op with
      | none => rhs
      | some op => .binary op (.path [.name name] span) rhs (span.merge rhs.span)
    return .assign name value span

/-- `Type a`, `Type a, b` or `Type a = value`, the last as a declaration followed by an
assignment. -/
def localDeclaration : Nat → Parse Stmt
  | 0 => fail .tooDeep
  | fuel + 1 => do
    let span ← spanAt 0
    let ty ← typeUse true
    unless ← accept [.ident] do fail .invalidVariable
    let d ← memberVariable ty span
    if !(← accept [.sym "="]) then return d
    match d with
    | .var name _ _ _ _ =>
      let v ← expr fuel
      return .compound [d, .assign name v span] span
    | _ => failAt .multipleInit (-1)

/-- A braced block of statements or a single statement. -/
def statementBody : Nat → Parse (List Stmt)
  | 0 => fail .tooDeep
  | fuel + 1 => do
    if ← accept [.sym "\x7b"] then statementBlock fuel "block" []
    else return [← functionStatement fuel]

/-- Statements up to and including the closing brace. -/
def statementBlock : Nat → String → List Stmt → Parse (List Stmt)
  | 0, _, _ => fail .tooDeep
  | fuel + 1, what, acc => do
    if ← accept [.sym "\x7d"] then return acc
    if ← peekAt .eof 0 then failAt (.missingClose what) (-1)
    let s ← functionStatement fuel
    statementBlock fuel what (acc ++ [s])

end

/-- Parameters up to the closing parenthesis; unnamed ones are named by their count. -/
def parameters : Nat → Nat → List Param → Parse (List Param)
  | 0, _, _ => fail .tooDeep
  | fuel + 1, unnamed, acc => do
    let ty ← typeUse true
    let (name, unnamed) ← do
      if ← accept [.ident] then pure (← identBefore 1, unnamed)
      else pure (toString unnamed, unnamed + 1)
    let acc := acc ++ [⟨name, ty⟩]
    if ← accept [.sym ","] then return ← parameters fuel unnamed acc
    if ← accept [.sym ")"] then return acc
    fail (.expectedClosing "')' after parameter list")

/-- A function after `fn name (`. -/
def function (fuel : Nat) : Parse Stmt := do
  let span ← spanAt (-3)
  let name := qualify (← get).ns (← identBefore 2)
  if (← get).functions.contains name then failAt (.functionRedefinition name) (-2)
  modify fun s => { s with functions := s.functions ++ [name] }
  let params ← if ← accept [.sym ")"] then pure [] else parameters fuel 0 []
  unless ← accept [.sym "\x7b"] do failAt .expectedFunctionBody (-1)
  let body ← statementBlock fuel "function body" []
  return .function name params body span

/-- Enum entries up to the closing brace; an entry without a value takes the previous
value plus one, the first one zero. -/
def enumEntries : Nat → List EnumEntry → Parse (List EnumEntry)
  | 0, _ => fail .tooDeep
  | fuel + 1, acc => do
    if ← accept [.sym "\x7d"] then return acc
    let span ← spanAt 0
    let entry : EnumEntry ← do
      if ← accept [.ident, .sym "="] then
        let name ← identBefore 2
        let value ← expr fuel
        pure ⟨name, value⟩
      else if ← accept [.ident] then
        let value : Expr := match acc.getLast? with
          | none => .lit (.int 0) span
          | some prev => .binary .add prev.value (.lit (.int 1) span) span
        pure ⟨← identBefore 1, value⟩
      else if ← peekAt .eof 0 then failAt .unexpectedEnd (-1)
      else fail .invalidEnumEntry
    let acc := acc ++ [entry]
    if ← accept [.sym ","] then enumEntries fuel acc
    else if ← accept [.sym "\x7d"] then return acc
    else fail .missingEnumComma

/-- Bitfield entries up to the closing brace. -/
def bitfieldEntries : Nat → List BitfieldEntry → Parse (List BitfieldEntry)
  | 0, _ => fail .tooDeep
  | fuel + 1, acc => do
    if ← accept [.sym "\x7d"] then return acc
    let entry : BitfieldEntry ← do
      if ← accept [.ident, .sym ":"] then
        let name ← identBefore 2
        pure ⟨name, ← expr fuel, false⟩
      else if ← accept [.kw "padding", .sym ":"] then pure ⟨"padding", ← expr fuel, true⟩
      else if ← peekAt .eof 0 then failAt .unexpectedEnd (-1)
      else fail .invalidBitfieldMember
    expectSemicolon
    bitfieldEntries fuel (acc ++ [entry])

/-- Base types after `struct Name :`, separated by commas. -/
def bases : Nat → List TypeDecl → Parse (List TypeDecl)
  | 0, _ => fail .tooDeep
  | fuel + 1, acc => do
    retreat 1
    let base ← namespacePath
    match ← instantiateFinished? base with
    | none => failAt (.unknownBase base) (-1)
    | some d =>
      let acc := acc ++ [d]
      if ← accept [.sym ",", .ident] then bases fuel acc else return acc

/-- A struct after `struct Name`. -/
def structDecl (fuel : Nat) : Parse Stmt := do
  let span ← spanAt (-2)
  let q ← openType (← identBefore 1) (-1)
  let inherits ← do
    if ← accept [.sym ":", .ident] then bases fuel []
    else if ← accept [.sym ":", .builtin] then failAt .builtinBase (-1)
    else pure []
  unless ← accept [.sym "\x7b"] do failAt .expectedStructOpen (-1)
  let members ← memberBlock fuel "struct" []
  let d : TypeDecl := ⟨q, none, .struct inherits members, [], span⟩
  finishType d
  return .typeDef d span

/-- A union after `union Name {`. -/
def unionDecl (fuel : Nat) : Parse Stmt := do
  let span ← spanAt (-3)
  let q ← openType (← identBefore 2) (-2)
  let members ← memberBlock fuel "union" []
  let d : TypeDecl := ⟨q, none, .union members, [], span⟩
  finishType d
  return .typeDef d span

/-- An enum after `enum Name :`: an integer underlying type without byte order. -/
def enumDecl (fuel : Nat) : Parse Stmt := do
  let span ← spanAt (-3)
  let name ← identBefore 2
  let under ← typeUse false
  if under.endian.isSome then failAt .enumEndian (-2)
  let b ← match under.asBuiltin? with
    | some b => if b.isInteger then pure b else failAt .enumUnderlying (-1)
    | none => failAt .enumUnderlying (-1)
  let q ← openType name (-1)
  unless ← accept [.sym "\x7b"] do failAt .expectedEnumOpen (-1)
  let entries ← enumEntries fuel []
  let d : TypeDecl := ⟨q, none, .enum b entries, [], span⟩
  finishType d
  return .typeDef d span

/-- A bitfield after `bitfield Name {`. -/
def bitfieldDecl (fuel : Nat) : Parse Stmt := do
  let span ← spanAt (-3)
  let q ← openType (← identBefore 2) (-2)
  let entries ← bitfieldEntries fuel []
  let d : TypeDecl := ⟨q, none, .bitfield entries, [], span⟩
  finishType d
  return .typeDef d span

/-- A `using Name = Type` alias after `using Name`; the alias takes the target's byte
order. -/
def usingDecl : Parse Stmt := do
  let span ← spanAt (-2)
  retreat 1
  let name ← namespacePath
  unless ← accept [.sym "="] do failAt .expectedUsingEq (-1)
  let target ← typeUse false
  let q ← openType name (-1)
  let d : TypeDecl := ⟨q, target.endian, .alias target, [], span⟩
  finishType d
  return .typeDef d span

/-- A top-level placement: `Type name [@ offset | in | out]`, `Type name[size] @ offset`
or `Type *name : AddressType @ offset`. -/
def placement (fuel : Nat) : Parse Stmt := do
  let span ← spanAt 0
  let ty ← typeUse false
  if ← peekArrayDeclarator then
    advance 2
    let name ← identBefore 2
    let size ← arraySize fuel
    unless ← accept [.sym "@"] do failAt .expectedPlacement (-1)
    return .array name ty size (.atOffset (← expr fuel)) [] span
  else if ← accept [.ident] then
    let name ← identBefore 1
    let p ← do
      if ← accept [.sym "@"] then pure (Placement.atOffset (← expr fuel))
      else if ← accept [.kw "in"] then pure .input
      else if ← accept [.kw "out"] then pure .output
      else pure .cursor
    return .var name ty p [] span
  else if ← accept [.sym "*", .ident, .sym ":"] then
    let s ← pointerTail ty span
    unless ← accept [.sym "@"] do failAt .expectedPlacement (-1)
    return Stmt.placedAt s (.atOffset (← expr fuel))
  else fail (.invalidSequence (← kindAt 0))

mutual

/-- One top-level statement with its attributes and semicolon, or the contents of a
namespace, or nothing for stray semicolons. -/
def statements : Nat → Parse (List Stmt)
  | 0 => fail .tooDeep
  | fuel + 1 => do
    if ← peekAt (.sym ";") 0 then
      skipSemicolons (← get).tokens.size
      return []
    if ← accept [.kw "namespace"] then
      if !(← peekAt .ident 0) then fail .expectedNamespaceName
      let path ← namespacePath
      let depth := (← get).ns.length
      modify fun s => { s with ns := s.ns ++ path.splitOn "::" }
      unless ← accept [.sym "\x7b"] do fail .expectedNamespaceOpen
      let body ← namespaceBody fuel []
      modify fun s => { s with ns := s.ns.take depth }
      skipSemicolons (← get).tokens.size
      return body
    let s ← do
      if ← accept [.kw "using", .ident] then usingDecl
      else if ← peekCall then
        let c ← call fuel
        pure (.exprStmt c c.span)
      else if ← peekTypeStart then placement fuel
      else if ← accept [.kw "struct", .ident] then structDecl fuel
      else if ← accept [.kw "union", .ident, .sym "\x7b"] then unionDecl fuel
      else if ← accept [.kw "enum", .ident, .sym ":"] then enumDecl fuel
      else if ← accept [.kw "bitfield", .ident, .sym "\x7b"] then bitfieldDecl fuel
      else if ← accept [.kw "fn", .ident, .sym "("] then function fuel
      else fail (.invalidSequence (← kindAt 0))
    let s ← trailingAttributes s
    expectSemicolon
    return [s]

/-- Statements of a namespace up to its closing brace. -/
def namespaceBody : Nat → List Stmt → Parse (List Stmt)
  | 0, _ => fail .tooDeep
  | fuel + 1, acc => do
    if ← accept [.sym "\x7d"] then return acc
    if ← peekAt .eof 0 then failAt (.missingClose "namespace") (-1)
    let more ← statements fuel
    namespaceBody fuel (acc ++ more)

end

/-- Top-level statements up to the end of the tokens. -/
def program : Nat → List Stmt → Parse (List Stmt)
  | 0, _ => fail .tooDeep
  | fuel + 1, acc => do
    if ← peekAt .eof 0 then return acc
    let more ← statements fuel
    program fuel (acc ++ more)

end Parse

/-- The program a token array spells; an empty program is refused. -/
def parseTokens (tokens : Array Token) : Except ParseError Program :=
  let fuel := 64 * (tokens.size + 2)
  let run : Parse Program := do
    let stmts ← Parse.program fuel []
    if stmts.isEmpty then Parse.fail .emptyProgram
    return ⟨stmts, (← get).types⟩
  (run.run' ⟨tokens, 0, [], [], [], []⟩)

end ByteLayout

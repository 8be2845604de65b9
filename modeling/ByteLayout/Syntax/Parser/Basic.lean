import ByteLayout.Syntax.Tree

/-!
# Parser state, faults and token matching

The parser reads a token array from left to right with a position, and keeps the type
registry (finished declarations, names whose declaration is still open), the qualified
names of the functions seen so far and the namespace path it is in. Tokens are matched
by class: any identifier matches the identifier class, any string the string class, and
keywords and symbols by spelling. Positions past the end read as the end token.

An error is reported on the line of a token near the position: the current token, the
one before it, or the one two before; positions outside the array are clamped to it.

## Main definitions

* `ParseFault`, `ParseError` — why and where parsing failed.
* `TokenClass` — the classes tokens are matched by.
* `Parse` — the parser monad, with `peekAt`, `accept`, `failAt`.
* `Registry` operations: `openType`, `finishType`, `instantiate?`.
-/

namespace ByteLayout

/-- Why a token sequence is not a program. -/
inductive ParseFault where
  | emptyProgram
  | expectedIdent
  | missingSemicolon
  /-- A statement cannot start with the given token. -/
  | invalidSequence (tok : Token.Kind)
  | expectedNamespaceName
  | expectedNamespaceOpen
  /-- A closing brace is missing at the end of a block of the named kind. -/
  | missingClose (what : String)
  | expectedUsingEq
  | typeRedefinition (name : String)
  | expectedPlacement
  | unknownType (name : String)
  | disallowedType (name : String)
  | expectedType
  | unknownBase (name : String)
  | builtinBase
  | expectedStructOpen
  | enumEndian
  | enumUnderlying
  | expectedEnumOpen
  | unexpectedEnd
  | invalidEnumEntry
  | missingEnumComma
  | invalidBitfieldMember
  | invalidVariable
  /-- A closing bracket is missing; the text names the bracket and the place. -/
  | expectedClosing (what : String)
  | invalidMember (tok : Token.Kind)
  | pointerSize
  | attributeTarget
  | expectedAttribute
  | attributeArgument (name : String)
  | expectedAttributeClose
  | functionRedefinition (name : String)
  | expectedFunctionBody
  | multipleInit
  | expectedForComma (what : String)
  | expectedForStep
  | expectedTernaryColon
  | castTarget
  | expectedCastParen
  | expectedValue (tok : Token.Kind)
  | expectedPathIdent
  | scopeSyntax
  | invalidScope (name : String)
  | expectedCallParen
  | trailingComma
  | missingArgComma
  /-- Nesting deeper than the parser's budget; no real source reaches it. -/
  | tooDeep
  deriving Repr

/-- The text of a parse fault. -/
def ParseFault.message : ParseFault → String
  | .emptyProgram => "program is empty"
  | .expectedIdent => "expected identifier"
  | .missingSemicolon => "missing ';' at end of expression"
  | .invalidSequence t => "invalid sequence, unexpected " ++ t.describe
  | .expectedNamespaceName => "expected namespace identifier"
  | .expectedNamespaceOpen => "expected '\x7b' at start of namespace"
  | .missingClose what => "missing '\x7d' at end of " ++ what
  | .expectedUsingEq => "expected '=' after type name of using declaration"
  | .typeRedefinition n => "redefinition of type '" ++ n ++ "'"
  | .expectedPlacement => "expected placement instruction"
  | .unknownType n => "unknown type '" ++ n ++ "'"
  | .disallowedType n => "cannot use '" ++ n ++ "' in this context"
  | .expectedType => "failed to parse type, expected identifier or builtin type"
  | .unknownBase n => "cannot inherit from unknown type '" ++ n ++ "'"
  | .builtinBase => "cannot inherit from builtin type"
  | .expectedStructOpen => "expected '\x7b' after struct definition"
  | .enumEndian => "underlying type may not have an endian specification"
  | .enumUnderlying => "invalid underlying type for enum, expected an integer type"
  | .expectedEnumOpen => "expected '\x7b' after enum definition"
  | .unexpectedEnd => "unexpected end of program"
  | .invalidEnumEntry => "invalid enum entry"
  | .missingEnumComma => "missing ',' between enum entries"
  | .invalidBitfieldMember => "invalid bitfield member"
  | .invalidVariable => "invalid variable declaration"
  | .expectedClosing what => "expected closing " ++ what
  | .invalidMember t => "invalid struct member, unexpected " ++ t.describe
  | .pointerSize => "invalid type used for pointer size"
  | .attributeTarget => "tried to apply attribute to invalid statement"
  | .expectedAttribute => "expected attribute expression"
  | .attributeArgument n => "expected a single string argument to attribute '" ++ n ++ "'"
  | .expectedAttributeClose => "expected ']]' to finish attribute"
  | .functionRedefinition n => "redefinition of function '" ++ n ++ "'"
  | .expectedFunctionBody => "expected opening '\x7b' after function definition"
  | .multipleInit => "cannot initialize multiple variables at once"
  | .expectedForComma what => "expected ',' after for loop " ++ what
  | .expectedForStep => "expected for loop variable assignment"
  | .expectedTernaryColon => "expected ':' in ternary expression"
  | .castTarget => "cast target must be a builtin type"
  | .expectedCastParen => "expected '(' after cast type"
  | .expectedValue t => "expected value or parenthesis, got " ++ t.describe
  | .expectedPathIdent => "expected identifier in member path"
  | .scopeSyntax => "failed to parse scope resolution, expected 'TypeName::identifier'"
  | .invalidScope n => "cannot access scope of invalid type '" ++ n ++ "'"
  | .expectedCallParen => "expected '(' after function name"
  | .trailingComma => "unexpected ',' at end of function parameter list"
  | .missingArgComma => "missing ',' between parameters"
  | .tooDeep => "program is nested too deeply"

/-- A parse fault with the line it is reported on. -/
structure ParseError where
  fault : ParseFault
  line : Nat
  deriving Repr

/-- The full text of a parse error. -/
def ParseError.message (e : ParseError) : String :=
  "parse error at line " ++ toString e.line ++ ": " ++ e.fault.message

/-- A class of tokens: identifiers, strings and builtin type names match whatever
they hold, keywords and symbols match by spelling. -/
inductive TokenClass where
  | ident
  | str
  | builtin
  | eof
  | kw (w : String)
  | sym (s : String)
  deriving DecidableEq, Repr

/-- Whether a token kind is of a class. -/
def TokenClass.test : TokenClass → Token.Kind → Bool
  | .ident, .ident _ => true
  | .str, .str _ => true
  | .builtin, .builtin _ => true
  | .eof, .eof => true
  | .kw w, .keyword w' => w == w'
  | .sym s, .symbol s' => s == s'
  | _, _ => false

/-- Joins a namespace path and a name as `a::b::name`. -/
def qualify (ns : List String) (name : String) : String :=
  if ns.isEmpty then name else "::".intercalate ns ++ "::" ++ name

/-- What the parser holds while it reads. -/
structure ParserState where
  tokens : Array Token
  pos : Nat
  /-- Finished type declarations, in order. -/
  types : List (String × TypeDecl)
  /-- Names of types whose declaration is being read. -/
  openTypes : List String
  /-- Qualified names of the functions declared so far. -/
  functions : List String
  /-- The namespace path, outermost first. -/
  ns : List String

/-- The parser monad. -/
abbrev Parse := StateT ParserState (Except ParseError)

namespace Parse

/-- The kind of the token `off` places after the position; the end past the array. -/
def kindAt (off : Nat) : Parse Token.Kind := do
  let s ← get
  return (s.tokens[s.pos + off]?.map (·.kind)).getD .eof

/-- The kind of the token `back` places before the position. -/
def kindBefore (back : Nat) : Parse Token.Kind := do
  let s ← get
  if back ≤ s.pos then return (s.tokens[s.pos - back]?.map (·.kind)).getD .eof
  else return .eof

/-- The span of the token at a signed offset from the position, clamped to the array. -/
def spanAt (off : Int) : Parse Span := do
  let s ← get
  let i : Int := s.pos + off
  let idx : Nat := if i < 0 then 0 else min i.toNat (s.tokens.size - 1)
  return (s.tokens[idx]?.map (·.span)).getD ⟨0, 0, 1⟩

/-- Fails with a fault reported on the line of the token at a signed offset. -/
def failAt {α : Type} (f : ParseFault) (off : Int) : Parse α := do
  let sp ← spanAt off
  throw ⟨f, sp.line⟩

/-- Fails with a fault reported on the line of the current token. -/
def fail {α : Type} (f : ParseFault) : Parse α := failAt f 0

/-- Whether the token `off` places ahead is of a class. -/
def peekAt (c : TokenClass) (off : Nat) : Parse Bool :=
  return c.test (← kindAt off)

/-- Whether the tokens ahead are of the given classes, in order. -/
def peekSeq (cs : List TokenClass) : Parse Bool := do
  let s ← get
  return (cs.zipIdx.all fun (c, i) =>
    c.test ((s.tokens[s.pos + i]?.map (·.kind)).getD .eof))

/-- Moves the position forward. -/
def advance (n : Nat) : Parse Unit := modify fun s => { s with pos := s.pos + n }

/-- Moves the position back. -/
def retreat (n : Nat) : Parse Unit := modify fun s => { s with pos := s.pos - n }

/-- Consumes the tokens ahead if they are of the given classes, in order. -/
def accept (cs : List TokenClass) : Parse Bool := do
  if ← peekSeq cs then advance cs.length; return true
  else return false

/-- Skips any number of semicolons. -/
def skipSemicolons (fuel : Nat) : Parse Unit := do
  match fuel with
  | 0 => return
  | fuel + 1 => if ← accept [.sym ";"] then skipSemicolons fuel

/-- The identifier `back` places before the position. -/
def identBefore (back : Nat) : Parse String := do
  match ← kindBefore back with
  | .ident n => return n
  | _ => failAt .expectedIdent (-(back : Int))

/-- The identifier at the position. -/
def identHere : Parse String := do
  match ← kindAt 0 with
  | .ident n => return n
  | _ => fail .expectedIdent

/-- The string literal `back` places before the position. -/
def stringBefore (back : Nat) : Parse String := do
  match ← kindBefore back with
  | .str v => return v
  | _ => failAt .expectedIdent (-(back : Int))

/-- The builtin type name just before the position. -/
def builtinBefore : Parse Builtin := do
  match ← kindBefore 1 with
  | .builtin b => return b
  | _ => failAt .expectedType (-1)

/-- Requires a semicolon, then skips any further ones. -/
def expectSemicolon : Parse Unit := do
  unless ← accept [.sym ";"] do failAt .missingSemicolon (-1)
  skipSemicolons ((← get).tokens.size)

/-- Whether a type use starts here: `le`, `be`, a builtin name or an identifier. -/
def peekTypeStart : Parse Bool := do
  let k ← kindAt 0
  return (TokenClass.kw "le").test k || (TokenClass.kw "be").test k ||
    TokenClass.builtin.test k || TokenClass.ident.test k

/-- Whether `ns::name(` lies ahead. -/
def peekCall : Parse Bool := do
  let s ← get
  let kind (i : Nat) : Token.Kind := (s.tokens[s.pos + i]?.map (·.kind)).getD .eof
  if !TokenClass.ident.test (kind 0) then return false
  -- skip `:: ident` pairs; each pair is two tokens, so the array bounds the walk
  let rec walk (i : Nat) : Nat → Nat
    | 0 => i
    | fuel + 1 =>
      if (TokenClass.sym "::").test (kind i) && TokenClass.ident.test (kind (i + 1)) then
        walk (i + 2) fuel
      else i
  let i := walk 1 s.tokens.size
  return (TokenClass.sym "(").test (kind i)

/-- Whether `name[` lies ahead, but not `name [[`, which opens attributes. -/
def peekArrayDeclarator : Parse Bool := do
  return (← peekAt .ident 0) && (← peekAt (.sym "[") 1) && !(← peekAt (.sym "[") 2)

/-- The operator of an assignment symbol: `none` for `=`, the operator of `op=`. -/
def assignOp? : Token.Kind → Option (Option BinOp)
  | .symbol "=" => some none
  | .symbol "+=" => some (some .add)
  | .symbol "-=" => some (some .sub)
  | .symbol "*=" => some (some .mul)
  | .symbol "/=" => some (some .div)
  | .symbol "%=" => some (some .mod)
  | .symbol "&=" => some (some .bitAnd)
  | .symbol "|=" => some (some .bitOr)
  | .symbol "^=" => some (some .bitXor)
  | .symbol "<<=" => some (some .shl)
  | .symbol ">>=" => some (some .shr)
  | _ => none

/-- Whether `name = …` or `name op= …` lies ahead. -/
def peekAssignment : Parse Bool := do
  return (← peekAt .ident 0) && (assignOp? (← kindAt 1)).isSome

/-- Reads `a::b::c` from the current identifier. -/
def namespacePath : Parse String := do
  unless ← accept [.ident] do fail .expectedIdent
  let first ← identBefore 1
  let rec more (acc : String) : Nat → Parse String
    | 0 => return acc
    | fuel + 1 => do
      if ← accept [.sym "::", .ident] then more (acc ++ "::" ++ (← identBefore 1)) fuel
      else return acc
  more first (← get).tokens.size

/-! ### The type registry -/

/-- Whether a qualified name is declared or being declared. -/
def isKnownType (name : String) : Parse Bool := do
  let s ← get
  return (s.types.lookup name).isSome || s.openTypes.contains name

/-- Claims a name for a type whose body is about to be read; the fault is reported on
the line of the token at `off`. -/
def openType (name : String) (off : Int) : Parse String := do
  let q := qualify (← get).ns name
  if ← isKnownType q then failAt (.typeRedefinition q) off
  modify fun s => { s with openTypes := s.openTypes ++ [q] }
  return q

/-- Stores a finished declaration under its name. -/
def finishType (d : TypeDecl) : Parse Unit :=
  modify fun s =>
    { s with openTypes := s.openTypes.filter (· != d.name), types := s.types ++ [(d.name, d)] }

/-- Appends attributes to a registered type. -/
def addTypeAttrs (name : String) (attrs : List Attribute) : Parse Unit :=
  modify fun s =>
    { s with types := s.types.map fun (n, d) =>
        if n == name then (n, { d with attrs := d.attrs ++ attrs }) else (n, d) }

/-- Resolves a type name as written, then inside the current namespace. -/
def resolveType? (name : String) : Parse (Option String) := do
  if ← isKnownType name then return some name
  let q := qualify (← get).ns name
  if ← isKnownType q then return some q
  return none

/-- The declaration a use site gets: a copy of the finished type, or a forward
reference to a type still being declared. -/
def instantiate? (name : String) (span : Span) : Parse (Option TypeDecl) := do
  match ← resolveType? name with
  | none => return none
  | some q =>
    match (← get).types.lookup q with
    | some d => return some d
    | none => return some ⟨q, none, .forward q, [], span⟩

/-- A finished type only, as a base of a struct. -/
def instantiateFinished? (name : String) : Parse (Option TypeDecl) := do
  match ← resolveType? name with
  | none => return none
  | some q => return (← get).types.lookup q

end Parse

end ByteLayout

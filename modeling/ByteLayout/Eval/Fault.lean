import ByteLayout.Text.Radix

/-!
# Evaluation faults

Every way evaluating a pattern program can fail, one constructor per cause, with the
text of each in `EvalFault.message`. An `EvalError` adds where the fault happened: the
line of the innermost construct and the name of the innermost declaration being built,
each set once and never overwritten by an enclosing construct.

## Main definitions

* `EvalFault` — the causes, grouped by the part of the evaluator that raises them.
* `EvalError` — a fault with its line and declaration, and `EvalError.message`.
* `EvalFault.isLimit` — the four faults that only a resource limit raises.
-/

namespace ByteLayout

/-- Why an evaluation failed. -/
inductive EvalFault where
  -- Values
  | notInteger (kind : String)
  | notFloat (kind : String)
  | patternAsBool
  | divisionByZero
  | moduloByZero
  | invalidOperand (kind op : String)
  | invalidOperands (lhs rhs op : String)
  | repetitionTooLarge
  -- Reading bytes
  | undecodableSize (size : Nat)
  | invalidFloatSize (size : Nat)
  | paddingValue
  | outOfBounds (offset size length : Nat)
  -- Limits
  | stepLimit (max : Nat)
  | patternLimit (max : Nat)
  | recursionLimit (max : Nat)
  | arrayLimit (max : Nat)
  -- Names and paths
  | undeclaredAssign (name : String)
  | noVariable (name : String)
  | thisOutside
  | noParent
  | emptyPath
  | pathStartsWithIndex
  | arrayIndex (index size : Nat)
  | stringIndex (index length : Nat)
  | nonCompoundMember (name : String)
  | nonArrayIndex
  | misplacedParent
  | noMember (name typeName : String)
  -- Statements
  | paddingTooLarge (size : Nat)
  | functionOnly
  | placementOutOfRange (address : Nat)
  | hostVariableType
  | declarationInFunction
  | definitionInFunction
  | localNotBuiltin (name : String)
  -- Types
  | unknownType (name : String)
  | unsizedStr
  | autoPlacement
  | enumUnsized
  | bitfieldTooWide
  | stringTooLong (count : Nat)
  | pointerSizeType
  | pointerOutOfRange (address : Nat)
  -- Expressions and calls
  | noReturnValue (name : String)
  | sizeOfType (name : String)
  | patternOnly (op : String)
  | scopeOfType (name : String)
  | noEnumMember (typeName member : String)
  | unknownFunction (name : String)
  /-- A call with the wrong number of arguments; `expected` is already worded. -/
  | arity (name expected : String) (got : Nat)
  | loopControlOutside
  -- Attributes
  | invalidColor (text : String)
  | attributeMissingValue (name : String)
  | attributeUnexpectedValue (name : String)
  | inlineNotNested
  | pointerBaseTarget
  | missingRoleFunction (role name : String)
  | roleArity (role name : String)
  -- Builtin functions
  | assertionFailed (text : String)
  | readOffsetOutOfRange (offset : Nat)
  | invalidReadSize (size : Nat)
  | invalidEndianness (selector : Nat)
  | unterminatedPlaceholder
  | missingFormatArgument
  | invalidFormatSpec (spec : String)
  -- Aborts
  /-- A sum on the 64-bit cursor passed `2 ^ 64`: the run stops as a whole instead of
  failing as an evaluation. -/
  | addOverflow
  /-- The evaluator's own budget ran out; the step limit always comes first when set. -/
  | outOfFuel
  deriving DecidableEq, Repr, Inhabited

/-- The text of an evaluation fault. -/
def EvalFault.message : EvalFault → String
  | .notInteger k => "cannot convert " ++ k ++ " to an integer"
  | .notFloat k => "cannot convert " ++ k ++ " to a floating point value"
  | .patternAsBool => "cannot use a pattern as a boolean"
  | .divisionByZero => "division by zero"
  | .moduloByZero => "modulo by zero"
  | .invalidOperand k op => "invalid operand " ++ k ++ " for operator '" ++ op ++ "'"
  | .invalidOperands l r op =>
    "invalid operands " ++ l ++ " and " ++ r ++ " for operator '" ++ op ++ "'"
  | .repetitionTooLarge => "string repetition count too large"
  | .undecodableSize n => "cannot decode " ++ toString n ++ " bytes as an integer"
  | .invalidFloatSize n => "invalid float size " ++ toString n
  | .paddingValue => "cannot read the value of padding"
  | .outOfBounds o s l =>
    "read out of bounds: offset=0x" ++ Radix.hexUpper o ++ ", size=" ++ toString s ++
      ", data size=" ++ toString l
  | .stepLimit m => "evaluation exceeded the step limit of " ++ toString m
  | .patternLimit m => "pattern limit exceeded (max " ++ toString m ++ ")"
  | .recursionLimit m => "recursion depth exceeded (max " ++ toString m ++ ")"
  | .arrayLimit m => "array grew past the maximum of " ++ toString m ++ " entries"
  | .undeclaredAssign n => "cannot assign to undeclared variable '" ++ n ++ "'"
  | .noVariable n => "no variable named '" ++ n ++ "' found"
  | .thisOutside => "'this' used outside of a compound type"
  | .noParent => "no parent available"
  | .emptyPath => "empty path"
  | .pathStartsWithIndex => "path cannot start with an index"
  | .arrayIndex i n => "array index " ++ toString i ++ " out of bounds (size " ++ toString n ++ ")"
  | .stringIndex i n =>
    "string index " ++ toString i ++ " out of bounds (length " ++ toString n ++ ")"
  | .nonCompoundMember n => "cannot access member '" ++ n ++ "' of a non-compound value"
  | .nonArrayIndex => "cannot index a non-array value"
  | .misplacedParent => "'parent' and 'this' may only start a path"
  | .noMember n t => "no member named '" ++ n ++ "' in '" ++ t ++ "'"
  | .paddingTooLarge n => "padding of " ++ toString n ++ " bytes is too large"
  | .functionOnly => "statement is only allowed inside a function body"
  | .placementOutOfRange a => "placement address 0x" ++ Radix.hexUpper a ++ " is out of range"
  | .hostVariableType => "'in' and 'out' apply only to variables of builtin type"
  | .declarationInFunction => "arrays, pointers and padding cannot be declared inside a function"
  | .definitionInFunction => "types and functions cannot be defined inside a function"
  | .localNotBuiltin n => "local variable '" ++ n ++ "' must have a builtin type"
  | .unknownType n => "unknown type '" ++ n ++ "'"
  | .unsizedStr => "cannot place a 'str' without an explicit size, use 'char[]'"
  | .autoPlacement => "cannot place a variable of type 'auto'"
  | .enumUnsized => "enum underlying type has no size"
  | .bitfieldTooWide => "bitfield exceeds 128 bits"
  | .stringTooLong n => "string length " ++ toString n ++ " is too large"
  | .pointerSizeType => "invalid type used for pointer size"
  | .pointerOutOfRange a => "pointer address 0x" ++ Radix.hexUpper a ++ " is out of range"
  | .noReturnValue n => "function '" ++ n ++ "' did not return a value"
  | .sizeOfType n => "cannot take the size of '" ++ n ++ "'"
  | .patternOnly op => op ++ " can only be applied to patterns, not variables"
  | .scopeOfType n => "cannot access scope of type '" ++ n ++ "'"
  | .noEnumMember t m => "'" ++ t ++ "' has no member named '" ++ m ++ "'"
  | .unknownFunction n => "unknown function '" ++ n ++ "'"
  | .arity n e g =>
    "function '" ++ n ++ "' expects " ++ e ++ " parameter(s), got " ++ toString g
  | .loopControlOutside => "break or continue used outside of a loop"
  | .invalidColor t => "invalid color value '" ++ t ++ "'"
  | .attributeMissingValue n => "used attribute '" ++ n ++ "' without providing a value"
  | .attributeUnexpectedValue n =>
    "provided a value to attribute '" ++ n ++ "' which doesn't take one"
  | .inlineNotNested => "inline attribute can only be applied to nested types"
  | .pointerBaseTarget => "pointer_base attribute may only be applied to a pointer"
  | .missingRoleFunction r n => "cannot find " ++ r ++ " function '" ++ n ++ "'"
  | .roleArity r n => r ++ " function '" ++ n ++ "' needs exactly one parameter"
  | .assertionFailed t => "assertion failed: " ++ t
  | .readOffsetOutOfRange o => "read offset 0x" ++ Radix.hexUpper o ++ " is out of range"
  | .invalidReadSize n => "invalid read size " ++ toString n
  | .invalidEndianness n => "invalid endianness " ++ toString n
  | .unterminatedPlaceholder => "unterminated '\x7b' in format string"
  | .missingFormatArgument => "not enough arguments for format string"
  | .invalidFormatSpec s => "invalid format specifier '\x7b" ++ s ++ "\x7d'"
  | .addOverflow => "attempt to add with overflow"
  | .outOfFuel => "evaluation ran out of fuel"

/-- The faults that only a resource limit raises. -/
def EvalFault.isLimit : EvalFault → Bool
  | .stepLimit _ | .patternLimit _ | .recursionLimit _ | .arrayLimit _ => true
  | _ => false

/-- A fault with the line of the innermost construct and the name of the innermost
declaration it happened in, when known. -/
structure EvalError where
  fault : EvalFault
  line : Option Nat
  node : Option String
  deriving DecidableEq, Repr, Inhabited

namespace EvalError

/-- A fault not yet placed. -/
def ofFault (f : EvalFault) : EvalError := ⟨f, none, none⟩

instance : Coe EvalFault EvalError := ⟨ofFault⟩

/-- Records the line unless an inner construct already did. -/
def withLine (e : EvalError) (line : Nat) : EvalError :=
  if e.line.isSome then e else { e with line := some line }

/-- Records the declaration name unless an inner one already did; empty names are not
recorded. -/
def withNode (e : EvalError) (name : String) : EvalError :=
  if e.node.isSome || name.isEmpty then e else { e with node := some name }

/-- The full text: `eval error`, the place when known, and the fault's text. -/
def message (e : EvalError) : String :=
  let place :=
    match e.line, e.node with
    | some l, some n => " at line " ++ toString l ++ " ('" ++ n ++ "')"
    | some l, none => " at line " ++ toString l
    | none, some n => " in '" ++ n ++ "'"
    | none, none => ""
  "eval error" ++ place ++ ": " ++ e.fault.message

end EvalError

end ByteLayout

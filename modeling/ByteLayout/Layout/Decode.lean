import ByteLayout.Value.Basic
import ByteLayout.Text.Escape
import ByteLayout.Text.Utf16

/-!
# Reading nodes from data

A node is read from the data it was built over: its bytes are assembled into a word in the
node's byte order (the document default when it has none) and interpreted by its kind.
Compound nodes are not read at all; they stand for themselves as pattern values. The
shown text of a node (`Node.formatted`) adds the hexadecimal form to unsigned values, the
entry name to enums, and quotes and escapes to characters and strings.

## Main definitions

* `Data.read` — the bytes of a range, or the out-of-bounds fault.
* `Word.ofBytes` — a word from bytes in a byte order.
* `Node.readValue` — the value of a node.
* `Node.formatted` — the shown text of a node.
-/

namespace ByteLayout

/-- The bytes `[offset, offset + size)` of the data. The range must lie inside the data;
the fault reports the range and the data size. -/
def Data.read (data : ByteArray) (offset size : Nat) : Except EvalFault (List Nat) :=
  if offset + size ≤ data.size then
    .ok ((data.extract offset (offset + size)).toList.map (·.toNat))
  else .error (.outOfBounds offset size data.size)

/-- A word from bytes in a byte order: the first byte is the least significant one in
little endian and the most significant one in big endian. -/
def Word.ofBytes (endian : Endian) (bytes : List Nat) : Nat :=
  match endian with
  | .little => Word.ofBytesLE bytes
  | .big => Word.ofBytesBE bytes

/-- Two-byte code units of a byte list in a byte order; a trailing odd byte is dropped. -/
def Utf16.units (endian : Endian) : List Nat → List Nat
  | a :: b :: rest => Word.ofBytes endian [a, b] :: units endian rest
  | _ => []

namespace Node

/-- The node's bytes as one word, for nodes of at most 16 bytes. -/
def readWord (n : Node) (data : ByteArray) (endian : Endian) : Except EvalFault Nat :=
  if n.size > 16 then .error (.undecodableSize n.size)
  else do
    let bytes ← Data.read data n.offset n.size
    return Word.ofBytes endian bytes

/-- The value of a node, its own byte order taking precedence over `default`. -/
def readValue (n : Node) (data : ByteArray) (default : Endian) : Except EvalFault Value :=
  let endian := n.endian.getD default
  match n.kind with
  | .unsigned | .enum _ | .pointer _ => return .uint (← n.readWord data endian)
  | .signed => return .sint (Word.signExtend (← n.readWord data endian) (n.size * 8))
  | .float => do
    let raw ← n.readWord data endian
    if n.size = 4 then return .float (Binary64.ofBinary32Bits raw)
    else if n.size = 8 then return .float ⟨UInt64.ofNat raw⟩
    else throw (.invalidFloatSize n.size)
  | .boolean => return .bool ((← n.readWord data endian) != 0)
  | .character => return .char (Char.ofNat ((← n.readWord data endian) % 256))
  | .character16 => return .char (Value.charOfCode ((← n.readWord data endian) % 2 ^ 32))
  | .string => do
    let bytes ← Data.read data n.offset n.size
    return .str (String.ofList ((bytes.takeWhile (· != 0)).map Char.ofNat))
  | .string16 => do
    let bytes ← Data.read data n.offset n.size
    let units := (Utf16.units endian bytes).takeWhile (· != 0)
    return .str (String.ofList (Utf16.decode units))
  | .bitfieldField off width =>
    return .uint ((← n.readWord data endian) / 2 ^ off % 2 ^ width)
  | .padding => throw .paddingValue
  | .struct | .union | .bitfield | .array => return .pattern n

/-- The shown text of a node: placeholders for compounds, the address of a pointer, the
entry of an enum, decimal and hexadecimal for unsigned integers, quoted escaped text for
characters and strings, and the plain value otherwise. -/
def formatted (n : Node) (data : ByteArray) (default : Endian) : Except EvalFault String :=
  match n.kind with
  | .struct | .union | .bitfield => return "\x7b ... \x7d"
  | .array => return "[ ... ]"
  | .padding => return ""
  | .pointer _ => do
    let address ← (← n.readValue data default).toUnsigned
    return "*(0x" ++ Radix.hexUpper address ++ ")"
  | .enum entries => do
    let v ← (← n.readValue data default).toUnsigned
    let entry := (entries.find? (·.2 == v)).map (·.1)
    return n.typeName ++ "::" ++ entry.getD "???" ++ " (0x" ++ Radix.hexUpper v ++ ")"
  | .unsigned => do
    let v ← (← n.readValue data default).toUnsigned
    return toString v ++ " (0x" ++ Radix.padLeft '0' (n.size * 2) (Radix.hexUpper v) ++ ")"
  | .character | .character16 => do
    let c ← (← n.readValue data default).toChar
    return "'" ++ Escape.char c ++ "'"
  | .string | .string16 => do
    let v ← n.readValue data default
    return "\"" ++ Escape.string v.display ++ "\""
  | _ => return (← n.readValue data default).display

end Node

end ByteLayout

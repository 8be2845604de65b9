import ByteLayout.Number.Power

/-!
# 128-bit words

The integers of the pattern language are 128-bit words: unsigned values are naturals
below `2 ^ 128`, signed values are their two's-complement readings. This module holds the
conversions between the two readings, truncation to a width in bytes, sign extension,
byte reversal and the assembly of words from bytes in either byte order.

## Main definitions

* `Word.wrap` — an integer reduced modulo `2 ^ 128`.
* `Word.toSigned` — the two's-complement reading of a 128-bit word.
* `Word.signExtend` — the two's-complement reading of the low bits of a word.
* `Word.reverseBytes` — the byte reversal of an `n`-byte word.
* `Word.swapBytes` — the byte reversal of a 128-bit word.
* `Word.ofBytesLE`, `Word.ofBytesBE` — words from byte lists.
-/

namespace ByteLayout

namespace Word

/-- The number of distinct 128-bit words. -/
def modulus : Nat := 2 ^ 128

/-- The largest unsigned 128-bit word. -/
def maxUnsigned : Nat := 2 ^ 128 - 1

/-- The least signed 128-bit value. -/
def minSigned : Int := -(2 ^ 127)

/-- The largest signed 128-bit value. -/
def maxSigned : Int := 2 ^ 127 - 1

/-- An integer reduced modulo `2 ^ 128`, as an unsigned word. -/
def wrap (i : Int) : Nat := (i % (2 ^ 128 : Int)).toNat

/-- The two's-complement reading of a word: words from `2 ^ 127` on are negative. -/
def toSigned (n : Nat) : Int :=
  let m : Nat := n % 2 ^ 128
  if m < 2 ^ 127 then m else (m : Int) - 2 ^ 128

/-- An integer wrapped into the signed 128-bit range. -/
def wrapSigned (i : Int) : Int := toSigned (wrap i)

/-- The low `bits` bits of `n`. -/
def lowBits (n bits : Nat) : Nat := n % 2 ^ bits

/-- The two's-complement reading of the low `bits` bits of a word; a width of zero or of
128 bits and more reads the whole word. The low bits are shifted to the top of the word,
read in two's complement, and shifted back down arithmetically, which copies the sign bit
into the bits above them. -/
def signExtend (n bits : Nat) : Int :=
  if bits = 0 ∨ 128 ≤ bits then toSigned n
  else
    let shift := 128 - bits
    toSigned (n <<< shift) >>> shift

/-- The `i`-th byte of `n`, least significant first. -/
def byte (n i : Nat) : Nat := n / 2 ^ (8 * i) % 256

/-- The bytes of `n` on `size` bytes, least significant first. -/
def bytesLE (n size : Nat) : List Nat := (List.range size).map (byte n)

/-- A word from bytes given least significant first. -/
def ofBytesLE : List Nat → Nat
  | [] => 0
  | b :: rest => b + 256 * ofBytesLE rest

/-- A word from bytes given most significant first. -/
def ofBytesBE (bs : List Nat) : Nat := ofBytesLE bs.reverse

/-- The byte reversal of the low `size` bytes of `n`. -/
def reverseBytes (n size : Nat) : Nat := ofBytesBE (bytesLE n size)

/-- The sixteen bytes of a 128-bit word in the other order. -/
def swapBytes (n : Nat) : Nat := reverseBytes n 16

end Word

end ByteLayout

import ByteLayout.Number.Power

/-!
# UTF-16 decoding

UTF-16 code units decoded into characters. A high surrogate followed by a low surrogate
is one supplementary character; a surrogate without its partner becomes the replacement
character `U+FFFD`, and the unit after an unpaired high surrogate is decoded on its own.

## Main definitions

* `Utf16.decode` — the characters of a list of code units.
-/

namespace ByteLayout

namespace Utf16

/-- Whether a code unit is a high (leading) surrogate. -/
def isHigh (u : Nat) : Bool := 0xD800 ≤ u && u ≤ 0xDBFF

/-- Whether a code unit is a low (trailing) surrogate. -/
def isLow (u : Nat) : Bool := 0xDC00 ≤ u && u ≤ 0xDFFF

/-- The characters of a list of code units below `2 ^ 16`. -/
def decode : List Nat → List Char
  | [] => []
  | u :: rest =>
    if isLow u then '�' :: decode rest
    else if isHigh u then
      match rest with
      | v :: rest' =>
        if isLow v then Char.ofNat (0x10000 + (u - 0xD800) * 0x400 + (v - 0xDC00)) :: decode rest'
        else '�' :: decode (v :: rest')
      | [] => ['�']
    else Char.ofNat u :: decode rest

end Utf16

end ByteLayout

import ByteLayout.Number.Power

/-!
# Digits in a radix

Natural numbers written in bases 2, 8, 10 and 16, with upper- or lower-case letters for
the hexadecimal digits, and left padding to a width.

## Main definitions

* `Radix.digits` — the digit characters of a number, most significant first.
* `Radix.hexUpper` — upper-case hexadecimal without prefix.
* `Radix.padLeft` — a text padded on the left to a width.
-/

namespace ByteLayout

namespace Radix

/-- The character of a digit value below 16. -/
def digitChar (upper : Bool) (d : Nat) : Char :=
  if d < 10 then Char.ofNat (48 + d)
  else Char.ofNat ((if upper then 55 else 87) + d)

/-- The digits of `n` in base `b ≥ 2`, most significant first; zero is `0`. -/
def digits (b : Nat) (upper : Bool) (n : Nat) : List Char :=
  if _h : b ≤ 1 then [digitChar upper n]
  else if n < b then [digitChar upper n]
  else digits b upper (n / b) ++ [digitChar upper (n % b)]
termination_by n
decreasing_by exact Nat.div_lt_self (by omega) (by omega)

/-- Upper-case hexadecimal digits of `n`. -/
def hexUpper (n : Nat) : String := String.ofList (digits 16 true n)

/-- Decimal digits of `n`. -/
def decimal (n : Nat) : String := String.ofList (digits 10 false n)

/-- `s` preceded by copies of `c` up to `width` characters. -/
def padLeft (c : Char) (width : Nat) (s : String) : String :=
  String.ofList (List.replicate (width - s.length) c) ++ s

end Radix

end ByteLayout

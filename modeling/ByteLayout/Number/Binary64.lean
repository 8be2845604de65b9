import ByteLayout.Number.Power

/-!
# Binary floating point by exact arithmetic

IEEE 754 binary64 numbers kept as their bit patterns, together with every operation the
pattern language needs on them: the four basic operations, the remainder of a truncated
division, comparisons, and conversions to and from integers and the binary32 grid.

Every operation is computed in two steps: the exact result is formed as a rational number
in `Nat`/`Int` arithmetic, and one rounding function, `FloatFormat.round`, brings it onto
the grid of the target format, to nearest with ties to even. No operation relies on the
host's floating point.

## Main definitions

* `FloatFormat` — precision and exponent range of a binary format; `binary64`, `binary32`.
* `FloatFormat.round` — the value `num / den * 2 ^ e` rounded to nearest, ties to even.
* `Binary64` — a double as its 64-bit pattern, with `Binary64.view` splitting it into
  NaN, infinities and finite values `(-1) ^ s * m * 2 ^ e`.
* `Binary64.add`, `sub`, `mul`, `div`, `rem`, `lt`, `le`, `beq` — the arithmetic.
* `Binary64.ofInt`, `Binary64.truncClamp`, `Binary64.roundToBinary32` — conversions.
-/

namespace ByteLayout

/-! ### Binary formats -/

/-- A binary floating-point format: `precision` significand bits (the hidden bit
included), and the exponents of the least significant significand bit that finite
values may use, from `minExp` (subnormals) to `maxExp`. -/
structure FloatFormat where
  precision : Nat
  minExp : Int
  maxExp : Int

/-- The IEEE 754 binary64 format. -/
def FloatFormat.binary64 : FloatFormat := ⟨53, -1074, 971⟩

/-- The IEEE 754 binary32 format. -/
def FloatFormat.binary32 : FloatFormat := ⟨24, -149, 104⟩

/-- The outcome of rounding a non-negative value onto a format's grid. -/
inductive Rounded where
  /-- The value rounds to `mant * 2 ^ exp`. -/
  | finite (mant : Nat) (exp : Int)
  /-- The value is beyond the largest finite number of the format. -/
  | overflow
  deriving DecidableEq, Repr

/-- `2 ^ e` scaling of a quotient, as a pair of naturals: `num * 2 ^ e / den` equals
the returned `(n, d)` read as `n / d`. -/
def scaleQuotient (num den : Nat) (e : Int) : Nat × Nat :=
  if 0 ≤ e then (num * 2 ^ e.toNat, den) else (num, den * 2 ^ (-e).toNat)

/-- Divides and rounds to nearest, ties to the even quotient. -/
def roundDivEven (n d : Nat) : Nat :=
  let q := n / d
  let r := n % d
  if 2 * r > d ∨ (2 * r = d ∧ q % 2 = 1) then q + 1 else q

/-- Rounds the value `num / den * 2 ^ e` (with `den > 0`) to nearest, ties to even,
onto the grid of `fmt`.

The exponent `t` of the result's least significant bit is the largest one at which the
quotient still fits `precision` bits, but never below `minExp`; the logarithms of
numerator and denominator fix it up to one, and the second guess corrects that. -/
def FloatFormat.round (fmt : FloatFormat) (num den : Nat) (e : Int) : Rounded :=
  if num = 0 then .finite 0 fmt.minExp else
  let l : Int := (num.log2 : Int) - (den.log2 : Int) + e
  let t₀ : Int := max (l - fmt.precision + 1) fmt.minExp
  let quotientAt (t : Int) : Nat :=
    let p := scaleQuotient num den (e - t)
    p.1 / p.2
  let t : Int :=
    if quotientAt t₀ < 2 ^ (fmt.precision - 1) ∧ fmt.minExp < t₀ then t₀ - 1 else t₀
  let p := scaleQuotient num den (e - t)
  let q := roundDivEven p.1 p.2
  let (q, t) := if q = 2 ^ fmt.precision then (2 ^ (fmt.precision - 1), t + 1) else (q, t)
  if fmt.maxExp < t then .overflow else .finite q t

/-! ### Doubles as bit patterns -/

/-- An IEEE 754 binary64 number, kept as its 64-bit pattern. -/
structure Binary64 where
  bits : UInt64
  deriving DecidableEq, Inhabited, Repr

/-- What a double denotes. -/
inductive Binary64.View where
  | nan
  /-- An infinity, negative when `neg`. -/
  | inf (neg : Bool)
  /-- The finite value `(-1) ^ neg * mant * 2 ^ exp`; zero has `mant = 0`. -/
  | finite (neg : Bool) (mant : Nat) (exp : Int)
  deriving DecidableEq, Repr

namespace Binary64

/-- The sign bit. -/
def sign (x : Binary64) : Bool := x.bits.toNat / 2 ^ 63 = 1

/-- The biased exponent field. -/
def biasedExp (x : Binary64) : Nat := x.bits.toNat / 2 ^ 52 % 2 ^ 11

/-- The fraction field. -/
def fraction (x : Binary64) : Nat := x.bits.toNat % 2 ^ 52

/-- Splits a pattern into sign, exponent and significand. -/
def view (x : Binary64) : View :=
  if x.biasedExp = 2047 then
    if x.fraction = 0 then .inf x.sign else .nan
  else if x.biasedExp = 0 then .finite x.sign x.fraction (-1074)
  else .finite x.sign (2 ^ 52 + x.fraction) ((x.biasedExp : Int) - 1075)

/-- The canonical quiet NaN. -/
def nan : Binary64 := ⟨0x7FF8000000000000⟩

/-- Positive infinity. -/
def inf : Binary64 := ⟨0x7FF0000000000000⟩

/-- Negative infinity. -/
def negInf : Binary64 := ⟨0xFFF0000000000000⟩

/-- Positive zero. -/
def zero : Binary64 := ⟨0⟩

/-- Negative zero. -/
def negZero : Binary64 := ⟨0x8000000000000000⟩

/-- The infinity of the given sign. -/
def infOf (neg : Bool) : Binary64 := if neg then negInf else inf

/-- Packs a sign and a significand `mant < 2 ^ 53` at exponent `exp`, where `mant` has
its top bit set or `exp = -1074` (the form `FloatFormat.round` returns). -/
def pack (neg : Bool) (mant : Nat) (exp : Int) : Binary64 :=
  let magnitude : Nat :=
    if mant < 2 ^ 52 then mant else (exp + 1075).toNat * 2 ^ 52 + (mant - 2 ^ 52)
  ⟨UInt64.ofNat ((if neg then 2 ^ 63 else 0) + magnitude)⟩

/-- The double nearest to `(-1) ^ neg * num / den * 2 ^ e`. -/
def ofQuotient (neg : Bool) (num den : Nat) (e : Int) : Binary64 :=
  match FloatFormat.binary64.round num den e with
  | .finite m t => pack neg m t
  | .overflow => infOf neg

/-- The double nearest to an integer. -/
def ofInt (i : Int) : Binary64 := ofQuotient (i < 0) i.natAbs 1 0

/-- The double nearest to a natural number. -/
def ofNat (n : Nat) : Binary64 := ofQuotient false n 1 0

/-- Flips the sign bit. -/
def neg (x : Binary64) : Binary64 := ⟨x.bits ^^^ 0x8000000000000000⟩

/-- Whether the pattern is a NaN. -/
def isNaN (x : Binary64) : Bool := x.view == .nan

/-- Whether the value is a zero of either sign. -/
def isZero (x : Binary64) : Bool :=
  match x.view with
  | .finite _ m _ => m == 0
  | _ => false

/-- A finite value as a signed multiple of `2 ^ e` for a chosen `e` at or below its own
exponent. -/
def scaledAt (neg : Bool) (m : Nat) (exp e : Int) : Int :=
  let v : Int := (m * 2 ^ (exp - e).toNat : Nat)
  if neg then -v else v

/-- The correctly rounded sum. Zero results are negative only when both addends are
negative zeros (rounding to nearest). -/
def add (x y : Binary64) : Binary64 :=
  match x.view, y.view with
  | .nan, _ => nan
  | _, .nan => nan
  | .inf a, .inf b => if a == b then infOf a else nan
  | .inf a, _ => infOf a
  | _, .inf b => infOf b
  | .finite a m e, .finite b n f =>
    let g := min e f
    let s := scaledAt a m e g + scaledAt b n f g
    if s = 0 then (if a && b then negZero else zero)
    else ofQuotient (s < 0) s.natAbs 1 g

/-- The correctly rounded difference. -/
def sub (x y : Binary64) : Binary64 := add x y.neg

/-- The correctly rounded product. -/
def mul (x y : Binary64) : Binary64 :=
  match x.view, y.view with
  | .nan, _ => nan
  | _, .nan => nan
  | .inf a, .inf b => infOf (a != b)
  | .inf a, .finite b n _ => if n = 0 then nan else infOf (a != b)
  | .finite a m _, .inf b => if m = 0 then nan else infOf (a != b)
  | .finite a m e, .finite b n f => ofQuotient (a != b) (m * n) 1 (e + f)

/-- The correctly rounded quotient. -/
def div (x y : Binary64) : Binary64 :=
  match x.view, y.view with
  | .nan, _ => nan
  | _, .nan => nan
  | .inf _, .inf _ => nan
  | .inf a, .finite b _ _ => infOf (a != b)
  | .finite a _ _, .inf b => if a != b then negZero else zero
  | .finite a m e, .finite b n f =>
    if n = 0 then (if m = 0 then nan else infOf (a != b))
    else ofQuotient (a != b) m n (e - f)

/-- The remainder of the division truncated toward zero: `x - trunc (x / y) * y`, which
is exact, has the sign of `x`, and is NaN when `x` is infinite or `y` is zero. -/
def rem (x y : Binary64) : Binary64 :=
  match x.view, y.view with
  | .nan, _ => nan
  | _, .nan => nan
  | .inf _, _ => nan
  | .finite _ _ _, .inf _ => x
  | .finite a m e, .finite _ n f =>
    if n = 0 then nan
    else
      let g := min e f
      let r := (m * 2 ^ (e - g).toNat) % (n * 2 ^ (f - g).toNat)
      if r = 0 then (if a then negZero else zero) else ofQuotient a r 1 g

/-- Compares the values of two doubles; `none` when either is NaN. Infinities lie
beyond every finite value and the two zeros are equal. -/
def compareValue (x y : Binary64) : Option Ordering :=
  match x.view, y.view with
  | .nan, _ => none
  | _, .nan => none
  | .inf a, .inf b => some (if a == b then .eq else if a then .lt else .gt)
  | .inf a, .finite _ _ _ => some (if a then .lt else .gt)
  | .finite _ _ _, .inf b => some (if b then .gt else .lt)
  | .finite a m e, .finite b n f =>
    let g := min e f
    some (compare (scaledAt a m e g) (scaledAt b n f g))

/-- `x < y`, false when either is NaN. -/
def lt (x y : Binary64) : Bool := compareValue x y == some .lt

/-- `x ≤ y`, false when either is NaN. -/
def le (x y : Binary64) : Bool :=
  match compareValue x y with
  | some .lt => true
  | some .eq => true
  | _ => false

/-- Numeric equality: false for NaN, true for the two zeros. -/
def beq (x y : Binary64) : Bool := compareValue x y == some .eq

/-- Truncates toward zero and clamps into `[lo, hi]`; NaN gives `0` and the infinities
give the bounds. This is the saturating conversion of a double to a bounded integer. -/
def truncClamp (lo hi : Int) (x : Binary64) : Int :=
  match x.view with
  | .nan => 0
  | .inf neg => if neg then lo else hi
  | .finite neg m e =>
    let magnitude : Nat := if 0 ≤ e then m * 2 ^ e.toNat else m / 2 ^ (-e).toNat
    let i : Int := if neg then -(magnitude : Int) else magnitude
    max lo (min hi i)

/-- Rounds a double to the nearest binary32 value and reads it back as a double. NaN
stays NaN and values beyond the binary32 range become infinite. -/
def roundToBinary32 (x : Binary64) : Binary64 :=
  match x.view with
  | .nan => nan
  | .inf neg => infOf neg
  | .finite neg m e =>
    if m = 0 then x
    else
      match FloatFormat.binary32.round m 1 e with
      | .overflow => infOf neg
      | .finite q t => ofQuotient neg q 1 t

/-- The double whose bits are `n` read as a binary32 pattern. -/
def ofBinary32Bits (n : Nat) : Binary64 :=
  let neg : Bool := n / 2 ^ 31 % 2 = 1
  let be : Nat := n / 2 ^ 23 % 2 ^ 8
  let frac : Nat := n % 2 ^ 23
  if be = 255 then (if frac = 0 then infOf neg else nan)
  else if be = 0 then ofQuotient neg frac 1 (-149)
  else ofQuotient neg (2 ^ 23 + frac) 1 ((be : Int) - 150)

end Binary64

end ByteLayout

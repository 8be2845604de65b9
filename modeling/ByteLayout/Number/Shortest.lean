import ByteLayout.Number.Binary64

/-!
# Shortest decimal text of a double

The decimal text of a double is the shortest digit string that reads back to the same
double, written positionally: never with an exponent, without a fractional part when the
value is integral, `-` before negative values (negative zero included), and `inf`,
`-inf` and `NaN` for the special values.

The digits come from the free-format digit generation of Steele and White with the
corrections of Dragon4: the value and the interval of reals that round to it are scaled
to integers, one digit is produced per division, and generation stops as soon as the
digits so far, or the digits with the last one raised, fall inside the interval. The
interval's ends belong to it when the significand is even, because reading rounds ties
to even.

## Main definitions

* `Shortest.Interval` — a value with the half-gaps to its neighbours, all as multiples
  of `2 ^ exp`.
* `Shortest.digits` — the shortest digits `d` and exponent `k`, meaning `0.d × 10 ^ k`.
* `Shortest.positional` — the digits written without an exponent.
* `Binary64.toDecimalString` — the text of a double.
-/

namespace ByteLayout

namespace Shortest

/-- A positive value `mant * 2 ^ exp` with the reals that round to it: from
`(mant - minus) * 2 ^ exp` to `(mant + plus) * 2 ^ exp`, ends included when
`inclusive`. -/
structure Interval where
  mant : Nat
  minus : Nat
  plus : Nat
  exp : Int
  inclusive : Bool

/-- The interval of a finite non-zero double with significand `m` and exponent `e`.
A normal power of two has a lower neighbour twice as close as its upper one; a
subnormal significand is doubled so that the half-gap is a whole unit. -/
def Interval.ofDouble (m : Nat) (e : Int) : Interval :=
  if m < 2 ^ 52 then ⟨2 * m, 1, 1, e - 1, true⟩
  else if m = 2 ^ 52 then ⟨4 * m, 1, 2, e - 2, m % 2 = 0⟩
  else ⟨2 * m, 1, 1, e - 1, m % 2 = 0⟩

/-- Number of binary digits of `n`. -/
def bitLength (n : Nat) : Nat := if n = 0 then 0 else n.log2 + 1

/-- A first guess `k` of the decimal exponent of `n * 2 ^ e`, from
`1292913986 = ⌊2 ^ 32 · log₁₀ 2⌋`; it is exact or one too small. -/
def estimateExponent (n : Nat) (e : Int) : Int :=
  Int.fdiv (((bitLength (n - 1) : Int) + e) * 1292913986) (2 ^ 32)

/-- Raises the last digit of a digit list given last digit first, carrying through
nines. Returns the new list and whether a carry left the most significant digit
(then the list is `1` followed by zeros and one digit longer is needed). -/
def raiseLast : List Nat → List Nat × Bool
  | [] => ([1], true)
  | d :: rest =>
    if d < 9 then ((d + 1) :: rest, false)
    else
      let (rest', carry) := raiseLast rest
      (0 :: rest', carry)

/-- One step of digit generation, run at most `fuel` times: `mant / scale` is the rest
of the value after the digits in `acc` (most recent first), and `minus`, `plus` are
the distances to the interval's ends at the same scale. Returns the digits, the final
remainder and whether rounding down and rounding up each stay in the interval. -/
def generate (scale : Nat) (inclusive : Bool) :
    Nat → Nat → Nat → Nat → List Nat → List Nat × Nat × Bool × Bool
  | 0, mant, _, _, acc => (acc, mant, true, false)
  | fuel + 1, mant, minus, plus, acc =>
    let below (a b : Nat) : Bool := if inclusive then a ≤ b else a < b
    let d := mant / scale
    let r := mant % scale
    let acc := d :: acc
    let down := below r minus
    let up := below scale (r + plus)
    if down || up then (acc, r, down, up)
    else generate scale inclusive fuel (r * 10) (minus * 10) (plus * 10) acc

/-- The shortest digits `d₁ … dₙ` and the exponent `k` with `0.d₁…dₙ × 10 ^ k` inside
the interval, the nearest such string when there are two. -/
def digits (iv : Interval) : List Nat × Int :=
  let below (a b : Nat) : Bool := if iv.inclusive then a ≤ b else a < b
  let k₀ := estimateExponent (iv.mant + iv.plus) iv.exp
  -- value = mant / scale, with the binary exponent moved into the integers
  let e := iv.exp
  let (mant, minus, plus, scale) :=
    if e < 0 then (iv.mant, iv.minus, iv.plus, 2 ^ (-e).toNat)
    else (iv.mant * 2 ^ e.toNat, iv.minus * 2 ^ e.toNat, iv.plus * 2 ^ e.toNat, 1)
  -- divide by 10 ^ k₀
  let (mant, minus, plus, scale) :=
    if 0 ≤ k₀ then (mant, minus, plus, scale * 10 ^ k₀.toNat)
    else (mant * 10 ^ (-k₀).toNat, minus * 10 ^ (-k₀).toNat, plus * 10 ^ (-k₀).toNat, scale)
  -- correct the guess so that the upper end lies in (scale, 10 * scale]
  let (k, mant, minus, plus) :=
    if below scale (mant + plus) then (k₀ + 1, mant, minus, plus)
    else (k₀, mant * 10, minus * 10, plus * 10)
  let (acc, r, down, up) := generate scale iv.inclusive 1100 mant minus plus []
  if up && (!down || 2 * r ≥ scale) then
    let (acc', carry) := raiseLast acc
    if carry then ((acc'.reverse) ++ [0], k + 1) else (acc'.reverse, k)
  else (acc.reverse, k)

/-- Character of a decimal digit. -/
def digitChar (d : Nat) : Char := Char.ofNat (48 + d)

/-- Writes `0.d₁…dₙ × 10 ^ k` without an exponent: leading `0.` and zeros when the point
comes before the digits, trailing zeros when it comes after them, and no point when
nothing follows it. -/
def positional (ds : List Nat) (k : Int) : String :=
  let cs := ds.map digitChar
  if k ≤ 0 then
    "0." ++ String.ofList (List.replicate (-k).toNat '0') ++ String.ofList cs
  else if k.toNat < cs.length then
    String.ofList (cs.take k.toNat) ++ "." ++ String.ofList (cs.drop k.toNat)
  else String.ofList cs ++ String.ofList (List.replicate (k.toNat - cs.length) '0')

end Shortest

/-- The decimal text of a double: shortest digits that read back, positional,
`NaN`, `inf` and `-inf` for the special values and `-0` for negative zero. -/
def Binary64.toDecimalString (x : Binary64) : String :=
  match x.view with
  | .nan => "NaN"
  | .inf neg => if neg then "-inf" else "inf"
  | .finite neg m e =>
    let sign := if neg then "-" else ""
    if m = 0 then sign ++ "0"
    else
      let (ds, k) := Shortest.digits (Shortest.Interval.ofDouble m e)
      sign ++ Shortest.positional ds k

end ByteLayout

import ByteLayout.Number.Binary64

/-!
# Reading decimal numbers

Decimal scientific text `digits [. digits] [(e|E) [+|-] digits]` read as the nearest
double, ties to even. The mantissa needs at least one digit and an exponent marker needs
at least one exponent digit. Exponents far outside the double range are cut short: the
value is then certainly infinite or zero, so the exact power of ten is never formed.

## Main definitions

* `Decimal` — a decimal number `digits × 10 ^ exp`.
* `Decimal.ofChars?` — the grammar above.
* `Decimal.toBinary64` — correct rounding.
-/

namespace ByteLayout

/-- The decimal number `mantissa × 10 ^ exp`. -/
structure Decimal where
  mantissa : Nat
  exp : Int
  /-- Number of significant digits written, bounding `mantissa < 10 ^ digitCount`. -/
  digitCount : Nat
  deriving Repr, Inhabited

namespace Decimal

/-- Reads a decimal digit. -/
def digitOf? (c : Char) : Option Nat :=
  if c.isDigit then some (c.toNat - 48) else none

/-- Splits off the longest prefix of decimal digits, with their value and count. -/
def takeDigits : List Char → Nat × Nat × List Char
  | [] => (0, 0, [])
  | c :: rest =>
    match digitOf? c with
    | none => (0, 0, c :: rest)
    | some d =>
      -- digits accumulate from the left, so the tail's value is scaled by its length
      let (v, n, r) := takeDigits rest
      (d * 10 ^ n + v, n + 1, r)

/-- Reads the optional exponent part; `none` when a marker has no digits or the text has
anything after it. -/
def exponentOf? : List Char → Option Int
  | [] => some 0
  | c :: rest =>
    if c = 'e' ∨ c = 'E' then
      let (neg, body) :=
        match rest with
        | '+' :: r => (false, r)
        | '-' :: r => (true, r)
        | r => (false, r)
      let (v, n, r) := takeDigits body
      if n = 0 ∨ r ≠ [] then none else some (if neg then -(v : Int) else v)
    else none

/-- Reads `digits [. digits] [exponent]`, needing a digit before or after the point. -/
def ofChars? (cs : List Char) : Option Decimal :=
  let (whole, nWhole, rest) := takeDigits cs
  let (frac, nFrac, rest) :=
    match rest with
    | '.' :: r => takeDigits r
    | r => (0, 0, r)
  if nWhole + nFrac = 0 then none
  else
    match exponentOf? rest with
    | none => none
    | some e => some ⟨whole * 10 ^ nFrac + frac, e - nFrac, nWhole + nFrac⟩

/-- The nearest double, ties to even. A value of at least `10 ^ 400` is infinite and one
below `10 ^ -400` is zero, whatever the exact digits. -/
def toBinary64 (d : Decimal) : Binary64 :=
  if d.mantissa = 0 then Binary64.zero
  else if 0 ≤ d.exp then
    if d.exp > 400 then Binary64.inf
    else Binary64.ofQuotient false (d.mantissa * 10 ^ d.exp.toNat) 1 0
  else if (-d.exp) > (400 + d.digitCount : Int) then Binary64.zero
  else Binary64.ofQuotient false d.mantissa (10 ^ (-d.exp).toNat) 0

end Decimal

end ByteLayout

namespace ByteLayout

/-- Reads a double from text: an optional sign, then decimal scientific notation or one
of the names `inf`, `infinity` and `nan` in any case. -/
def Binary64.ofText? (s : String) : Option Binary64 :=
  let cs := s.toList
  let (neg, body) :=
    match cs with
    | '-' :: r => (true, r)
    | '+' :: r => (false, r)
    | r => (false, r)
  let word := String.ofList (body.map Char.toLower)
  let magnitude :=
    if word == "inf" || word == "infinity" then some Binary64.inf
    else if word == "nan" then some Binary64.nan
    else (Decimal.ofChars? body).map Decimal.toBinary64
  magnitude.map fun m => if neg then m.neg else m

end ByteLayout

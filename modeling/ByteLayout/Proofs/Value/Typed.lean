import Mathlib
import ByteLayout.Eval.Scope
import ByteLayout.Proofs.Value.Operators

set_option autoImplicit false

/-!
# Values of builtin types

A value has a builtin type when it is of the type's kind and in its range: an unsigned
integer of `n` bytes lies in `[0, 2 ^ (8 * n))`, a signed one in
`[-2 ^ (8 * n - 1), 2 ^ (8 * n - 1))`, a `char` has a code below `2 ^ 8` and a `char16` one
below `2 ^ 16`; `bool`, `str`, `float` and `double` ask for the kind only, and `auto` takes
every value. A variable is typed when it holds a value of the builtin type it was declared
with, if any.

The two ways a value enters a typed variable give values of the type: the zero a variable
starts with, and the cast of any value to the type.

## Main definitions

* `Value.HasType` — a value of a builtin type.
* `Variable.Typed` — a variable holding a value of its declared type.

## Main results

* `Value.hasType_zero` — the zero of a type has the type.
* `Value.hasType_cast` — a successful cast to a type gives a value of the type.
-/

namespace ByteLayout

namespace Value

/-- A value of a builtin type: of the type's kind, and for integers and characters in the
type's range. -/
def HasType : Value → Builtin → Prop
  | _, .auto => True
  | .uint v, .unsigned w => v < 2 ^ (8 * w.bytes)
  | .sint v, .signed w => -2 ^ (8 * w.bytes - 1) ≤ v ∧ v < 2 ^ (8 * w.bytes - 1)
  | .float _, .float | .float _, .double => True
  | .bool _, .bool => True
  | .char c, .char => c.toNat < 2 ^ 8
  | .char c, .char16 => c.toNat < 2 ^ 16
  | .str _, .str => True
  | _, _ => False

/-- A code point made into a character has at most that code: an invalid one gives the
character with code zero. -/
lemma toNat_ofNat_le (n : Nat) : (Char.ofNat n).toNat ≤ n := by
  unfold Char.ofNat
  split
  · simp [Char.ofNatAux, Char.toNat]
  · simp

/-- A two-byte code stays below `2 ^ 16` as a character: it is kept, or replaced by the
replacement character. -/
lemma charOfCode_toNat_lt {n : Nat} (h : n < 2 ^ 16) : (charOfCode n).toNat < 2 ^ 16 := by
  unfold charOfCode
  split
  · exact lt_of_le_of_lt (toNat_ofNat_le n) h
  · decide

/-- The two's complement reading of the low `8 * n` bits lies in the signed range of `n`
bytes. -/
lemma signExtend_mem (u : Nat) (w : IntWidth) :
    -2 ^ (8 * w.bytes - 1) ≤ Word.signExtend u w.bits ∧
      Word.signExtend u w.bits < 2 ^ (8 * w.bytes - 1) := by
  rw [Word.signExtend_eq_bmod u w.bits w.bits_pos w.bits_le]
  have hpos : 0 < 8 * w.bytes := w.bits_pos
  obtain ⟨k, hk⟩ : ∃ k, 8 * w.bytes = k + 1 := ⟨8 * w.bytes - 1, by omega⟩
  -- the balanced remainder modulo `2 ^ (k + 1)` lies in `[-2 ^ k, 2 ^ k)`
  have hm : (2 : Int) ^ w.bits = 2 ^ k * 2 := by rw [show w.bits = k + 1 from hk, pow_succ]
  have hlo := Int.le_bmod (x := (u : Int)) (m := 2 ^ w.bits) (by positivity)
  have hhi := Int.bmod_lt (x := (u : Int)) (m := 2 ^ w.bits) (by positivity)
  have hhalf : ((2 : Int) ^ w.bits) / 2 = 2 ^ k := by rw [hm]; simp
  have hhalf' : ((2 : Int) ^ w.bits + 1) / 2 = 2 ^ k := by rw [hm]; omega
  push_cast at hlo hhi
  rw [hk, Nat.add_sub_cancel]
  exact ⟨hhalf ▸ hlo, hhalf' ▸ hhi⟩

/-- **Zeros are typed.** The value a variable of a type starts with has the type. -/
theorem hasType_zero (t : Builtin) : (zero t).HasType t := by
  cases t <;> simp [zero, HasType]

/-- **Casts are typed.** A successful cast to a type gives a value of the type, in either
byte order: integers are cut to the type's width and signed ones read in two's complement,
a `char` keeps the low byte and a `char16` the low two bytes. -/
theorem hasType_cast {v v' : Value} {t : Builtin} {e : Endian} (h : v.cast t e = .ok v') :
    v'.HasType t := by
  cases t
  case str | auto => simp only [cast, pure, Except.pure, Except.ok.injEq] at h; subst h; trivial
  case float | double =>
    cases hx : v.toFloat <;> simp [cast, hx] at h
    subst h; trivial
  case bool =>
    cases hx : v.toBool <;> simp [cast, hx] at h
    subst h; trivial
  -- the integer and character types cut the value's word
  all_goals cases hu : v.toUnsigned <;> simp [cast, hu] at h
  all_goals subst h
  case unsigned.ok w u => exact Word.ofWidth_lt w.bytes_le u e
  case signed.ok w u => exact signExtend_mem _ w
  case char.ok u => exact lt_of_le_of_lt (toNat_ofNat_le _) (Nat.mod_lt u (by norm_num))
  case char16.ok u => exact charOfCode_toNat_lt (Word.ofWidth_lt (by norm_num) u e)

end Value

namespace Variable

/-- The variable holds a value of the builtin type it was declared with, if any. -/
def Typed (x : Variable) : Prop := ∀ t, x.ty = some t → x.value.HasType t

/-- A variable with no declared type holds anything. -/
lemma typed_untyped (v : Value) (e : Endian) : (⟨v, none, e⟩ : Variable).Typed := by
  simp [Typed]

/-- A variable that starts at the zero of its type. -/
lemma typed_zero (t : Builtin) (e : Endian) : (⟨Value.zero t, some t, e⟩ : Variable).Typed := by
  rintro _ ⟨⟩
  exact Value.hasType_zero t

/-- A variable that holds a value cast to its type. -/
lemma typed_cast {v v' : Value} {t : Builtin} {e : Endian} (h : v.cast t e = .ok v')
    (e' : Endian) : (⟨v', some t, e'⟩ : Variable).Typed := by
  rintro _ ⟨⟩
  exact Value.hasType_cast h

end Variable

end ByteLayout

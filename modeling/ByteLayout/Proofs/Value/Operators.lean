import Mathlib
import ByteLayout.Value.Arith
import ByteLayout.Value.Cast
import ByteLayout.Proofs.Number.Word

/-!
# Integer operators and casts

Integers, booleans and characters are the operands of the integer operators. Each stands
for an integer (`Value.integer`: a boolean for `0` or `1`, a character for its code), and
the operators compute on these integers as the integers do, in one of two domains: the
signed one when either operand is signed, the unsigned one otherwise. The operands are
read into the domain (`Word.readAs`: the balanced remainder modulo `2 ^ 128` for signed,
the remainder for unsigned), the exact result is reduced back into it, division and
remainder truncate toward zero and fail on a zero divisor, shifts take their amount modulo
128, and comparisons compare the readings. `Word.arith` says this without reference to the
evaluator; `Value.integerOperators_wrap` states that `Value.binary` and `Value.unary`
compute it.

A cast to an integer type of `n` bytes keeps the remainder modulo `2 ^ (8 * n)` of the
value's word, byte-reversed within the `n` bytes for big endian, and a signed type reads
the result in two's complement. The cast computes the reversal by swapping all sixteen bytes
of the word and shifting the result back down to the width (`Word.ofWidth_big`). So a big-endian cast undone by a second one gives the
little-endian cast, and a little-endian cast is idempotent (`Value.cast_integer_bytes`).

## Main definitions

* `Value.IsInteger`, `Value.integer` — integer operands and their integers.
* `Word.readAs`, `Word.valueOf`, `Word.arith` — the integer operators, read from the
  integers.

## Main results

* `Value.integerOperators_wrap` — the operators on integer operands.
* `Word.ofWidth_little`, `Word.ofWidth_big` — the low bytes a cast keeps, in each order.
* `Value.cast_integer_bytes` — casts to integer types.
-/

namespace ByteLayout

namespace Value

/-- An operand of the integer operators: an unsigned 128-bit word, a signed 128-bit integer,
a boolean or a character. -/
def IsInteger : Value → Prop
  | .uint v => v < 2 ^ 128
  | .sint v => -2 ^ 127 ≤ v ∧ v < 2 ^ 127
  | .bool _ | .char _ => True
  | _ => False

/-- The integer an integer operand stands for: a boolean is `0` or `1`, a character its
code. -/
def integer : Value → Int
  | .uint v => v
  | .sint v => v
  | .bool b => if b then 1 else 0
  | .char c => c.toNat
  | _ => 0

end Value

namespace IntWidth

theorem bits_pos (w : IntWidth) : 0 < w.bits := by cases w <;> decide

theorem bits_le (w : IntWidth) : w.bits ≤ 128 := by cases w <;> decide

theorem bytes_le (w : IntWidth) : w.bytes ≤ 16 := by cases w <;> decide

end IntWidth

namespace Word

/-- An integer read in the signed domain (two's complement, the balanced remainder modulo
`2 ^ 128`) or in the unsigned one (the remainder modulo `2 ^ 128`). -/
def readAs (signed : Bool) (x : Int) : Int :=
  if signed then x.bmod (2 ^ 128) else x % 2 ^ 128

/-- An integer reduced into a domain, as a value of that domain. -/
def valueOf (signed : Bool) (x : Int) : Value :=
  if signed then .sint (readAs true x) else .uint (readAs false x).toNat

/-- A binary operator on two integers of a domain, as the integers compute it: the exact
result reduced into the domain; `/` and `%` truncate toward zero and fail on a zero
divisor; a shift takes its amount modulo 128 and `>>` rounds toward minus infinity (which is
a logical shift on the non-negative readings of the unsigned domain); comparisons compare;
the logical operators combine whether the integers are non-zero. -/
def arith (signed : Bool) (op : BinOp) (x y : Int) : Except EvalFault Value :=
  let amount := (y % 128).toNat
  match op with
  | .add => .ok (valueOf signed (x + y))
  | .sub => .ok (valueOf signed (x - y))
  | .mul => .ok (valueOf signed (x * y))
  | .div => if y = 0 then .error .divisionByZero else .ok (valueOf signed (x.tdiv y))
  | .mod => if y = 0 then .error .moduloByZero else .ok (valueOf signed (x.tmod y))
  | .bitAnd => .ok (valueOf signed (x.land y))
  | .bitOr => .ok (valueOf signed (x.lor y))
  | .bitXor => .ok (valueOf signed (x.xor y))
  | .shl => .ok (valueOf signed (x * 2 ^ amount))
  | .shr => .ok (valueOf signed (x >>> amount))
  | .eq => .ok (.bool (decide (x = y)))
  | .ne => .ok (.bool (decide (x ≠ y)))
  | .lt => .ok (.bool (decide (x < y)))
  | .gt => .ok (.bool (decide (y < x)))
  | .le => .ok (.bool (decide (x ≤ y)))
  | .ge => .ok (.bool (decide (y ≤ x)))
  | .logAnd => .ok (.bool (decide (x ≠ 0) && decide (y ≠ 0)))
  | .logOr => .ok (.bool (decide (x ≠ 0) || decide (y ≠ 0)))
  | .logXor => .ok (.bool (decide (x ≠ 0) != decide (y ≠ 0)))

example : arith true .div (-2 ^ 127) (-1) = .ok (.sint (-2 ^ 127)) := by rfl
example : arith true .shr (-7) 129 = .ok (.sint (-4)) := by rfl

/-! ### Readings -/

theorem readAs_nonneg (x : Int) : 0 ≤ readAs false x := Int.emod_nonneg _ (by positivity)

/-- Reading keeps the low `k ≤ 128` bits. -/
theorem readAs_emod_two_pow (s : Bool) (x : Int) {k : Nat} (hk : k ≤ 128) :
    readAs s x % 2 ^ k = x % 2 ^ k := by
  have hdvd : (2 : Int) ^ k ∣ 2 ^ 128 := pow_dvd_pow 2 hk
  cases s
  · exact Int.emod_emod_of_dvd x hdvd
  · have hb := Int.bmod_emod (x := x) (m := 2 ^ 128)
    rw [Nat.cast_pow, Nat.cast_ofNat] at hb
    rw [readAs, if_pos rfl, ← Int.emod_emod_of_dvd _ hdvd, hb, Int.emod_emod_of_dvd x hdvd]

/-- A reading depends only on the remainder modulo `2 ^ 128`. -/
theorem readAs_emod (s : Bool) (x : Int) : readAs s (x % 2 ^ 128) = readAs s x := by
  cases s
  · exact Int.emod_emod_of_dvd x dvd_rfl
  · simp only [readAs, if_pos]
    exact_mod_cast Int.emod_bmod x (2 ^ 128)

@[simp] theorem readAs_false_readAs (s : Bool) (x : Int) :
    readAs false (readAs s x) = readAs false x := by
  rw [← readAs_emod false, readAs_emod_two_pow s x le_rfl, readAs_emod]

/-- An integer of the signed range reads as itself in the signed domain. -/
theorem readAs_true_of_mem {x : Int} (h1 : -2 ^ 127 ≤ x) (h2 : x < 2 ^ 127) :
    readAs true x = x :=
  Int.bmod_eq_of_le (by push_cast; omega) (by push_cast; omega)

/-- An integer of the unsigned range reads as itself in the unsigned domain. -/
theorem readAs_false_of_mem {x : Int} (h1 : 0 ≤ x) (h2 : x < 2 ^ 128) : readAs false x = x :=
  Int.emod_eq_of_lt h1 h2

/-- Between `-2 ^ 127` and `2 ^ 128` only zero reads as zero, in either domain. -/
theorem readAs_eq_zero_iff (s : Bool) {x : Int} (h1 : -2 ^ 127 ≤ x) (h2 : x < 2 ^ 128) :
    readAs s x = 0 ↔ x = 0 := by
  cases s
  · simp only [readAs, Bool.false_eq_true, if_false]
    omega
  · simp only [readAs, if_pos, Int.bmod_def]
    push_cast
    split_ifs <;> omega

/-- The words of the library are the unsigned readings. -/
theorem wrap_eq_readAs (i : Int) : wrap i = (readAs false i).toNat := rfl

/-- The signed words of the library are the signed readings. -/
theorem wrapSigned_eq_readAs (i : Int) : wrapSigned i = readAs true i :=
  wrapSigned_eq_bmod i

/-- A shift amount taken from the word of an integer is the integer modulo 128. -/
theorem toNat_readAs_mod (y : Int) : (readAs false y).toNat % 128 = (y % 128).toNat := by
  rw [← wrap_eq_readAs]
  exact wrap_mod_two_pow y (k := 7) (by norm_num)

/-- A right shift rounds toward minus infinity: it is floored division by a power of two. -/
theorem shiftRight_eq_ediv (x : Int) (n : Nat) : x >>> n = x / 2 ^ n := by
  rw [Int.shiftRight_eq_div_pow]
  push_cast
  rfl

theorem fdiv_two_pow (x : Int) (n : Nat) : x.fdiv (2 ^ n) = x / 2 ^ n :=
  Int.fdiv_eq_ediv_of_nonneg _ (by positivity)

/-! ### Bitwise operations on the words -/

theorem readAs_land (s : Bool) (x y : Int) :
    readAs s (x.land y) = readAs s ((readAs false x).toNat &&& (readAs false y).toNat : Nat) := by
  rw [← readAs_emod s (x.land y), ← Int.bitwise_and, emod_bitwise _ rfl]
  rfl

theorem readAs_lor (s : Bool) (x y : Int) :
    readAs s (x.lor y) = readAs s ((readAs false x).toNat ||| (readAs false y).toNat : Nat) := by
  rw [← readAs_emod s (x.lor y), ← Int.bitwise_or, emod_bitwise _ rfl]
  rfl

theorem readAs_xor (s : Bool) (x y : Int) :
    readAs s (x.xor y) = readAs s ((readAs false x).toNat ^^^ (readAs false y).toNat : Nat) := by
  rw [← readAs_emod s (x.xor y), ← Int.bitwise_xor, emod_bitwise _ rfl]
  rfl

/-! ### The low bytes of a word -/

theorem two_pow_eight_mul (n : Nat) : 2 ^ (8 * n) = 256 ^ n := by
  rw [pow_mul]
  norm_num

/-- Up to 16 bytes, the mask of a cast keeps the low bytes of the word. -/
theorem ofWidth_mask {n : Nat} (hn : n ≤ 16) (raw : Nat) :
    (if n * 8 ≥ 128 then raw % 2 ^ 128 else raw % 2 ^ 128 &&& ((1 <<< (n * 8)) - 1)) =
      raw % 2 ^ (8 * n) := by
  split_ifs with hwide
  · obtain rfl : n = 16 := by omega
    rfl
  · rw [Nat.one_shiftLeft, Nat.and_two_pow_sub_one_eq_mod,
      Nat.mod_mod_of_dvd _ (Nat.pow_dvd_pow 2 (by omega)), Nat.mul_comm]

/-- Up to 16 bytes, a little-endian cast keeps the low bytes of the word. -/
theorem ofWidth_little {n : Nat} (hn : n ≤ 16) (raw : Nat) :
    ofWidth raw n .little = raw % 2 ^ (8 * n) :=
  ofWidth_mask hn raw

/-- Up to 16 bytes, a big-endian cast reverses the low bytes of the word: swapping the whole
word puts them, reversed, at its top, and the shift brings them down. -/
theorem ofWidth_big {n : Nat} (hn : n ≤ 16) (raw : Nat) :
    ofWidth raw n .big = reverseBytes (raw % 2 ^ (8 * n)) n := by
  simp only [ofWidth, -Nat.reducePow]
  rw [ofWidth_mask hn]
  split_ifs with hwide
  · obtain rfl : n = 16 := by omega
    rfl
  · rw [swapBytes_of_lt hn (Nat.mod_lt _ (by positivity)), Nat.shiftRight_eq_div_pow,
      show 128 - n * 8 = 8 * (16 - n) by omega, Nat.mul_div_cancel _ (by positivity)]

theorem ofWidth_lt {n : Nat} (hn : n ≤ 16) (raw : Nat) (e : Endian) :
    ofWidth raw n e < 2 ^ (8 * n) := by
  cases e
  · rw [ofWidth_little hn]
    exact Nat.mod_lt _ (by positivity)
  · rw [ofWidth_big hn, two_pow_eight_mul]
    exact reverseBytes_lt _ n

/-- A cast reads only the low `n` bytes of a word. -/
theorem ofWidth_mod {n : Nat} (hn : n ≤ 16) (raw : Nat) (e : Endian) :
    ofWidth (raw % 2 ^ (8 * n)) n e = ofWidth raw n e := by
  cases e <;> simp [ofWidth_little hn, ofWidth_big hn]

/-- Taking the low bytes twice, reversing them each time for big endian, gives them back
in their order. -/
theorem ofWidth_ofWidth {n : Nat} (hn : n ≤ 16) (raw : Nat) (e : Endian) :
    ofWidth (ofWidth raw n e) n e = raw % 2 ^ (8 * n) := by
  cases e
  · simp [ofWidth_little hn]
  · have hlt := reverseBytes_lt (raw % 2 ^ (8 * n)) n
    rw [← two_pow_eight_mul] at hlt
    rw [ofWidth_big hn, ofWidth_big hn, Nat.mod_eq_of_lt hlt, reverseBytes_reverseBytes,
      ← two_pow_eight_mul, Nat.mod_mod]

end Word

namespace Value

/-- The bitwise complement of an integer operand, `-x - 1` in two's complement, in the
operand's own domain; a boolean is negated. -/
def complement : Value → Value
  | .bool c => .bool !c
  | a => Word.valueOf a.isSigned (-a.integer - 1)

variable {a : Value}

theorem integer_mem (ha : a.IsInteger) : -2 ^ 127 ≤ a.integer ∧ a.integer < 2 ^ 128 := by
  cases a with
  | uint v => simp only [IsInteger] at ha; simp only [integer]; omega
  | sint v => simp only [IsInteger] at ha; simp only [integer]; omega
  | bool b => cases b <;> simp [integer]
  | char c =>
    have := c.val.toNat_lt_size
    rw [Char.toNat_val] at this
    simp only [integer, UInt32.size] at this ⊢
    omega
  | _ => simp [IsInteger] at ha

/-- The integers of booleans and characters lie in the signed range. -/
theorem integer_char_lt (c : Char) : (char c).integer < 2 ^ 127 := by
  have := c.val.toNat_lt_size
  rw [Char.toNat_val] at this
  simp only [integer, UInt32.size] at this ⊢
  omega

theorem isPattern_of_isInteger (ha : a.IsInteger) : a.isPattern = false := by
  cases a <;> simp_all [IsInteger, isPattern]

theorem isStr_of_isInteger (ha : a.IsInteger) : a.isStr = false := by
  cases a <;> simp_all [IsInteger, isStr]

theorem isFloat_of_isInteger (ha : a.IsInteger) : a.isFloat = false := by
  cases a <;> simp_all [IsInteger, isFloat]

/-- An integer operand as a signed integer is its signed reading. -/
theorem toSigned_of_isInteger (ha : a.IsInteger) :
    a.toSigned = .ok (Word.readAs true a.integer) := by
  cases a with
  | uint v => simp [toSigned, integer, Word.readAs, Word.toSigned_eq_bmod]
  | sint v =>
    simp only [IsInteger] at ha
    simp [toSigned, integer, Word.readAs_true_of_mem ha.1 ha.2]
  | bool b => cases b <;> simp [toSigned, integer, Word.readAs_true_of_mem]
  | char c =>
    rw [toSigned, Word.readAs_true_of_mem (integer_mem ha).1 (integer_char_lt c)]
    rfl
  | _ => simp [IsInteger] at ha

/-- An integer operand as an unsigned word is its unsigned reading. -/
theorem toUnsigned_of_isInteger (ha : a.IsInteger) :
    a.toUnsigned = .ok (Word.readAs false a.integer).toNat := by
  obtain ⟨h1, h2⟩ := integer_mem ha
  cases a with
  | sint v => rfl
  | uint v => simp [toUnsigned, integer, Word.readAs_false_of_mem (Int.natCast_nonneg v) h2]
  | bool b => cases b <;> simp [toUnsigned, integer, Word.readAs_false_of_mem]
  | char c =>
    simp only [toUnsigned, integer] at h2 ⊢
    rw [Word.readAs_false_of_mem (Int.natCast_nonneg _) h2, Int.toNat_natCast]
  | _ => simp [IsInteger] at ha

/-- The truth of an integer operand: whether its integer is not zero. -/
theorem toBool_of_isInteger (ha : a.IsInteger) : a.toBool = .ok (decide (a.integer ≠ 0)) := by
  cases a with
  | uint v => simp [toBool, integer, bne, Bool.beq_eq_decide_eq]
  | sint v => by_cases h : v = 0 <;> simp [toBool, integer, h]
  | bool b => cases b <;> simp [toBool, integer]
  | char c => simp [toBool, integer, bne, Bool.beq_eq_decide_eq]
  | _ => simp [IsInteger] at ha

theorem readAs_integer_eq_zero (s : Bool) (ha : a.IsInteger) :
    Word.readAs s a.integer = 0 ↔ a.integer = 0 :=
  Word.readAs_eq_zero_iff s (integer_mem ha).1 (integer_mem ha).2

/-! ### The binary operators -/

@[simp] theorem except_ok_bind {α β : Type} (x : α) (f : α → Except EvalFault β) :
    (Except.ok x >>= f) = f x := rfl

@[simp] theorem except_map_ok {α β : Type} (f : α → β) (x : α) :
    Except.map f (Except.ok x : Except EvalFault α) = .ok (f x) := rfl

@[simp] theorem except_fmap_ok {α β : Type} (f : α → β) (x : α) :
    (f <$> (Except.ok x : Except EvalFault α)) = .ok (f x) := rfl

theorem binary_of_isInteger (op : BinOp) {a b : Value} (ha : a.IsInteger) (hb : b.IsInteger) :
    binary op a b = Word.arith (a.isSigned || b.isSigned) op
      (Word.readAs (a.isSigned || b.isSigned) a.integer)
      (Word.readAs (a.isSigned || b.isSigned) b.integer) := by
  unfold binary
  generalize (a.isSigned || b.isSigned) = s
  -- the operands pass every kind test and read into the domain; what is left per operator
  -- is arithmetic on the readings
  cases s <;> cases op <;> simp [isPattern_of_isInteger, ha, hb, isStr_of_isInteger,
    isFloat_of_isInteger, toSigned_of_isInteger, toUnsigned_of_isInteger, toBool_of_isInteger,
    readAs_integer_eq_zero, Word.intOp, Word.arith, Word.valueOf, Word.readAs_nonneg,
    Word.wrap_eq_readAs, Word.wrapSigned_eq_readAs, Word.readAs_land, Word.readAs_lor,
    Word.readAs_xor, Word.toNat_readAs_mod, Word.shiftRight_eq_ediv, Word.fdiv_two_pow]
  case false.div | false.mod | true.div | true.mod => split_ifs <;> rfl
  case false.eq | true.eq => exact Bool.beq_eq_decide_eq _ _
  case false.ne | true.ne => simp [bne, Bool.beq_eq_decide_eq]

/-! ### The unary operators -/

theorem unary_neg_of_isInteger (ha : a.IsInteger) :
    unary .neg a = .ok (Word.valueOf true (-Word.readAs true a.integer)) := by
  have hs := toSigned_of_isInteger ha
  cases a <;> simp_all [unary, IsInteger, Word.valueOf, Word.wrapSigned_eq_readAs]

theorem unary_not_of_isInteger (ha : a.IsInteger) :
    unary .not a = .ok (.bool (decide (a.integer = 0))) := by
  have hb := toBool_of_isInteger ha
  cases a <;> simp_all [unary, IsInteger]

theorem unary_bitNot_of_isInteger (ha : a.IsInteger) : unary .bitNot a = .ok a.complement := by
  obtain ⟨h1, h2⟩ := integer_mem ha
  cases a with
  | sint v =>
    simp only [IsInteger] at ha
    simp only [unary, complement, integer, isSigned, Word.valueOf, if_true]
    rw [Word.readAs_true_of_mem (by omega) (by omega)]
    rfl
  | bool b => rfl
  | uint v =>
    simp only [integer] at h2
    simp only [unary, complement, integer, isSigned, Word.valueOf, Word.readAs, toUnsigned,
      Word.maxUnsigned, Bool.false_eq_true, if_false, except_ok_bind]
    congr 2
    omega
  | char c =>
    simp only [integer] at h2
    simp only [unary, complement, integer, isSigned, Word.valueOf, Word.readAs, toUnsigned,
      Word.maxUnsigned, Bool.false_eq_true, if_false, except_ok_bind]
    congr 2
    omega
  | _ => simp [IsInteger] at ha

/-- **Integer arithmetic follows the integers.** On integer operands every binary operator
computes `Word.arith` on the operands' readings in the signed domain when either operand is
signed and in the unsigned domain otherwise; `-` is the signed reading's negation reduced
into the signed domain, `~` the bitwise complement (a boolean negated) and `!` whether the
integer is zero. -/
theorem integerOperators_wrap (a b : Value) (ha : a.IsInteger) (hb : b.IsInteger) :
    (∀ op, binary op a b = Word.arith (a.isSigned || b.isSigned) op
        (Word.readAs (a.isSigned || b.isSigned) a.integer)
        (Word.readAs (a.isSigned || b.isSigned) b.integer)) ∧
    unary .neg a = .ok (Word.valueOf true (-Word.readAs true a.integer)) ∧
    unary .bitNot a = .ok a.complement ∧
    unary .not a = .ok (.bool (decide (a.integer = 0))) :=
  ⟨fun op => binary_of_isInteger op ha hb, unary_neg_of_isInteger ha,
    unary_bitNot_of_isInteger ha, unary_not_of_isInteger ha⟩

/-- The operators on the least signed integer and the largest unsigned word, which the
signed domain reads as `-1`. -/
theorem integerOperators_wrap_signedMin :
    (sint (-2 ^ 127)).IsInteger ∧ (uint (2 ^ 128 - 1)).IsInteger ∧
    ((∀ op, binary op (sint (-2 ^ 127)) (uint (2 ^ 128 - 1)) =
        Word.arith ((sint (-2 ^ 127)).isSigned || (uint (2 ^ 128 - 1)).isSigned) op
          (Word.readAs ((sint (-2 ^ 127)).isSigned || (uint (2 ^ 128 - 1)).isSigned)
            (sint (-2 ^ 127)).integer)
          (Word.readAs ((sint (-2 ^ 127)).isSigned || (uint (2 ^ 128 - 1)).isSigned)
            (uint (2 ^ 128 - 1)).integer)) ∧
      unary .neg (sint (-2 ^ 127)) =
        .ok (Word.valueOf true (-Word.readAs true (sint (-2 ^ 127)).integer)) ∧
      unary .bitNot (sint (-2 ^ 127)) = .ok (sint (-2 ^ 127)).complement ∧
      unary .not (sint (-2 ^ 127)) = .ok (.bool (decide ((sint (-2 ^ 127)).integer = 0)))) :=
  have ha : (sint (-2 ^ 127)).IsInteger := by norm_num [IsInteger]
  have hb : (uint (2 ^ 128 - 1)).IsInteger := by norm_num [IsInteger]
  ⟨ha, hb, integerOperators_wrap _ _ ha hb⟩

/-! ### Casts to integer types -/

variable {v : Value} {u : Nat}

theorem cast_unsigned (hu : v.toUnsigned = .ok u) (w : IntWidth) (e : Endian) :
    v.cast (.unsigned w) e = .ok (.uint (Word.ofWidth u w.bytes e)) := by
  simp [cast, hu]

theorem cast_signed (hu : v.toUnsigned = .ok u) (w : IntWidth) (e : Endian) :
    v.cast (.signed w) e = .ok (.sint (Word.signExtend (Word.ofWidth u w.bytes e) w.bits)) := by
  simp [cast, hu]

/-- Casting twice to an integer type in one byte order gives the little-endian cast: the
second big-endian cast undoes the first, and little-endian casts are idempotent. -/
theorem cast_cast (hu : v.toUnsigned = .ok u) {t : Builtin}
    (ht : t ∈ [Builtin.unsigned w, .signed w]) (e : Endian) :
    (v.cast t e >>= fun c => c.cast t e) = v.cast t .little := by
  simp only [List.mem_cons, List.not_mem_nil, or_false] at ht
  rcases ht with rfl | rfl
  · rw [cast_unsigned hu, cast_unsigned hu, except_ok_bind,
      cast_unsigned (u := Word.ofWidth u w.bytes e) rfl, Word.ofWidth_ofWidth w.bytes_le,
      Word.ofWidth_little w.bytes_le]
  · rw [cast_signed hu, cast_signed hu, except_ok_bind, cast_signed rfl]
    -- the word of the sign extension keeps the low bytes it was extended from
    have hbits : w.bits = 8 * w.bytes := rfl
    rw [← Word.ofWidth_mod w.bytes_le, ← hbits,
      Word.wrap_signExtend_mod _ _ w.bits_pos w.bits_le, hbits, Word.ofWidth_mod w.bytes_le,
      Word.ofWidth_ofWidth w.bytes_le, Word.ofWidth_little w.bytes_le]

/-- **Casts to integer types.** Casting a value whose word is `u` to an integer type of
`n` bytes keeps `r = u % 2 ^ (8 * n)` in little endian and the byte reversal of `r` within
`n` bytes in big endian; a signed type reads the result in two's complement on `8 * n`
bits. Casting twice in one byte order gives the little-endian cast. -/
theorem cast_integer_bytes (v : Value) (u : Nat) (hu : v.toUnsigned = .ok u) (w : IntWidth) :
    let n := w.bytes
    let r := u % 2 ^ (8 * n)
    let rev := ∑ i ∈ Finset.range n, Word.byte r (n - 1 - i) * 256 ^ i
    v.cast (.unsigned w) .little = .ok (.uint r) ∧
    v.cast (.signed w) .little = .ok (.sint ((r : Int).bmod (2 ^ (8 * n)))) ∧
    v.cast (.unsigned w) .big = .ok (.uint rev) ∧
    v.cast (.signed w) .big = .ok (.sint ((rev : Int).bmod (2 ^ (8 * n)))) ∧
    ∀ t ∈ [Builtin.unsigned w, .signed w], ∀ e,
      (v.cast t e >>= fun c => c.cast t e) = v.cast t .little := by
  intro n r rev
  have hrev : Word.ofWidth u n .big = rev := by
    rw [Word.ofWidth_big w.bytes_le]
    exact Word.reverseBytes_eq_sum r n
  have hext (m : Nat) : Word.signExtend m w.bits = (m : Int).bmod (2 ^ (8 * n)) :=
    Word.signExtend_eq_bmod m w.bits w.bits_pos w.bits_le
  have hlow : Word.ofWidth u n .little = r := Word.ofWidth_little w.bytes_le u
  refine ⟨by rw [cast_unsigned hu, hlow], ?_, ?_, ?_, fun t ht e => cast_cast hu ht e⟩
  · rw [cast_signed hu, hext, hlow]
  · rw [cast_unsigned hu, hrev]
  · rw [cast_signed hu, hrev, hext]

/-- Casts of `-2`, whose word is `2 ^ 128 - 2`, to the three-byte types. -/
theorem cast_integer_bytes_minusTwo :
    (sint (-2)).toUnsigned = .ok (2 ^ 128 - 2) ∧
    let n := IntWidth.w24.bytes
    let r := (2 ^ 128 - 2) % 2 ^ (8 * n)
    let rev := ∑ i ∈ Finset.range n, Word.byte r (n - 1 - i) * 256 ^ i
    (sint (-2)).cast (.unsigned .w24) .little = .ok (.uint r) ∧
    (sint (-2)).cast (.signed .w24) .little = .ok (.sint ((r : Int).bmod (2 ^ (8 * n)))) ∧
    (sint (-2)).cast (.unsigned .w24) .big = .ok (.uint rev) ∧
    (sint (-2)).cast (.signed .w24) .big = .ok (.sint ((rev : Int).bmod (2 ^ (8 * n)))) ∧
    ∀ t ∈ [Builtin.unsigned .w24, .signed .w24], ∀ e,
      ((sint (-2)).cast t e >>= fun c => c.cast t e) = (sint (-2)).cast t .little :=
  have hu : (sint (-2)).toUnsigned = .ok (2 ^ 128 - 2) := rfl
  ⟨hu, cast_integer_bytes _ _ hu .w24⟩

example : (uint 0x123456).cast (.unsigned .w24) .big = .ok (uint 0x563412) := rfl

end Value

end ByteLayout

import Mathlib
import ByteLayout.Number.Word

/-!
# Readings of words and their bytes

The integers of the language are 128-bit words, read either as naturals below `2 ^ 128` or
in two's complement. This file identifies the library's conversions with the reductions
of the integers: `Word.wrap` is the remainder modulo `2 ^ 128`, and `Word.toSigned`,
`Word.wrapSigned` and `Word.signExtend` are the balanced remainder `Int.bmod`, the
two's-complement reading of the low bits. The bits of a reduced integer are its own low
bits, so a bitwise operation commutes with the reduction.

Words are also made from bytes. Assembling bytes least significant first weighs byte `i`
by `256 ^ i`; the bytes of a word give the word back and a word gives its bytes back; and
the byte reversal of an `n`-byte word weighs byte `i` by `256 ^ (n - 1 - i)` and undoes
itself.

## Main results

* `Word.wrap_eq_emod`, `Word.toSigned_eq_bmod`, `Word.signExtend_eq_bmod` — the readings.
* `Word.emod_bitwise` — a bitwise operation on integers, reduced, is the operation on the
  reduced words.
* `Word.ofBytesLE_eq_sum`, `Word.ofBytesLE_bytesLE`, `Word.bytesLE_ofBytesLE` — bytes and
  words.
* `Word.reverseBytes_eq_sum`, `Word.reverseBytes_reverseBytes` — the byte reversal.
* `Word.signExtend_of_lt`, `Word.swapBytes_of_lt` — the shifts of sign extension and of
  byte swapping, read as the two's complement and the reversal of the low bytes.
-/

namespace ByteLayout

namespace Word

/-! ### Unsigned and two's-complement readings -/

theorem wrap_eq_emod (i : Int) : (wrap i : Int) = i % 2 ^ 128 :=
  Int.toNat_of_nonneg (Int.emod_nonneg _ (by positivity))

/-- The balanced remainder modulo an even number, as a two's-complement reading: below
half the modulus a remainder stands for itself, from half on for itself less the
modulus. -/
theorem bmod_two_mul (n K : Nat) :
    (n : Int).bmod (2 * K) =
      if n % (2 * K) < K then ((n % (2 * K) : Nat) : Int)
      else (n % (2 * K) : Nat) - 2 * (K : Int) := by
  rw [Int.bmod_def, ← Int.natCast_emod]
  generalize n % (2 * K) = r
  push_cast
  split_ifs <;> omega

theorem toSigned_eq_bmod (n : Nat) : toSigned n = (n : Int).bmod (2 ^ 128) := by
  rw [show 2 ^ 128 = 2 * 2 ^ 127 by norm_num, bmod_two_mul]
  simp only [toSigned]
  norm_num

theorem wrapSigned_eq_bmod (i : Int) : wrapSigned i = i.bmod (2 ^ 128) := by
  rw [wrapSigned, toSigned_eq_bmod, wrap_eq_emod]
  exact_mod_cast Int.emod_bmod i (2 ^ 128)

/-- Below 128 bits, sign extension reads the low bits in two's complement: moved to the top
of the word, their sign bit is the word's, and the arithmetic shift back down copies it. -/
theorem signExtend_of_lt {bits : Nat} (h0 : 0 < bits) (h : bits < 128) (n : Nat) :
    signExtend n bits =
      if n % 2 ^ bits < 2 ^ (bits - 1) then ((n % 2 ^ bits : Nat) : Int)
      else ((n % 2 ^ bits : Nat) : Int) - 2 ^ bits := by
  have hword : (2 : Nat) ^ 128 = 2 ^ bits * 2 ^ (128 - bits) := by
    rw [← pow_add]; congr 1; omega
  have hhalf : (2 : Nat) ^ 127 = 2 ^ (bits - 1) * 2 ^ (128 - bits) := by
    rw [← pow_add]; congr 1; omega
  have hs : (0 : Int) < 2 ^ (128 - bits) := by positivity
  -- the shift keeps the low bits, moved to the top of the word
  have htop : (n <<< (128 - bits)) % 2 ^ 128 = n % 2 ^ bits * 2 ^ (128 - bits) := by
    rw [Nat.shiftLeft_eq, hword, Nat.mul_mod_mul_right]
  have hsign : n % 2 ^ bits * 2 ^ (128 - bits) < 2 ^ 127 ↔ n % 2 ^ bits < 2 ^ (bits - 1) := by
    rw [hhalf]; exact Nat.mul_lt_mul_right (by positivity)
  rw [signExtend, if_neg (by omega)]
  show toSigned (n <<< (128 - bits)) >>> (128 - bits) = _
  rw [toSigned, Int.shiftRight_eq_div_pow, htop]
  by_cases hlow : n % 2 ^ bits < 2 ^ (bits - 1)
  · rw [if_pos (hsign.mpr hlow), if_pos hlow]
    push_cast
    exact Int.mul_ediv_cancel _ hs.ne'
  · -- the word's modulus is the low bits' modulus shifted to the top
    have hK : (2 : Int) ^ 128 = 2 ^ bits * 2 ^ (128 - bits) := by exact_mod_cast hword
    rw [if_neg (mt hsign.mp hlow), if_neg hlow, hK]
    push_cast
    rw [← sub_mul]
    exact Int.mul_ediv_cancel _ hs.ne'

/-- On a width of 1 to 128 bits, sign extension is the balanced remainder. -/
theorem signExtend_eq_bmod (n bits : Nat) (h0 : 0 < bits) (h : bits ≤ 128) :
    signExtend n bits = (n : Int).bmod (2 ^ bits) := by
  rcases Nat.lt_or_ge bits 128 with hlt | hge
  · rw [signExtend_of_lt h0 hlt]
    obtain ⟨k, rfl⟩ : ∃ k, bits = k + 1 := ⟨bits - 1, by omega⟩
    rw [pow_succ', bmod_two_mul]
    simp [pow_succ']
  · obtain rfl : bits = 128 := by omega
    rw [signExtend, if_pos (Or.inr le_rfl)]
    exact toSigned_eq_bmod n

/-- The low `k ≤ 128` bits of the word of an integer are the integer's own. -/
theorem wrap_mod_two_pow (i : Int) {k : Nat} (hk : k ≤ 128) :
    wrap i % 2 ^ k = (i % 2 ^ k).toNat := by
  have hdvd : (2 : Int) ^ k ∣ 2 ^ 128 := pow_dvd_pow 2 hk
  have hnn : 0 ≤ i % 2 ^ k := Int.emod_nonneg _ (by positivity)
  have key : ((wrap i % 2 ^ k : Nat) : Int) = ((i % 2 ^ k).toNat : Int) := by
    rw [Int.natCast_emod, wrap_eq_emod, Int.toNat_of_nonneg hnn]
    push_cast
    exact Int.emod_emod_of_dvd i hdvd
  exact_mod_cast key

/-- Storing the sign extension of the low `bits` bits of `n` as a word keeps those bits. -/
theorem wrap_signExtend_mod (n bits : Nat) (h0 : 0 < bits) (h : bits ≤ 128) :
    wrap (signExtend n bits) % 2 ^ bits = n % 2 ^ bits := by
  rw [wrap_mod_two_pow _ h, signExtend_eq_bmod n bits h0 h]
  have := Int.bmod_emod (x := (n : Int)) (m := 2 ^ bits)
  push_cast at this
  rw [this]
  exact_mod_cast Int.toNat_natCast (n % 2 ^ bits)

/-! ### Bits -/

/-- Bit `i` of an integer reduced modulo `2 ^ k` is bit `i` of the integer, below `k`. -/
theorem testBit_toNat_emod_two_pow (z : Int) (k i : Nat) :
    ((z % 2 ^ k).toNat).testBit i = (decide (i < k) && z.testBit i) := by
  have hK : (2 : Int) ^ k = ((2 ^ k : Nat) : Int) := by push_cast; rfl
  cases z with
  | ofNat m =>
    rw [Int.ofNat_eq_natCast, hK, ← Int.natCast_emod, Int.toNat_natCast, Nat.testBit_mod_two_pow]
    rfl
  | negSucc m =>
    -- a negative integer reduces to the complement of its magnitude less one
    have hlt : m % 2 ^ k < 2 ^ k := Nat.mod_lt _ (by positivity)
    have hred : (Int.negSucc m % 2 ^ k).toNat = 2 ^ k - (m % 2 ^ k + 1) := by
      rw [hK, Int.negSucc_emod _ (by positivity), ← Int.natCast_emod]
      omega
    rw [hred, Nat.testBit_two_pow_sub_succ hlt, Nat.testBit_mod_two_pow]
    cases decide (i < k) <;> rfl

/-- A bitwise operation that keeps zero bits zero commutes with the reduction modulo
`2 ^ k`. -/
theorem emod_bitwise (f : Bool → Bool → Bool) (hf : f false false = false) (x y : Int)
    (k : Nat) :
    Int.bitwise f x y % 2 ^ k =
      ((Nat.bitwise f (x % 2 ^ k).toNat (y % 2 ^ k).toNat : Nat) : Int) := by
  have h0 : 0 ≤ Int.bitwise f x y % 2 ^ k := Int.emod_nonneg _ (by positivity)
  rw [← Int.toNat_of_nonneg h0]
  congr 1
  apply Nat.eq_of_testBit_eq
  intro i
  rw [testBit_toNat_emod_two_pow, Nat.testBit_bitwise hf, testBit_toNat_emod_two_pow,
    testBit_toNat_emod_two_pow, Int.testBit_bitwise]
  cases decide (i < k) <;> simp [hf]

/-! ### Bytes -/

theorem byte_lt (n i : Nat) : byte n i < 256 := Nat.mod_lt _ (by decide)

theorem byte_succ (n i : Nat) : byte n (i + 1) = byte (n / 256) i := by
  have h : 2 ^ (8 * (i + 1)) = 256 * 2 ^ (8 * i) := by
    rw [Nat.mul_succ, pow_add, Nat.mul_comm]; rfl
  simp only [byte, h, Nat.div_div_eq_div_mul]

@[simp] theorem length_bytesLE (n size : Nat) : (bytesLE n size).length = size := by
  simp [bytesLE]

theorem bytesLE_succ (n size : Nat) :
    bytesLE n (size + 1) = n % 256 :: bytesLE (n / 256) size := by
  simp only [bytesLE, List.range_succ_eq_map, List.map_cons, List.map_map]
  congr 1
  · simp [byte]
  · exact List.map_congr_left fun i _ => byte_succ n i

theorem lt_of_mem_bytesLE {n size b : Nat} (h : b ∈ bytesLE n size) : b < 256 := by
  obtain ⟨i, -, rfl⟩ := List.mem_map.1 h
  exact byte_lt n i

@[simp] theorem ofBytesLE_nil : ofBytesLE [] = 0 := rfl

@[simp] theorem ofBytesLE_cons (b : Nat) (bs : List Nat) :
    ofBytesLE (b :: bs) = b + 256 * ofBytesLE bs := rfl

/-- Bytes assembled least significant first: byte `i` weighs `256 ^ i`. -/
theorem ofBytesLE_eq_sum (bs : List Nat) :
    ofBytesLE bs = ∑ i ∈ Finset.range bs.length, bs.getD i 0 * 256 ^ i := by
  induction bs with
  | nil => rfl
  | cons b bs ih =>
    rw [ofBytesLE_cons, ih, List.length_cons, Finset.sum_range_succ', Finset.mul_sum]
    simp only [List.getD_cons_succ, List.getD_cons_zero, pow_zero, mul_one, pow_succ]
    rw [add_comm]
    congr 1
    exact Finset.sum_congr rfl fun i _ => by ring

theorem ofBytesLE_lt {bs : List Nat} (h : ∀ b ∈ bs, b < 256) :
    ofBytesLE bs < 256 ^ bs.length := by
  induction bs with
  | nil => simp
  | cons b bs ih =>
    have hb := h b (by simp)
    have hr := ih fun c hc => h c (by simp [hc])
    rw [ofBytesLE_cons, List.length_cons, pow_succ]
    omega

/-- The first `size` bytes of a word give back the word below `256 ^ size`. -/
theorem ofBytesLE_bytesLE (n size : Nat) : ofBytesLE (bytesLE n size) = n % 256 ^ size := by
  induction size generalizing n with
  | zero => simp [bytesLE, Nat.mod_one]
  | succ k ih => rw [bytesLE_succ, ofBytesLE_cons, ih, pow_succ', Nat.mod_mul]

/-- A word assembled from bytes gives its bytes back. -/
theorem bytesLE_ofBytesLE {bs : List Nat} (h : ∀ b ∈ bs, b < 256) :
    bytesLE (ofBytesLE bs) bs.length = bs := by
  induction bs with
  | nil => rfl
  | cons b bs ih =>
    have hb := h b (by simp)
    rw [List.length_cons, bytesLE_succ, ofBytesLE_cons]
    congr 1
    · omega
    · rw [show (b + 256 * ofBytesLE bs) / 256 = ofBytesLE bs by omega]
      exact ih fun c hc => h c (by simp [hc])

theorem lt_of_mem_reverse_bytesLE {n size b : Nat} (h : b ∈ (bytesLE n size).reverse) :
    b < 256 :=
  lt_of_mem_bytesLE (List.mem_reverse.1 h)

theorem reverseBytes_lt (n size : Nat) : reverseBytes n size < 256 ^ size := by
  have := ofBytesLE_lt fun b (hb : b ∈ (bytesLE n size).reverse) => lt_of_mem_reverse_bytesLE hb
  simpa [reverseBytes, ofBytesBE] using this

theorem bytesLE_reverseBytes (n size : Nat) :
    bytesLE (reverseBytes n size) size = (bytesLE n size).reverse := by
  have := bytesLE_ofBytesLE fun b (hb : b ∈ (bytesLE n size).reverse) =>
    lt_of_mem_reverse_bytesLE hb
  simpa [reverseBytes, ofBytesBE] using this

/-- Reversing the bytes twice gives back the word below `256 ^ size`. -/
theorem reverseBytes_reverseBytes (n size : Nat) :
    reverseBytes (reverseBytes n size) size = n % 256 ^ size := by
  rw [reverseBytes, ofBytesBE, bytesLE_reverseBytes, List.reverse_reverse, ofBytesLE_bytesLE]

/-- The byte reversal of a `size`-byte word weighs byte `i` by `256 ^ (size - 1 - i)`. -/
theorem reverseBytes_eq_sum (n size : Nat) :
    reverseBytes n size = ∑ i ∈ Finset.range size, byte n (size - 1 - i) * 256 ^ i := by
  rw [reverseBytes, ofBytesBE, ofBytesLE_eq_sum]
  simp only [List.length_reverse, length_bytesLE]
  refine Finset.sum_congr rfl fun i hi => ?_
  have hi : i < size := Finset.mem_range.1 hi
  rw [List.getD_eq_getElem?_getD, List.getElem?_reverse (by simpa using hi)]
  simp [bytesLE, show size - 1 - i < size by omega]

/-- Byte `k + i` of a word is byte `i` of what is above its low `k` bytes. -/
theorem byte_add (n k i : Nat) : byte n (k + i) = byte (n / 2 ^ (8 * k)) i := by
  rw [byte, byte, Nat.mul_add, pow_add, Nat.div_div_eq_div_mul]

theorem bytesLE_add (n k j : Nat) :
    bytesLE n (k + j) = bytesLE n k ++ bytesLE (n / 2 ^ (8 * k)) j := by
  simp only [bytesLE, List.range_add, List.map_append, List.map_map]
  congr 1
  exact List.map_congr_left fun i _ => byte_add n k i

theorem ofBytesLE_append (l₁ l₂ : List Nat) :
    ofBytesLE (l₁ ++ l₂) = ofBytesLE l₁ + 256 ^ l₁.length * ofBytesLE l₂ := by
  induction l₁ with
  | nil => simp
  | cons b l₁ ih =>
    rw [List.cons_append, ofBytesLE_cons, ofBytesLE_cons, ih, List.length_cons, pow_succ]
    ring

@[simp] theorem reverseBytes_zero (size : Nat) : reverseBytes 0 size = 0 := by
  simp [reverseBytes_eq_sum, byte]

/-- Reversing `k + j` bytes puts the reversal of the low `k` above that of the next `j`. -/
theorem reverseBytes_add (n k j : Nat) :
    reverseBytes n (k + j) = reverseBytes (n / 2 ^ (8 * k)) j + 256 ^ j * reverseBytes n k := by
  simp only [reverseBytes, ofBytesBE, bytesLE_add, List.reverse_append, ofBytesLE_append,
    List.length_reverse, length_bytesLE]

/-- Swapping the bytes of a word of `size` bytes reverses them at the top of the 128-bit
word: the reversal within `size` bytes, shifted up past the other `16 - size` bytes. -/
theorem swapBytes_of_lt {m size : Nat} (hsize : size ≤ 16) (hm : m < 2 ^ (8 * size)) :
    swapBytes m = reverseBytes m size * 2 ^ (8 * (16 - size)) := by
  have h := reverseBytes_add m size (16 - size)
  rw [show size + (16 - size) = 16 by omega, Nat.div_eq_of_lt hm, reverseBytes_zero,
    Nat.zero_add] at h
  rw [swapBytes, h, Nat.mul_comm, pow_mul]
  norm_num

end Word

end ByteLayout

import Mathlib
import ByteLayout.Eval.Intrinsic
import ByteLayout.Proofs.Value.Operators

/-!
# Decoding bytes agrees with casting

Integers are made from bytes in three places: `Word.ofBytes` assembles the bytes of a
node, `Word.ofWidth` takes the low bytes of a word when a value is cast, and the
`std::mem::read_*` built-ins read bytes at an address. This file shows that the three
agree. Bytes in little endian weigh `256 ^ i`, and big-endian assembly is the byte reversal
of the little-endian word within its width. So reading an integer node of a builtin width is
casting its little-endian word to the builtin of its signedness and width in the node's byte
order, and a built-in read is the read of such a node at the address.

## Main definitions

* `Endian.selector` — the byte-order argument of the read built-ins that picks an order.

## Main results

* `Word.ofWidth_ofBytesLE` — assembling bytes in an order is casting their little-endian
  word in that order.
* `Node.readValue_unsigned_eq_cast`, `Node.readValue_signed_eq_cast` — integer nodes.
* `Intrinsic.readUnsigned_eq_readValue`, `Intrinsic.readSigned_eq_readValue` — the read
  built-ins.
* `byteDecoding_agrees_with_cast` — all of it.
-/

namespace ByteLayout

/-! ### Bytes of the data -/

namespace Data

theorem toList_loop (bs : ByteArray) (i : Nat) (r : List UInt8) :
    ByteArray.toList.loop bs i r = r.reverse ++ bs.data.toList.drop i := by
  fun_induction ByteArray.toList.loop bs i r with
  | case1 i r h ih =>
    have hi : i < bs.data.toList.length := by rw [Array.length_toList]; exact h
    rw [ih, List.reverse_cons, List.append_assoc, List.singleton_append,
      ← List.getElem_cons_drop hi]
    simp [ByteArray.get!, h]
  | case2 i r h =>
    have hi : bs.data.toList.length ≤ i := by
      rw [Array.length_toList]; exact Nat.le_of_not_lt h
    simp [List.drop_eq_nil_of_le hi]

theorem toList_eq (bs : ByteArray) : bs.toList = bs.data.toList := by
  simp [ByteArray.toList, toList_loop]

/-- A read gives as many bytes as asked for, each below 256. -/
theorem read_ok {D : ByteArray} {o n : Nat} {b : List Nat} (h : read D o n = .ok b) :
    b.length = n ∧ ∀ x ∈ b, x < 256 := by
  unfold read at h
  split at h
  · cases h
    refine ⟨?_, ?_⟩
    · simp [toList_eq]
      omega
    · intro x hx
      obtain ⟨y, -, rfl⟩ := List.mem_map.1 hx
      exact y.toNat_lt
  · cases h

end Data

/-! ### Assembling and casting -/

namespace Word

/-- Bytes assembled least significant first: byte `i` weighs `256 ^ i`. -/
theorem ofBytes_little_eq_sum (b : List UInt8) :
    ofBytes .little (b.map (·.toNat)) = ∑ i ∈ Finset.range b.length, (b.getD i 0).toNat * 256 ^ i := by
  rw [ofBytes, ofBytesLE_eq_sum, List.length_map]
  refine Finset.sum_congr rfl fun i _ => ?_
  simp only [List.getD_eq_getElem?_getD, List.getElem?_map]
  cases b[i]? <;> rfl

/-- Assembling bytes in an order is casting their little-endian word to their width in that
order: a big-endian word is the byte reversal of the little-endian one. -/
theorem ofWidth_ofBytesLE {bs : List Nat} (h : ∀ x ∈ bs, x < 256) (hlen : bs.length ≤ 16)
    (e : Endian) : ofWidth (ofBytesLE bs) bs.length e = ofBytes e bs := by
  have hlt : ofBytesLE bs < 2 ^ (8 * bs.length) := by
    rw [two_pow_eight_mul]; exact ofBytesLE_lt h
  cases e
  · rw [ofWidth_little hlen]
    exact Nat.mod_eq_of_lt hlt
  · rw [ofWidth_big hlen, Nat.mod_eq_of_lt hlt, reverseBytes, bytesLE_ofBytesLE h]
    rfl

end Word

/-! ### Integer nodes -/

namespace Node

variable {N : Node} {D : ByteArray} {d : Endian} {w : IntWidth} {b : List Nat}

/-- The word of a node of a builtin width, read from its bytes `b`. -/
theorem readWord_eq (hw : N.size = w.bytes) (hb : Data.read D N.offset N.size = .ok b)
    (e : Endian) : N.readWord D e = .ok (Word.ofBytes e b) := by
  have h16 : ¬ N.size > 16 := by rw [hw]; cases w <;> decide
  simp [readWord, h16, hb]

/-- The word of the bytes of a node of a builtin width, cast to that width in any order, is
the node's word in that order. -/
theorem ofWidth_bytes (hw : N.size = w.bytes) (hb : Data.read D N.offset N.size = .ok b)
    (e : Endian) : Word.ofWidth (Word.ofBytes .little b) w.bytes e = Word.ofBytes e b := by
  obtain ⟨hlen, hbyte⟩ := Data.read_ok hb
  rw [← hw, ← hlen]
  exact Word.ofWidth_ofBytesLE hbyte (by rw [hlen, hw]; exact w.bytes_le) e

/-- An unsigned, enum or pointer node of a builtin width reads as the unsigned cast of the
little-endian word of its bytes, in its own byte order or else the default. -/
theorem readValue_unsigned_eq_cast
    (hk : N.kind = .unsigned ∨ (∃ es, N.kind = .enum es) ∨ ∃ p, N.kind = .pointer p)
    (hw : N.size = w.bytes) (hb : Data.read D N.offset N.size = .ok b) :
    N.readValue D d = (Value.uint (Word.ofBytes .little b)).cast (.unsigned w) (N.endian.getD d) := by
  rw [Value.cast_unsigned rfl, ofWidth_bytes hw hb]
  rcases hk with hk | ⟨es, hk⟩ | ⟨p, hk⟩ <;>
    simp [readValue, hk, readWord_eq hw hb]

/-- A signed node of a builtin width reads as the signed cast of the little-endian word of
its bytes, in its own byte order or else the default. -/
theorem readValue_signed_eq_cast (hk : N.kind = .signed) (hw : N.size = w.bytes)
    (hb : Data.read D N.offset N.size = .ok b) :
    N.readValue D d = (Value.uint (Word.ofBytes .little b)).cast (.signed w) (N.endian.getD d) := by
  rw [Value.cast_signed rfl, ofWidth_bytes hw hb]
  simp [readValue, hk, readWord_eq hw hb, hw, IntWidth.bits, Nat.mul_comm]

end Node

/-! ### The read built-ins -/

/-- The byte-order argument of the read built-ins that picks an order: `0` for the document
default, `1` for big and `2` for little endian. -/
def Endian.selector : Option Endian → Nat
  | none => 0
  | some .big => 1
  | some .little => 2

theorem Eval.lift_map {α β : Type} (f : α → β) (x : Except EvalFault α) :
    Eval.lift (f <$> x) = f <$> Eval.lift x := by
  cases x <;> rfl

namespace Intrinsic

/-- With an address below `2 ^ 64`, a size from 1 to 16 and a selector, the raw read is the
word of the bytes at the address in the selected order. -/
theorem readRaw_eq (name : String) {o n : Nat} (ho : o < 2 ^ 64) (h1 : 1 ≤ n) (h16 : n ≤ 16)
    (E : Option Endian) :
    readRaw name [.uint o, .uint n, .uint (Endian.selector E)] =
      (do
        let c ← read
        let bytes ← Eval.lift (Data.read c.data o n)
        return (Word.ofBytes (E.getD c.config.defaultEndian) bytes, n)) := by
  have ho' : ¬ o ≥ 2 ^ 64 := by omega
  have hs : ¬ (n = 0 ∨ 16 < n) := by omega
  cases E with
  | none =>
    simp [readRaw, checkArity, Value.toUnsigned, Eval.lift, ho', hs, Endian.selector,
      Eval.defaultEndian, Eval.readBytes]
    -- the default order and the bytes are read from one context
    rfl
  | some e =>
    cases e <;> simp [readRaw, checkArity, Value.toUnsigned, Eval.lift, ho', hs,
      Endian.selector, Eval.readBytes]

section
variable {N : Node} (ho : N.offset < 2 ^ 64) (h1 : 1 ≤ N.size) (h16 : N.size ≤ 16)
include ho h1 h16

/-- Reading an unsigned integer at an address is reading the unsigned node of that size
there, in the selected order. -/
theorem readUnsigned_eq_readValue (hk : N.kind = .unsigned) :
    readUnsigned [.uint N.offset, .uint N.size, .uint (Endian.selector N.endian)] =
      (do
        let c ← read
        some <$> Eval.lift (N.readValue c.data c.config.defaultEndian)) := by
  have h16' : ¬ N.size > 16 := by omega
  rw [readUnsigned, readRaw_eq _ ho h1 h16]
  simp [Node.readValue, hk, Node.readWord, h16', Eval.lift_map]

/-- Reading a signed integer at an address is reading the signed node of that size there, in
the selected order. -/
theorem readSigned_eq_readValue (hk : N.kind = .signed) :
    readSigned [.uint N.offset, .uint N.size, .uint (Endian.selector N.endian)] =
      (do
        let c ← read
        some <$> Eval.lift (N.readValue c.data c.config.defaultEndian)) := by
  have h16' : ¬ N.size > 16 := by omega
  rw [readSigned, readRaw_eq _ ho h1 h16]
  simp [Node.readValue, hk, Node.readWord, h16', Eval.lift_map]

end

end Intrinsic

/-- Decoding bytes agrees with casting. Bytes in little endian weigh `256 ^ i`, and up to
16 of them in big endian give their little-endian word cast to their width in big endian,
the reversal within that width. An integer node of a builtin width reads
as the cast of the little-endian word of its bytes to the builtin of its signedness, in its
order or else the default. The read built-ins, given an address, a size from 1 to 16 and a
selector, read as the node of that size at the address with the order the selector picks. -/
theorem byteDecoding_agrees_with_cast :
    (∀ b : List UInt8, b.length ≤ 16 →
      Word.ofBytes .little (b.map (·.toNat)) =
          ∑ i ∈ Finset.range b.length, (b.getD i 0).toNat * 256 ^ i ∧
        Word.ofBytes .big (b.map (·.toNat)) =
          Word.ofWidth (Word.ofBytes .little (b.map (·.toNat))) b.length .big) ∧
    (∀ (N : Node) (D : ByteArray) (d : Endian) (w : IntWidth) (b : List Nat),
      N.size = w.bytes → Data.read D N.offset N.size = .ok b →
        ((N.kind = .unsigned ∨ (∃ es, N.kind = .enum es) ∨ ∃ p, N.kind = .pointer p) →
          N.readValue D d =
            (Value.uint (Word.ofBytes .little b)).cast (.unsigned w) (N.endian.getD d)) ∧
        (N.kind = .signed →
          N.readValue D d =
            (Value.uint (Word.ofBytes .little b)).cast (.signed w) (N.endian.getD d))) ∧
    (∀ N : Node, N.offset < 2 ^ 64 → 1 ≤ N.size → N.size ≤ 16 →
      (N.kind = .unsigned →
        Intrinsic.readUnsigned [.uint N.offset, .uint N.size, .uint (Endian.selector N.endian)] =
          (do
            let c ← read
            some <$> Eval.lift (N.readValue c.data c.config.defaultEndian))) ∧
      (N.kind = .signed →
        Intrinsic.readSigned [.uint N.offset, .uint N.size, .uint (Endian.selector N.endian)] =
          (do
            let c ← read
            some <$> Eval.lift (N.readValue c.data c.config.defaultEndian)))) := by
  refine ⟨fun b hlen => ⟨Word.ofBytes_little_eq_sum b, ?_⟩, fun N D d w b hw hb => ⟨?_, ?_⟩,
    fun N ho h1 h16 => ⟨Intrinsic.readUnsigned_eq_readValue ho h1 h16,
      Intrinsic.readSigned_eq_readValue ho h1 h16⟩⟩
  · have hbyte : ∀ x ∈ b.map (·.toNat), x < 256 := by
      intro x hx
      obtain ⟨y, -, rfl⟩ := List.mem_map.1 hx
      exact y.toNat_lt
    have h := Word.ofWidth_ofBytesLE hbyte (by rwa [List.length_map]) .big
    rw [List.length_map] at h
    exact h.symm
  · exact fun hk => Node.readValue_unsigned_eq_cast hk hw hb
  · exact fun hk => Node.readValue_signed_eq_cast hk hw hb

/-- A big-endian `u16` over the bytes `12 34`, and the built-in read of it. -/
theorem byteDecoding_agrees_with_cast_bigU16 :
    let N : Node := { (default : Node) with size := 2, kind := .unsigned, endian := some .big }
    let D : ByteArray := ⟨#[0x12, 0x34]⟩
    N.size = IntWidth.w16.bytes ∧ Data.read D N.offset N.size = .ok [0x12, 0x34] ∧
      N.readValue D .little = (Value.uint 0x3412).cast (.unsigned .w16) .big ∧
      Intrinsic.readUnsigned [.uint 0, .uint 2, .uint 1] =
        (do
          let c ← read
          some <$> Eval.lift (N.readValue c.data c.config.defaultEndian)) := by
  intro N D
  have hr : Data.read D N.offset N.size = .ok [0x12, 0x34] := by decide +kernel
  have hv := (byteDecoding_agrees_with_cast.2.1 N D .little .w16 _ rfl hr).1 (Or.inl rfl)
  refine ⟨rfl, hr, hv, ?_⟩
  exact (byteDecoding_agrees_with_cast.2.2 N (by decide) (by decide) (by decide)).1 rfl

example : (Value.uint 0x3412).cast (.unsigned .w16) .big = .ok (.uint 0x1234) := rfl

end ByteLayout

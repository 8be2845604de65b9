import Mathlib
import ByteLayout.Proofs.Layout.Strings
import ByteLayout.Proofs.Layout.Decode

set_option autoImplicit false

/-!
# Strings read back what was written

An unsized string `char16 x[] @ a;` placed over the UTF-16 code units of a text in some byte
order, followed by a zero unit, is a `string16` node over the units and the zero unit, and
reading the node gives the text back: the scan stops at the first zero unit and keeps it, the
reader assembles the units in the node's byte order, cuts them at the first zero and decodes
surrogate pairs. A `char` string over the bytes of a text of characters up to `U+00FF` and a
zero byte is the same with one byte a character.

The scan counts a step for every unit it reads, the zero unit included, and the declaration
counts one more, so the string is built only when the step limit leaves room for them. The
array length limit plays no part: an unsized string never checks it. The scan's test for one
more unit adds on 64 bits; over data of fewer than `2 ^ 64` bytes every unit it reads ends in
the data, so the test never overflows.

## Main definitions

* `Utf16.encode`, `Utf16.bytes` — the code units of a text, and their bytes in a byte order.

## Main results

* `Utf16.decode_encode` — decoding the units of a text gives the text.
* `run_unsizedChars_scan` — the scan over units that are not zero up to a zero unit.
* `run_unsizedStringAt` — an unsized string declared at an offset, as one run.
* `Node.readValue_string16_encode`, `Node.readValue_string_bytes` — reading string nodes.
* `stringNodes_read_back` — the declarations build the nodes that read back the text.
* `char16String_stepLimit_refused` — with too small a step limit the string is refused.
-/

namespace ByteLayout

open Eval

/-! ### UTF-16 -/

lemma Char.toNat_valid (ch : Char) :
    ch.toNat < 0xD800 ∨ (0xDFFF < ch.toNat ∧ ch.toNat < 0x110000) := by
  have h : ch.val.toNat.isValidChar := ch.valid
  rwa [Char.toNat_val] at h

namespace Utf16

/-- The code units of a character: the character itself below `U+10000`, else its surrogate
pair. -/
def encodeChar (ch : Char) : List Nat :=
  if ch.toNat < 0x10000 then [ch.toNat]
  else [0xD800 + (ch.toNat - 0x10000) / 0x400, 0xDC00 + (ch.toNat - 0x10000) % 0x400]

/-- The code units of a text. -/
def encode (s : List Char) : List Nat := s.flatMap encodeChar

lemma encodeChar_lt (ch : Char) : ∀ u ∈ encodeChar ch, u < 0x10000 := by
  have := Char.toNat_valid ch
  unfold encodeChar
  split
  · simp only [List.mem_singleton, forall_eq]
    omega
  · simp only [List.mem_cons, List.not_mem_nil, or_false, forall_eq_or_imp, forall_eq]
    omega

/-- Only the character `U+0000` has a zero unit. -/
lemma encodeChar_ne_zero {ch : Char} (h : ch ≠ '\x00') : ∀ u ∈ encodeChar ch, u ≠ 0 := by
  have hpos : ch.toNat ≠ 0 := fun h0 => h (Char.ext (UInt32.toNat_inj.mp (by
    rw [Char.toNat_val] at *; simpa using h0)))
  unfold encodeChar
  split
  · simp only [List.mem_singleton, forall_eq]
    exact hpos
  · simp only [List.mem_cons, List.not_mem_nil, or_false, forall_eq_or_imp, forall_eq]
    omega

/-- A unit outside the surrogates is a character of its own. -/
lemma decode_cons_single {u : Nat} (hlow : isLow u = false) (hhigh : isHigh u = false)
    (us : List Nat) : decode (u :: us) = Char.ofNat u :: decode us := by
  rw [decode.eq_def]
  simp [hlow, hhigh]

/-- A character's units are decoded as the character, whatever follows them. -/
lemma decode_encodeChar_append (ch : Char) (us : List Nat) :
    decode (encodeChar ch ++ us) = ch :: decode us := by
  have hv := Char.toNat_valid ch
  unfold encodeChar
  split
  · -- one unit, outside the surrogates
    rw [List.singleton_append, decode_cons_single (by simp [isLow]; omega)
      (by simp [isHigh]; omega), Char.ofNat_toNat]
  · -- a high surrogate and a low one, which carry the bits above and below the tenth
    have hlow : isLow (0xD800 + (ch.toNat - 0x10000) / 0x400) = false := by
      simp [isLow]; omega
    have hhigh : isHigh (0xD800 + (ch.toNat - 0x10000) / 0x400) = true := by
      simp [isHigh]; omega
    have hpair : isLow (0xDC00 + (ch.toNat - 0x10000) % 0x400) = true := by
      simp [isLow]; omega
    have hcode : 0x10000 + (0xD800 + (ch.toNat - 0x10000) / 0x400 - 0xD800) * 0x400 +
        (0xDC00 + (ch.toNat - 0x10000) % 0x400 - 0xDC00) = ch.toNat := by omega
    rw [List.cons_append, List.cons_append, List.nil_append, decode.eq_2]
    simp only [hlow, hhigh, hpair, Bool.false_eq_true, ite_false, ite_true, hcode,
      Char.ofNat_toNat]

/-- Decoding the units of a text gives the text. -/
theorem decode_encode (s : List Char) : decode (encode s) = s := by
  induction s with
  | nil => rfl
  | cons ch s ih => rw [encode, List.flatMap_cons, decode_encodeChar_append, ← encode, ih]

lemma encode_lt (s : List Char) : ∀ u ∈ encode s, u < 0x10000 := by
  intro u hu
  obtain ⟨ch, -, hu⟩ := List.mem_flatMap.mp hu
  exact encodeChar_lt ch u hu

lemma encode_ne_zero {s : List Char} (h : '\x00' ∉ s) : ∀ u ∈ encode s, u ≠ 0 := by
  intro u hu
  obtain ⟨ch, hch, hu⟩ := List.mem_flatMap.mp hu
  exact encodeChar_ne_zero (fun h' => h (h' ▸ hch)) u hu

/-- The two bytes of a unit in a byte order. -/
def unitBytes (e : Endian) (u : Nat) : List Nat :=
  match e with
  | .little => Word.bytesLE u 2
  | .big => (Word.bytesLE u 2).reverse

/-- The bytes of units in a byte order. -/
def bytes (e : Endian) (us : List Nat) : List Nat := us.flatMap (unitBytes e)

lemma length_unitBytes (e : Endian) (u : Nat) : (unitBytes e u).length = 2 := by
  cases e <;> simp [unitBytes]

lemma length_bytes (e : Endian) (us : List Nat) : (bytes e us).length = 2 * us.length := by
  induction us with
  | nil => rfl
  | cons u us ih =>
    simp only [bytes, List.flatMap_cons, List.length_append, length_unitBytes] at ih ⊢
    rw [ih, List.length_cons]
    omega

/-- A unit is assembled back from its bytes. -/
lemma ofBytes_unitBytes (e : Endian) {u : Nat} (hu : u < 0x10000) :
    Word.ofBytes e (unitBytes e u) = u := by
  have h := Word.ofBytesLE_bytesLE u 2
  rw [Nat.mod_eq_of_lt (by simpa using hu)] at h
  cases e
  · exact h
  · simpa [Word.ofBytes, unitBytes, Word.ofBytesBE] using h

lemma unitBytes_eq_pair (e : Endian) (u : Nat) :
    ∃ x y, unitBytes e u = [x, y] := by
  cases e <;> exact ⟨_, _, rfl⟩

/-- The units of the bytes of 16-bit units are the units. -/
lemma units_bytes (e : Endian) {us : List Nat} (h : ∀ u ∈ us, u < 0x10000) :
    units e (bytes e us) = us := by
  induction us with
  | nil => cases e <;> rfl
  | cons u us ih =>
    obtain ⟨x, y, hxy⟩ := unitBytes_eq_pair e u
    have hu := h u (by simp)
    simp only [bytes, List.flatMap_cons, hxy, List.cons_append, List.nil_append] at ih ⊢
    rw [units, ← hxy, ofBytes_unitBytes e hu, ih fun v hv => h v (by simp [hv])]

/-- A unit is zero exactly when its bytes all are. -/
lemma unitBytes_all_zero (e : Endian) {u : Nat} (hu : u < 0x10000) :
    (∀ x ∈ unitBytes e u, x = 0) ↔ u = 0 := by
  constructor
  · intro hz
    obtain ⟨x, y, hxy⟩ := unitBytes_eq_pair e u
    have hx : x = 0 := hz x (by simp [hxy])
    have hy : y = 0 := hz y (by simp [hxy])
    rw [← ofBytes_unitBytes e hu, hxy, hx, hy]
    cases e <;> rfl
  · rintro rfl x hx
    have hzero : Word.bytesLE 0 2 = [0, 0] := by decide
    cases e <;> simp only [unitBytes, hzero, List.reverse_cons, List.reverse_nil, List.nil_append,
      List.cons_append, List.mem_cons, List.not_mem_nil, or_false, or_self] at hx <;> exact hx

/-- The bytes of units and a zero unit: the units' pairs of bytes, then two zeros. -/
lemma bytes_append_zero (e : Endian) (us : List Nat) :
    bytes e (us ++ [0]) = (us.map (unitBytes e)).flatten ++ List.replicate 2 0 := by
  have hzero : Word.bytesLE 0 2 = [0, 0] := by decide
  rw [bytes, List.flatMap_append, List.flatMap_def]
  cases e <;> simp [unitBytes, hzero]

lemma length_flatten_unitBytes (e : Endian) (us : List Nat) :
    (us.map (unitBytes e)).flatten.length = 2 * us.length := by
  rw [← List.flatMap_def, ← bytes, length_bytes]

/-- The bytes of a unit that is not zero are two, not both zero. -/
lemma unitBytes_chunk (e : Endian) {u : Nat} (hu : u < 0x10000) (h0 : u ≠ 0) :
    (unitBytes e u).length = 2 ∧ ∃ x ∈ unitBytes e u, x ≠ 0 := by
  refine ⟨length_unitBytes e u, ?_⟩
  by_contra h
  exact h0 ((unitBytes_all_zero e hu).mp fun x hx => by_contra fun hx0 => h ⟨x, hx, hx0⟩)

end Utf16

/-! ### Reading string nodes -/

namespace Node

variable {N : Node} {D : ByteArray} {d : Endian}

/-- A `string16` node over the units of a text without `U+0000` and a zero unit, in the byte
order the node is read in, reads as the text. -/
theorem readValue_string16_encode (hk : N.kind = .string16) {s : String} (hs : '\x00' ∉ s.toList)
    (hread : Data.read D N.offset N.size =
      .ok (Utf16.bytes (N.endian.getD d) (Utf16.encode s.toList ++ [0]))) :
    N.readValue D d = .ok (.str s) := by
  have hlt : ∀ u ∈ Utf16.encode s.toList ++ [0], u < 0x10000 := by
    intro u hu
    rcases List.mem_append.mp hu with hu | hu
    · exact Utf16.encode_lt s.toList u hu
    · rw [List.mem_singleton.mp hu]
      decide
  have hcut : (Utf16.encode s.toList ++ [0]).takeWhile (· != 0) = Utf16.encode s.toList := by
    rw [List.takeWhile_append_of_pos (by simpa using Utf16.encode_ne_zero hs)]
    simp
  simp only [readValue, hk, hread, Value.except_ok_bind, Utf16.units_bytes _ hlt, hcut,
    Utf16.decode_encode, String.ofList_toList]
  rfl

/-- A `string` node over the bytes of a text of characters up to `U+00FF` without `U+0000`,
and a zero byte, reads as the text. -/
theorem readValue_string_bytes (hk : N.kind = .string) {s : String} (hs : '\x00' ∉ s.toList)
    (hread : Data.read D N.offset N.size = .ok (s.toList.map Char.toNat ++ [0])) :
    N.readValue D d = .ok (.str s) := by
  have hnz : ∀ x ∈ s.toList.map Char.toNat, (x != 0) = true := by
    intro x hx
    obtain ⟨ch, hch, rfl⟩ := List.mem_map.mp hx
    have : ch.toNat ≠ 0 := fun h0 => hs (by
      rwa [show ch = '\x00' from Char.ext (UInt32.toNat_inj.mp (by simpa [Char.toNat_val] using h0))]
        at hch)
    simpa using this
  have hcut : (s.toList.map Char.toNat ++ [0]).takeWhile (· != 0) = s.toList.map Char.toNat := by
    rw [List.takeWhile_append_of_pos hnz]
    simp
  simp only [readValue, hk, hread, Value.except_ok_bind, hcut, List.map_map]
  rw [show (Char.ofNat ∘ Char.toNat) = id from funext Char.ofNat_toNat, List.map_id,
    String.ofList_toList]
  rfl

end Node

/-! ### The scan -/

namespace Data

lemma read_eq (D : ByteArray) (o n : Nat) (h : o + n ≤ D.size) :
    read D o n = .ok (((D.data.toList.drop o).take n).map (·.toNat)) := by
  rw [read, if_pos h, toList_eq, ByteArray.data_extract, Array.toList_extract,
    List.extract_eq_take_drop, Nat.add_sub_cancel_left]

/-- A read of two adjacent ranges is the read of each. -/
lemma read_add {D : ByteArray} {o n₁ n₂ : Nat} {l : List Nat}
    (h : read D o (n₁ + n₂) = .ok l) :
    read D o n₁ = .ok (l.take n₁) ∧ read D (o + n₁) n₂ = .ok (l.drop n₁) := by
  have hle := le_of_read h
  rw [read_eq D o _ hle] at h
  cases h
  refine ⟨?_, ?_⟩
  · rw [read_eq D o n₁ (by omega), ← List.map_take, List.take_take, Nat.min_eq_left (by omega)]
  · rw [read_eq D (o + n₁) n₂ (by omega), ← List.map_drop, List.drop_take, List.drop_drop,
      Nat.add_sub_cancel_left]

end Data

section Scan

variable {c : Context}

lemma run_tick_within {m : Machine}
    (h : ¬(0 < c.config.maxSteps ∧ c.config.maxSteps < m.steps + 1)) :
    ((tick).run c).run m = .ok () ({ m with steps := m.steps + 1 }) := by
  simp only [tick, config, run_bind, run_modify, run_read, run_get, run_ite, run_fault, run_pure]
  simp only [Bool.and_eq_true, decide_eq_true_eq]
  rw [if_neg h]

/-- The unsized scan over chunks of `unit` bytes that are not all zero and then a chunk of
zeros: it reads each of them with a step, and stops after the zeros.

The induction is on the chunks before the zeros; the fuel, one per chunk read, is the scan's
loop counter. -/
theorem run_unsizedChars_scan (hdata : c.data.size < 2 ^ 64) (unit : Nat) :
    ∀ (chunks : List (List Nat)) (m : Machine) (fuel : Nat), chunks.length < fuel →
      (∀ ch ∈ chunks, ch.length = unit ∧ ∃ x ∈ ch, x ≠ 0) →
      Data.read c.data m.cursor (chunks.flatten.length + unit) =
        .ok (chunks.flatten ++ List.replicate unit 0) →
      (c.config.maxSteps = 0 ∨ m.steps + chunks.length + 1 ≤ c.config.maxSteps) →
      ((unsizedChars fuel unit).run c).run m = .ok () ({ m with
          cursor := m.cursor + chunks.flatten.length + unit
          steps := m.steps + chunks.length + 1 }) := by
  intro chunks
  induction chunks with
  | nil =>
    intro m fuel hfuel _ hread hsteps
    obtain ⟨f, rfl⟩ : ∃ f, fuel = f + 1 := ⟨fuel - 1, by simp at hfuel; omega⟩
    simp only [List.flatten_nil, List.length_nil, Nat.zero_add, List.nil_append] at hread
    have hin := Data.le_of_read hread
    simp only [unsizedChars, run_bind, run_cursor, run_read, run_ite]
    -- the unit ends in the data, so below `2 ^ 64`
    rw [if_neg (by omega), if_pos hin]
    simp only [run_tick_within (show ¬(0 < c.config.maxSteps ∧ c.config.maxSteps < m.steps + 1) by
        simp at hsteps; omega), run_readBytes, hread, run_setCursor]
    simp only [List.flatten_nil, List.length_nil, Nat.add_zero, List.all_replicate, beq_self_eq_true,
      ite_self, Bool.not_true, Bool.false_eq_true, if_false]
    rfl
  | cons ch rest ih =>
    intro m fuel hfuel hchunks hread hsteps
    obtain ⟨f, rfl⟩ : ∃ f, fuel = f + 1 := ⟨fuel - 1, by simp at hfuel; omega⟩
    obtain ⟨hlen, hnz⟩ := hchunks ch (by simp)
    -- the first chunk, then the rest of the range from the next unit
    rw [List.flatten_cons, List.length_append, Nat.add_assoc, List.append_assoc] at hread
    obtain ⟨hfirst, hrest⟩ := Data.read_add hread
    rw [List.take_left, hlen] at hfirst
    rw [List.drop_left, hlen] at hrest
    have hin : m.cursor + unit ≤ c.data.size := by
      have := Data.le_of_read hrest
      omega
    have hall : (ch.all fun x => x == 0) = false := by simpa using hnz
    simp only [unsizedChars, run_bind, run_cursor, run_read, run_ite]
    rw [if_neg (by omega), if_pos hin]
    simp only [run_tick_within (show ¬(0 < c.config.maxSteps ∧ c.config.maxSteps < m.steps + 1) by
        simp at hsteps; omega), run_readBytes, hfirst, run_setCursor, hall,
      Bool.not_false, ite_true]
    rw [ih { m with steps := m.steps + 1, cursor := m.cursor + unit } f (by simp at hfuel; omega)
      (fun ch' h' => hchunks ch' (by simp [h'])) hrest (by simp at hsteps ⊢; omega)]
    congr 3
    · simp only [List.flatten_cons, List.length_append, hlen]
      omega
    · simp only [List.length_cons]
      omega

end Scan

/-! ### The declaration -/

section Declaration

variable {c : Context} {m : Machine} {α : Type}

lemma run_evalExpr_lit (k : Nat) (v : Literal) (sp : Span) :
    ((evalExpr (k + 1) (.lit v sp)).run c).run m = .ok v.value m := by
  rw [evalExpr]
  exact run_withLine_of_ok _ rfl

/-- A build at an offset runs with the cursor there and puts it back. -/
lemma run_atOffset (o : Nat) {x : Eval α} {r : α} {m' : Machine}
    (h : (x.run c).run { m with cursor := o } = .ok r m') :
    ((atOffset o x).run c).run m = .ok r ({ m' with cursor := m.cursor }) := by
  simp only [atOffset, run_bind, run_cursor, run_setCursor, run_attempt, h]
  rfl

/-- A node with no attributes and not inlined goes into the innermost frame. -/
lemma run_emit_plain (node : Node) :
    ((emit node false []).run c).run m = .ok () ({ m with scope := m.scope.pushMember node }) := by
  simp only [emit, applyAttributes, List.foldlM, run_bind, run_cursor, run_pure, Bool.or_false,
    Bool.false_eq_true, if_false]
  rfl

lemma TypeDecl.endian_ofBuiltin (b : Builtin) (q : Option Endian) (sp : Span) :
    (TypeDecl.ofBuiltin b q sp).endian = q := rfl

/-- An unsized `char` or `char16` string declared at `a`, over chunks of `unit` bytes that are
not all zero and then a chunk of zeros: one step for the declaration and one for each chunk,
and one node over the chunks and the zeros in the innermost frame, in the declared byte order
or else the inherited one; the cursor stays where it was. -/
theorem run_unsizedStringAt {cb : Builtin} {unit : Nat}
    (hcb : (cb = .char ∧ unit = 1) ∨ (cb = .char16 ∧ unit = 2)) (name : String)
    (q : Option Endian) (hdata : c.data.size < 2 ^ 64) {a : Nat} (ha : a < 2 ^ 64) (sp sp₁ sp₂ : Span)
    {chunks : List (List Nat)} (hchunks : ∀ ch ∈ chunks, ch.length = unit ∧ ∃ x ∈ ch, x ≠ 0)
    (hread : Data.read c.data a (chunks.flatten.length + unit) =
      .ok (chunks.flatten ++ List.replicate unit 0))
    (hsteps : c.config.maxSteps = 0 ∨ m.steps + chunks.length + 2 ≤ c.config.maxSteps)
    (hpat : c.config.maxPatterns = 0 ∨ m.patterns < c.config.maxPatterns)
    {fuel : Nat} (hfuel : chunks.length + 4 ≤ fuel) :
    ∃ N, ((buildMember fuel (.array name (TypeDecl.ofBuiltin cb q sp) .unsized
        (.atOffset (.lit (.int a) sp₁)) [] sp₂)).run c).run m =
      .ok () ({ m with
        scope := m.scope.pushMember N
        steps := m.steps + chunks.length + 2
        patterns := m.patterns + 1 }) ∧
      N.kind = (if unit = 1 then .string else .string16) ∧ N.offset = a ∧
      N.size = chunks.flatten.length + unit ∧ N.endian = q.or m.endian := by
  obtain ⟨f, rfl⟩ : ∃ f, fuel = f + 4 := ⟨fuel - 4, by omega⟩
  have hstr : buildArray (f + 3) name (TypeDecl.ofBuiltin cb q sp) .unsized =
      buildString (f + 2) name (TypeDecl.ofBuiltin cb q sp) .unsized unit := by
    rcases hcb with ⟨rfl, rfl⟩ | ⟨rfl, rfl⟩ <;> simp only [buildArray, TypeDecl.asBuiltin?_ofBuiltin]
  -- the scan from `a`, one step after the declaration's, ends past the zeros
  let m₂ : Machine :=
    { m with cursor := a + chunks.flatten.length + unit, steps := m.steps + chunks.length + 2 }
  have hscan : ((unsizedChars (f + 1) unit).run c).run { m with steps := m.steps + 1, cursor := a } =
      .ok () m₂ := by
    rw [run_unsizedChars_scan hdata unit chunks _ (f + 1) (by omega) hchunks hread
      (by simp only at hsteps ⊢; omega)]
    congr 2
    simp only
    omega
  have hlim : ¬(0 < c.config.maxPatterns ∧ c.config.maxPatterns < m₂.patterns + 1) := by
    show ¬(0 < c.config.maxPatterns ∧ c.config.maxPatterns < m.patterns + 1)
    omega
  -- the node: the string's kind and name by its unit, in the declared or inherited order
  let N : Node := { Node.fresh name (if unit = 1 then "char" else "char16") a
    (chunks.flatten.length + unit) (if unit = 1 then .string else .string16) with
    endian := q.or m.endian }
  have hnode : ((buildArray (f + 3) name (TypeDecl.ofBuiltin cb q sp) .unsized).run c).run
      { m with steps := m.steps + 1, cursor := a } = .ok N ({ m₂ with patterns := m.patterns + 1 }) := by
    have hsize : m₂.cursor - a = chunks.flatten.length + unit := by
      show a + chunks.flatten.length + unit - a = _
      omega
    rw [hstr, run_buildString_unsized, run_bind, hscan, stringNode]
    simp only [run_bind, run_cursor, run_ite, run_newNode (m := m₂) _ _ _ _ _ hlim, run_pure, hsize]
    rcases hcb with ⟨rfl, rfl⟩ | ⟨rfl, rfl⟩ <;> cases q <;> rfl
  refine ⟨N, ?_, rfl, rfl, rfl, rfl⟩
  rw [buildMember]
  refine run_withNode_of_ok _ (run_withLine_of_ok _ ?_)
  simp only [place, run_bind, run_tick_within (show ¬(0 < c.config.maxSteps ∧
      c.config.maxSteps < m.steps + 1) by omega), run_evalExpr_lit, Literal.value, run_lift,
    Value.toUnsigned, ge_iff_le, Nat.not_le.mpr ha, if_false, run_atOffset (m := { m with steps := m.steps + 1 }) a hnode,
    run_emit_plain]
  rfl

end Declaration

/-! ### Strings read back -/

/-- **Strings read back what was written.** For every text `s` without `U+0000`, placed at an
offset `a` of data of fewer than `2 ^ 64` bytes (so `a` is a 64-bit offset, and the scan's
test for one more unit never overflows) and declared from any state where one more node is
allowed:

* if the data at `a` holds the UTF-16 units of `s` and a zero unit in the byte order `e` the
  string is read in (its own qualifier, else the inherited order, else the document default),
  then `char16 x[] @ a;` builds a `string16` node at `a` over the units and the zero unit, and
  reading it gives `s`;
* if the data at `a` holds the characters of `s` as bytes and a zero byte, then
  `char x[] @ a;` builds a `string` node at `a` over them, and reading it gives `s`;

provided the step limit is off or leaves room for the declaration and a step for each unit or
character read, the zero one included. The node goes into the innermost frame and the cursor
stays where it was. The fuel is the evaluator's depth bound, one for each unit the scan reads
and four for the calls around the scan.

**Proof sketch.** The scan reads the units that are not zero and stops after the zero unit
(`run_unsizedChars_scan`), the declaration makes one node over them
(`run_unsizedStringAt`), and reading the node cuts the units at the zero and decodes them
(`Node.readValue_string16_encode`, `Node.readValue_string_bytes`). -/
theorem stringNodes_read_back {c : Context} {m : Machine} (s : String) (hs : '\x00' ∉ s.toList)
    (name : String) (q : Option Endian) (hdata : c.data.size < 2 ^ 64) (a : Nat) (sp sp₁ sp₂ : Span)
    (hpat : c.config.maxPatterns = 0 ∨ m.patterns < c.config.maxPatterns) :
    (∀ e, (q.or m.endian).getD c.config.defaultEndian = e →
      Data.read c.data a (2 * ((Utf16.encode s.toList).length + 1)) =
        .ok (Utf16.bytes e (Utf16.encode s.toList ++ [0])) →
      (c.config.maxSteps = 0 ∨ m.steps + (Utf16.encode s.toList).length + 2 ≤ c.config.maxSteps) →
      ∀ fuel, (Utf16.encode s.toList).length + 4 ≤ fuel →
      ∃ N, ((buildMember fuel (.array name (TypeDecl.ofBuiltin .char16 q sp) .unsized
          (.atOffset (.lit (.int a) sp₁)) [] sp₂)).run c).run m =
        .ok () ({ m with
          scope := m.scope.pushMember N
          steps := m.steps + (Utf16.encode s.toList).length + 2
          patterns := m.patterns + 1 }) ∧
        N.kind = .string16 ∧ N.offset = a ∧ N.size = 2 * ((Utf16.encode s.toList).length + 1) ∧
        N.readValue c.data c.config.defaultEndian = .ok (.str s)) ∧
    (Data.read c.data a (s.toList.length + 1) = .ok (s.toList.map Char.toNat ++ [0]) →
      (c.config.maxSteps = 0 ∨ m.steps + s.toList.length + 2 ≤ c.config.maxSteps) →
      ∀ fuel, s.toList.length + 4 ≤ fuel →
      ∃ N, ((buildMember fuel (.array name (TypeDecl.ofBuiltin .char q sp) .unsized
          (.atOffset (.lit (.int a) sp₁)) [] sp₂)).run c).run m =
        .ok () ({ m with
          scope := m.scope.pushMember N
          steps := m.steps + s.toList.length + 2
          patterns := m.patterns + 1 }) ∧
        N.kind = .string ∧ N.offset = a ∧ N.size = s.toList.length + 1 ∧
        N.readValue c.data c.config.defaultEndian = .ok (.str s)) := by
  refine ⟨fun e he hread hsteps fuel hfuel => ?_, fun hread hsteps fuel hfuel => ?_⟩
  · -- the units' pairs of bytes are the chunks of the scan
    have hunits := Utf16.encode_lt s.toList
    have hnz := Utf16.encode_ne_zero hs
    have hchunks : ∀ ch ∈ (Utf16.encode s.toList).map (Utf16.unitBytes e),
        ch.length = 2 ∧ ∃ x ∈ ch, x ≠ 0 := by
      intro ch hch
      obtain ⟨u, hu, rfl⟩ := List.mem_map.mp hch
      exact Utf16.unitBytes_chunk e (hunits u hu) (hnz u hu)
    have hlen := Utf16.length_flatten_unitBytes e (Utf16.encode s.toList)
    rw [Utf16.bytes_append_zero, show 2 * ((Utf16.encode s.toList).length + 1) =
      ((Utf16.encode s.toList).map (Utf16.unitBytes e)).flatten.length + 2 by omega] at hread
    -- the string lies in the data, so it starts at a 64-bit offset
    have ha : a < 2 ^ 64 := by
      have := Data.le_of_read hread
      omega
    obtain ⟨N, hrun, hk, ho, hsize, hend⟩ := run_unsizedStringAt (.inr ⟨rfl, rfl⟩) name q hdata ha sp
      sp₁ sp₂ hchunks hread (by simpa using hsteps) hpat (by simpa using hfuel)
    have hsize' : N.size = 2 * ((Utf16.encode s.toList).length + 1) := by omega
    refine ⟨N, by simpa using hrun, hk, ho, hsize', ?_⟩
    refine Node.readValue_string16_encode hk hs ?_
    rw [ho, hsize', hend, he, Utf16.bytes_append_zero, show 2 * ((Utf16.encode s.toList).length + 1) =
      ((Utf16.encode s.toList).map (Utf16.unitBytes e)).flatten.length + 2 by omega]
    exact hread
  · -- the characters' bytes, one a chunk
    have hchunks : ∀ ch ∈ s.toList.map fun x => [x.toNat], ch.length = 1 ∧ ∃ x ∈ ch, x ≠ 0 := by
      intro ch hch
      obtain ⟨x, hx, rfl⟩ := List.mem_map.mp hch
      refine ⟨rfl, x.toNat, List.mem_singleton_self _, fun h0 => hs ?_⟩
      rwa [show x = '\x00' from Char.ext (UInt32.toNat_inj.mp (by simpa [Char.toNat_val] using h0))]
        at hx
    have hflat : (s.toList.map fun x => [x.toNat]).flatten = s.toList.map Char.toNat := by
      induction s.toList with
      | nil => rfl
      | cons x xs ih => simp [ih]
    rw [← hflat, show s.toList.length = (s.toList.map fun x => [x.toNat]).flatten.length by
      simp [hflat]] at hread
    have ha : a < 2 ^ 64 := by
      have := Data.le_of_read hread
      omega
    obtain ⟨N, hrun, hk, ho, hsize, -⟩ := run_unsizedStringAt (.inl ⟨rfl, rfl⟩) name q hdata ha sp
      sp₁ sp₂ hchunks hread (by simpa using hsteps) hpat (by simpa using hfuel)
    have hsize' : N.size = s.toList.length + 1 := by simpa [hflat] using hsize
    refine ⟨N, by simpa using hrun, hk, ho, hsize', ?_⟩
    refine Node.readValue_string_bytes hk hs ?_
    rw [ho, hsize', ← hflat]
    simpa [hflat] using hread

/-- The UTF-16 units of `Hé😀` in little endian and a zero unit: `H` and `é` are one unit each,
`😀` a surrogate pair. -/
def utf16Sample : ByteArray := ByteArray.mk #[0x48, 0, 0xE9, 0, 0x3D, 0xD8, 0x00, 0xDE, 0, 0]

/-- `char16 x[] @ 0;` over `utf16Sample`, at the top level of a run with the standard limits,
reads back `Hé😀`. -/
theorem stringNodes_read_back_surrogates :
    '\x00' ∉ "Hé😀".toList ∧ utf16Sample.size < 2 ^ 64 ∧
    ((Context.of ⟨[], []⟩ utf16Sample RunConfig.standard).config.maxPatterns = 0 ∨
      (Machine.initial []).patterns <
        (Context.of ⟨[], []⟩ utf16Sample RunConfig.standard).config.maxPatterns) ∧
    Data.read utf16Sample 0 (2 * ((Utf16.encode "Hé😀".toList).length + 1)) =
      .ok (Utf16.bytes .little (Utf16.encode "Hé😀".toList ++ [0])) ∧
    ∃ N, ((buildMember 10 (.array "x" (TypeDecl.ofBuiltin .char16 none ⟨0, 6, 1⟩) .unsized
        (.atOffset (.lit (.int 0) ⟨13, 14, 1⟩)) [] ⟨0, 15, 1⟩)).run
          (Context.of ⟨[], []⟩ utf16Sample RunConfig.standard)).run (Machine.initial []) =
      .ok () ({ Machine.initial [] with
        scope := (Machine.initial []).scope.pushMember N
        steps := (Machine.initial []).steps + (Utf16.encode "Hé😀".toList).length + 2
        patterns := (Machine.initial []).patterns + 1 }) ∧
      N.kind = .string16 ∧ N.offset = 0 ∧ N.size = 2 * ((Utf16.encode "Hé😀".toList).length + 1) ∧
      N.readValue utf16Sample RunConfig.standard.defaultEndian = .ok (.str "Hé😀") :=
  have hs : '\x00' ∉ "Hé😀".toList := by decide
  have hread : Data.read utf16Sample 0 (2 * ((Utf16.encode "Hé😀".toList).length + 1)) =
      .ok (Utf16.bytes .little (Utf16.encode "Hé😀".toList ++ [0])) := by decide +kernel
  ⟨hs, by decide, .inr (by decide), hread,
    (stringNodes_read_back "Hé😀" hs "x" none (by decide) 0 ⟨0, 6, 1⟩ ⟨13, 14, 1⟩ ⟨0, 15, 1⟩
      (.inr (by decide))).1 .little rfl hread (.inr (by decide)) 10 (by decide +kernel)⟩

/-- `char16 x[] @ 0;` -/
def tokensChar16AtZero : Array Token := #[
  tokenAt (.builtin .char16) 0 6, tokenAt (.ident "x") 7 8, tokenAt (.symbol "[") 8 9,
  tokenAt (.symbol "]") 9 10, tokenAt (.symbol "@") 11 12, tokenAt (.int 0) 13 14,
  tokenAt (.symbol ";") 14 15, tokenAt .eof 15 15]

/-- With the array length limit off and a step limit of one, `char16 x[] @ 0;` over the units of
`A` and a zero unit is refused: the declaration takes the one step, and the scan's first unit
exceeds the limit. -/
theorem char16String_stepLimit_refused :
    ∃ p, parseTokens tokensChar16AtZero = .ok p ∧
      runProgram p (ByteArray.mk #[0x41, 0, 0, 0]) ⟨1, 256, 0, 262144, .little⟩ [] =
        .error ⟨.stepLimit 1, some 1, some "x"⟩ :=
  ⟨_, Except.eq_ok_get (by decide +kernel),
    Except.eq_error_of_map (f := fun _ => ()) (by decide +kernel)⟩

end ByteLayout

import Mathlib
import ByteLayout.Proofs.Syntax.Lexer
import ByteLayout.Proofs.Layout.Decode
import ByteLayout.Proofs.Syntax.Printer

set_option autoImplicit false

/-!
# Reading spelled tokens back

The lexer reads the spelling of a token (`Token.Kind.spelling`) back as that token. A source
made of spellings, each followed by a blank, and a final `;` is read into exactly those
tokens, then `;` and the end (`tokenize_spelled`).

The proof follows the lexer's scanners over the bytes of the source. A word scan stops at
the blank, so it reads exactly the word; a number has no point, exponent or suffix after
it; a string or a character reads each escape back as the character escaped and decodes the
UTF-8 bytes of every other character (`Lexer.charAt_utf8`); and an operator is the longest
match, which the blank after it ends.

## Main definitions

* `Token.Kind.Spellable` — the tokens whose spelling is read back: all but floats and the
  end.
* `Lexer.BytesAt` — the bytes a source holds from an offset on.
* `Lexer.ReadsAt` — the lexer finds a token at an offset and reads it up to another.
* `Lexer.spelledText` — tokens as the printer writes them, then `;`.

## Main results

* `Lexer.charAt_utf8` — the lexer decodes the UTF-8 bytes of every character.
* `Lexer.readsAt_spelling` — a spelling followed by a blank is read as its token.
* `tokenize_spelled` — a source of spellings is read back as its tokens.
-/

namespace ByteLayout

/-- The tokens whose spelling the lexer reads back as themselves: integers below `2 ^ 128`,
strings, characters, booleans, identifiers, builtin type names, keywords and operators. -/
def Token.Kind.Spellable : Token.Kind → Prop
  | .int v => v < 2 ^ 128
  | .float _ => False
  | .str _ => True
  | .char _ => True
  | .bool _ => True
  | .ident n => isIdentifier n = true
  | .builtin _ => True
  | .keyword w => w ∈ Token.keywords
  | .symbol s => s ∈ Token.symbols
  | .eof => False

namespace Lexer

variable {src : ByteArray}

/-! ### Bytes of the source -/

/-- The UTF-8 bytes of characters. -/
def utf8 (cs : List Char) : List UInt8 := cs.flatMap String.utf8EncodeChar

/-- The bytes of ASCII characters, one each. -/
def ascii (cs : List Char) : List UInt8 := cs.map fun c => c.toNat.toUInt8

@[simp] theorem utf8_append (cs ds : List Char) : utf8 (cs ++ ds) = utf8 cs ++ utf8 ds := by
  simp [utf8]

@[simp] theorem ascii_append (cs ds : List Char) : ascii (cs ++ ds) = ascii cs ++ ascii ds := by
  simp [ascii]

@[simp] theorem length_ascii (cs : List Char) : (ascii cs).length = cs.length := by
  simp [ascii]

theorem utf8_eq_ascii {cs : List Char} (h : ∀ c ∈ cs, c.toNat < 128) : utf8 cs = ascii cs := by
  induction cs with
  | nil => rfl
  | cons c cs ih =>
    have hc : c.utf8Size = 1 := by
      rw [Char.utf8Size_eq_one_iff, UInt32.le_iff_toNat_le]
      exact Nat.le_of_lt_succ (h c (by simp))
    simp only [utf8, ascii, List.flatMap_cons, List.map_cons] at ih ⊢
    rw [String.utf8EncodeChar_eq_singleton hc, ih fun d hd => h d (by simp [hd])]
    rfl

theorem toUTF8_toList (s : String) : s.toUTF8.data.toList = utf8 s.toList := by
  rw [String.toUTF8_eq_toByteArray]
  conv_lhs => rw [← String.ofList_toList (s := s)]
  rw [String.toByteArray_ofList]
  simp [List.utf8Encode, utf8]

theorem getElem?_eq_data (src : ByteArray) (i : Nat) : src[i]? = src.data.toList[i]? := by
  by_cases h : i < src.size
  · rw [getElem?_pos src i h, Array.getElem?_toList, Array.getElem?_eq_getElem (by simpa using h)]
    rfl
  · rw [getElem?_neg src i h, Array.getElem?_toList, Array.getElem?_eq_none (by simpa using h)]

/-- The source holds the bytes `bs` from offset `p` on. -/
def BytesAt (src : ByteArray) (p : Nat) (bs : List UInt8) : Prop :=
  ∃ rest, src.data.toList.drop p = bs ++ rest

theorem BytesAt.left {p : Nat} {bs cs : List UInt8} (h : BytesAt src p (bs ++ cs)) :
    BytesAt src p bs := by
  obtain ⟨rest, h⟩ := h
  exact ⟨cs ++ rest, by rw [h, List.append_assoc]⟩

theorem BytesAt.right {p : Nat} {bs cs : List UInt8} (h : BytesAt src p (bs ++ cs)) :
    BytesAt src (p + bs.length) cs := by
  obtain ⟨rest, h⟩ := h
  refine ⟨rest, ?_⟩
  rw [← List.drop_drop, h, List.append_assoc, List.drop_left]

theorem BytesAt.getElem? {p : Nat} {bs : List UInt8} (h : BytesAt src p bs) {i : Nat}
    (hi : i < bs.length) : src[p + i]? = some bs[i] := by
  obtain ⟨rest, h⟩ := h
  have := congrArg (·[i]?) h
  simp only [List.getElem?_drop, List.getElem?_append_left hi, List.getElem?_eq_getElem hi] at this
  rw [getElem?_eq_data, this]

theorem BytesAt.byteAt {p : Nat} {bs : List UInt8} (h : BytesAt src p bs) {i : Nat}
    (hi : i < bs.length) : byteAt? src (p + i) = some bs[i] :=
  h.getElem? hi

theorem BytesAt.head {p : Nat} {b : UInt8} {bs : List UInt8} (h : BytesAt src p (b :: bs)) :
    byteAt? src p = some b :=
  h.byteAt (i := 0) (by simp)

theorem BytesAt.lt_size {p : Nat} {b : UInt8} {bs : List UInt8} (h : BytesAt src p (b :: bs)) :
    p < src.size :=
  (getElem?_eq_some_iff.1 h.head).1

theorem BytesAt.getElem {p : Nat} {b : UInt8} {bs : List UInt8} (h : BytesAt src p (b :: bs))
    (hp : p < src.size) : src[p] = b :=
  (getElem?_eq_some_iff.1 h.head).2

theorem BytesAt.tail {p : Nat} {b : UInt8} {bs : List UInt8} (h : BytesAt src p (b :: bs)) :
    BytesAt src (p + 1) bs :=
  BytesAt.right (show BytesAt src p ([b] ++ bs) from h)

theorem BytesAt.extract {p : Nat} {bs cs : List UInt8} (h : BytesAt src p (bs ++ cs)) :
    (src.extract p (p + bs.length)).toList = bs := by
  obtain ⟨rest, h⟩ := h
  rw [Data.toList_eq, ByteArray.data_extract, Array.toList_extract, List.extract_eq_take_drop, h,
    Nat.add_sub_cancel_left, List.append_assoc, List.take_left]

/-! ### Characters -/

theorem latin1_ascii {c : Char} (hc : c.toNat < 128) : latin1 c.toNat.toUInt8 = c := by
  have h : (c.toNat.toUInt8).toNat = c.toNat := by
    simp only [Nat.toUInt8_eq, UInt8.toNat_ofNat']
    omega
  rw [latin1, h, Char.ofNat_toNat]

/-- Reading ASCII characters back: the byte at `p + i` reads as the `i`-th character. -/
theorem BytesAt.latin1 {p : Nat} {cs : List Char} (hcs : ∀ c ∈ cs, c.toNat < 128)
    (h : BytesAt src p (ascii cs)) {i : Nat} (hi : i < cs.length) :
    ∃ b, byteAt? src (p + i) = some b ∧ Lexer.latin1 b = cs[i] := by
  refine ⟨_, h.byteAt (by simpa using hi), ?_⟩
  simp only [ascii, List.getElem_map]
  exact latin1_ascii (hcs _ (List.getElem_mem hi))

/-- The first UTF-8 byte of a character is ASCII only for an ASCII character, which it is. -/
theorem utf8EncodeChar_head (c : Char) :
    ∃ b bs, String.utf8EncodeChar c = b :: bs ∧ (b.toNat < 128 → b.toNat = c.toNat) := by
  have ht : c.val.toNat = c.toNat := rfl
  by_cases h1 : c.toNat ≤ 127
  · refine ⟨UInt8.ofNat c.toNat, [], by simp [String.utf8EncodeChar, ht, h1], fun _ => ?_⟩
    simp only [UInt8.toNat_ofNat']
    omega
  · unfold String.utf8EncodeChar
    simp only [ht, h1, if_false]
    split_ifs
    all_goals
      refine ⟨_, _, rfl, fun hb => ?_⟩
      simp only [UInt8.toNat_ofNat'] at hb
      omega

/-- The lexer decodes the UTF-8 bytes of every character, taking as many bytes as the
encoding has. -/
theorem charAt_utf8 {p : Nat} {c : Char} (h : BytesAt src p (String.utf8EncodeChar c)) :
    (charAt src p).1 = c ∧ (charAt src p).2.1 = (String.utf8EncodeChar c).length := by
  have hv : c.toNat.isValidChar := c.valid
  have hc : Char.ofNat c.toNat = c := Char.ofNat_toNat c
  have hlt : c.toNat < 0x110000 := by simp only [Nat.isValidChar] at hv; omega
  have ht : c.val.toNat = c.toNat := rfl
  -- the number of the `i`-th byte of the encoding
  have hb : ∀ {i} (hi : i < (String.utf8EncodeChar c).length),
      (src[p + i]?.getD 0).toNat = ((String.utf8EncodeChar c)[i]).toNat := fun hi => by
    rw [h.getElem? hi]; rfl
  unfold charAt
  -- one case for each length of the encoding
  rcases Nat.lt_or_ge c.toNat 128 with h1 | h1
  · have henc : String.utf8EncodeChar c = [UInt8.ofNat c.toNat] := by
      simp [String.utf8EncodeChar, ht]; omega
    have b0 : (src[p + 0]?.getD 0).toNat = c.toNat := by
      rw [hb (by simp [henc])]; simp [henc]; omega
    simp only [b0, h1, if_true, hc, henc]
    exact ⟨trivial, rfl⟩
  rcases Nat.lt_or_ge c.toNat 2048 with h2 | h2
  · have henc : String.utf8EncodeChar c =
        [UInt8.ofNat (c.toNat / 64 % 32 + 192), UInt8.ofNat (c.toNat % 64 + 128)] := by
      simp [String.utf8EncodeChar, ht, show ¬ c.toNat ≤ 127 by omega]; omega
    have b0 : (src[p + 0]?.getD 0).toNat = c.toNat / 64 + 192 := by
      rw [hb (by simp [henc])]; simp [henc]; omega
    have b1 : (src[p + 1]?.getD 0).toNat = c.toNat % 64 + 128 := by
      rw [hb (by simp [henc])]; simp [henc]; omega
    have hcode : (c.toNat / 64 + 192) % 32 * 64 + (c.toNat % 64 + 128) % 64 = c.toNat := by omega
    simp only [b0, b1, hcode, if_neg (show ¬ c.toNat / 64 + 192 < 128 by omega),
      if_pos (show c.toNat / 64 + 192 < 224 by omega), if_pos hv, hc, henc]
    exact ⟨trivial, rfl⟩
  rcases Nat.lt_or_ge c.toNat 65536 with h3 | h3
  · have henc : String.utf8EncodeChar c = [UInt8.ofNat (c.toNat / 4096 % 16 + 224),
        UInt8.ofNat (c.toNat / 64 % 64 + 128), UInt8.ofNat (c.toNat % 64 + 128)] := by
      simp [String.utf8EncodeChar, ht, show ¬ c.toNat ≤ 127 by omega,
        show ¬ c.toNat ≤ 2047 by omega]; omega
    have b0 : (src[p + 0]?.getD 0).toNat = c.toNat / 4096 + 224 := by
      rw [hb (by simp [henc])]; simp [henc]; omega
    have b1 : (src[p + 1]?.getD 0).toNat = c.toNat / 64 % 64 + 128 := by
      rw [hb (by simp [henc])]; simp [henc]; omega
    have b2 : (src[p + 2]?.getD 0).toNat = c.toNat % 64 + 128 := by
      rw [hb (by simp [henc])]; simp [henc]; omega
    have hcode : ((c.toNat / 4096 + 224) % 16 * 64 + (c.toNat / 64 % 64 + 128) % 64) * 64 +
        (c.toNat % 64 + 128) % 64 = c.toNat := by omega
    simp only [b0, b1, b2, hcode, if_neg (show ¬ c.toNat / 4096 + 224 < 128 by omega),
      if_neg (show ¬ c.toNat / 4096 + 224 < 224 by omega),
      if_pos (show c.toNat / 4096 + 224 < 240 by omega), if_pos hv, hc, henc]
    exact ⟨trivial, rfl⟩
  · have henc : String.utf8EncodeChar c = [UInt8.ofNat (c.toNat / 262144 % 8 + 240),
        UInt8.ofNat (c.toNat / 4096 % 64 + 128), UInt8.ofNat (c.toNat / 64 % 64 + 128),
        UInt8.ofNat (c.toNat % 64 + 128)] := by
      simp [String.utf8EncodeChar, ht, show ¬ c.toNat ≤ 127 by omega,
        show ¬ c.toNat ≤ 2047 by omega, show ¬ c.toNat ≤ 65535 by omega]
    have b0 : (src[p + 0]?.getD 0).toNat = c.toNat / 262144 + 240 := by
      rw [hb (by simp [henc])]; simp [henc]; omega
    have b1 : (src[p + 1]?.getD 0).toNat = c.toNat / 4096 % 64 + 128 := by
      rw [hb (by simp [henc])]; simp [henc]; omega
    have b2 : (src[p + 2]?.getD 0).toNat = c.toNat / 64 % 64 + 128 := by
      rw [hb (by simp [henc])]; simp [henc]; omega
    have b3 : (src[p + 3]?.getD 0).toNat = c.toNat % 64 + 128 := by
      rw [hb (by simp [henc])]; simp [henc]; omega
    have hcode : (((c.toNat / 262144 + 240) % 8 * 64 + (c.toNat / 4096 % 64 + 128) % 64) * 64 +
        (c.toNat / 64 % 64 + 128) % 64) * 64 + (c.toNat % 64 + 128) % 64 = c.toNat := by omega
    simp only [b0, b1, b2, b3, hcode, if_neg (show ¬ c.toNat / 262144 + 240 < 128 by omega),
      if_neg (show ¬ c.toNat / 262144 + 240 < 224 by omega),
      if_neg (show ¬ c.toNat / 262144 + 240 < 240 by omega), if_pos hv, hc, henc]
    exact ⟨trivial, rfl⟩

theorem latin1_eq_iff {b : UInt8} {c : Char} : latin1 b = c ↔ b.toNat = c.toNat := by
  have hv : b.toNat.isValidChar := by
    have := b.toNat_lt; simp only [Nat.isValidChar]; omega
  constructor
  · rintro rfl; simp [latin1, Char.toNat_ofNat, hv]
  · intro h; rw [latin1, h, Char.ofNat_toNat]

theorem toNat_toUInt8 {c : Char} (hc : c.toNat < 128) : c.toNat.toUInt8.toNat = c.toNat := by
  simp only [Nat.toUInt8_eq, UInt8.toNat_ofNat']; omega

/-- A byte that is none of the characters asked for. -/
theorem byteIn_eq_false {p : Nat} {b : UInt8} {cs : List Char} (h : byteAt? src p = some b)
    (hb : latin1 b ∉ cs) : byteIn src p cs = false := by
  simp [byteIn, h, hb]

/-! ### Scanners -/

/-- A scan keeps the bytes it is given and stops at the first one it does not keep. -/
theorem scanWhile_run {keep : UInt8 → Bool} {p : Nat} {bs : List UInt8} {b : UInt8}
    (h : BytesAt src p (bs ++ [b])) (hbs : ∀ x ∈ bs, keep x = true) (hb : keep b = false) :
    (scanWhile src keep p).1 = p + bs.length := by
  induction bs generalizing p with
  | nil =>
    have hp := h.lt_size
    rw [scanWhile, dif_pos hp, if_neg (by rw [h.getElem hp]; simp [hb])]
    rfl
  | cons x bs ih =>
    have hp := h.lt_size
    rw [scanWhile, dif_pos hp, if_pos (by rw [h.getElem hp]; exact hbs x (by simp))]
    have hrest := ih h.tail fun y hy => hbs y (by simp [hy])
    simp only [hrest, List.length_cons]
    omega

/-- A digit scan keeps the digits it is given and stops at the blank after them. -/
theorem scanDigits_run {isDigit : UInt8 → Bool} {p : Nat} {bs : List UInt8}
    (h : BytesAt src p (bs ++ [32])) (hbs : ∀ x ∈ bs, isDigit x = true) (hb : isDigit 32 = false) :
    (scanDigits src isDigit p).1 = p + bs.length := by
  induction bs generalizing p with
  | nil =>
    have hp := h.lt_size
    rw [scanDigits, dif_pos hp]
    simp only [h.getElem hp, hb]
    rfl
  | cons x bs ih =>
    have hp := h.lt_size
    rw [scanDigits, dif_pos hp]
    simp only [h.getElem hp, hbs x (by simp), Bool.true_or, if_true]
    have hrest := ih h.tail fun y hy => hbs y (by simp [hy])
    simp only [hrest, List.length_cons]
    omega

/-! ### Words -/

/-- The characters that may continue a word. -/
theorem isWordByte_of_wordChar {d : Char} (hd : (d.isAlphanum || d == '_') = true) :
    d.toNat < 128 ∧ isWordByte d.toNat.toUInt8 = true := by
  have h1 : d.toNat = d.val.toNat := rfl
  have h2 : d.val = '_'.val ↔ d.val.toNat = 95 := by
    rw [← UInt32.toNat_inj]; rfl
  simp only [Char.isAlphanum, Char.isAlpha, Char.isUpper, Char.isLower, Char.isDigit,
    Bool.or_eq_true, Bool.and_eq_true, decide_eq_true_eq, beq_iff_eq, UInt32.le_iff_toNat_le,
    Char.ext_iff, h2, show 'A'.val.toNat = 65 from rfl, show 'Z'.val.toNat = 90 from rfl,
    show 'a'.val.toNat = 97 from rfl, show 'z'.val.toNat = 122 from rfl,
    show '0'.val.toNat = 48 from rfl, show '9'.val.toNat = 57 from rfl] at hd
  simp only [isWordByte, isLetter, isDecDigit, Bool.or_eq_true, Bool.and_eq_true,
    decide_eq_true_eq, UInt8.le_iff_toNat_le, Nat.toUInt8_eq, UInt8.toNat_ofNat', UInt8.ext_iff,
    UInt8.reduceToNat]
  omega

theorem isWord_chars {w : String} (hw : isWord w = true) :
    ∃ c cs, w.toList = c :: cs ∧ (c.isAlpha || c == '_') = true ∧
      ∀ d ∈ w.toList, (d.isAlphanum || d == '_') = true := by
  unfold isWord at hw
  split at hw
  · cases hw
  · next c cs hwl =>
    simp only [Bool.and_eq_true, List.all_eq_true] at hw
    refine ⟨c, cs, hwl, hw.1, fun d hd => ?_⟩
    rw [hwl, List.mem_cons] at hd
    rcases hd with rfl | hd
    · have := hw.1
      simp only [Char.isAlphanum, Bool.or_eq_true, beq_iff_eq] at this ⊢
      tauto
    · exact hw.2 d hd

theorem map_latin1_ascii {cs : List Char} (h : ∀ c ∈ cs, c.toNat < 128) :
    (ascii cs).map latin1 = cs := by
  simp only [ascii, List.map_map]
  exact List.map_congr_left (fun c hc => latin1_ascii (h c hc)) |>.trans (List.map_id _)

/-- A word followed by a blank is read as the kind of that word. -/
theorem word_run {p : Nat} {w : String} (hw : isWord w = true)
    (h : BytesAt src p (ascii (w.toList ++ [' ']))) :
    ∃ q : After p, word src p = .ok (Token.Kind.ofWord w, q) ∧ q.pos = p + w.length := by
  obtain ⟨c, cs, hwl, -, hall⟩ := isWord_chars hw
  have hasc : ∀ d ∈ w.toList, d.toNat < 128 := fun d hd => (isWordByte_of_wordChar (hall d hd)).1
  have hlen : w.length = cs.length + 1 := by rw [← String.length_toList, hwl]; rfl
  have hsplit : BytesAt src p (ascii w.toList ++ [32]) := by
    rwa [ascii_append, show ascii [' '] = [32] from rfl] at h
  -- the scan after the first byte stops at the blank
  have hscan : (scanWhile src isWordByte (p + 1)).1 = p + w.length := by
    have h' := hsplit
    rw [hwl, ascii, List.map_cons, List.cons_append] at h'
    have := @scanWhile_run src isWordByte (p + 1) (ascii cs) 32 h'.tail
      (fun x hx => by
        obtain ⟨d, hd, rfl⟩ := List.mem_map.1 hx
        exact (isWordByte_of_wordChar (hall d (by rw [hwl]; exact List.mem_cons_of_mem _ hd))).2)
      (by decide)
    rw [this, length_ascii]
    omega
  refine ⟨(After.next p).andThen (scanWhile src isWordByte), ?_, hscan⟩
  have htext : (src.extract p (p + w.length)).toList = ascii w.toList := by
    have := hsplit.extract
    rwa [length_ascii, String.length_toList] at this
  simp only [word, After.andThen, After.next, hscan, htext, map_latin1_ascii hasc,
    String.ofList_toList]

/-- The first character of a word is a letter or an underscore. -/
theorem wordStart_toNat {c : Char} (hc : (c.isAlpha || c == '_') = true) :
    65 ≤ c.toNat ∧ c.toNat ≤ 90 ∨ 97 ≤ c.toNat ∧ c.toNat ≤ 122 ∨ c.toNat = 95 := by
  have h1 : c.toNat = c.val.toNat := rfl
  have h2 : c = '_' ↔ c.val.toNat = 95 := by
    rw [Char.ext_iff, ← UInt32.toNat_inj]; rfl
  simp only [Char.isAlpha, Char.isUpper, Char.isLower, Bool.or_eq_true, Bool.and_eq_true,
    decide_eq_true_eq, beq_iff_eq, UInt32.le_iff_toNat_le, h2,
    show 'A'.val.toNat = 65 from rfl, show 'Z'.val.toNat = 90 from rfl,
    show 'a'.val.toNat = 97 from rfl, show 'z'.val.toNat = 122 from rfl] at hc
  omega

theorem keyword_isWord : ∀ w ∈ Token.keywords,
    isWord w = true ∧ Token.Kind.ofWord w = .keyword w := by
  decide

theorem builtin_isWord (t : Builtin) :
    isWord t.name = true ∧ Token.Kind.ofWord t.name = .builtin t := by
  rcases t with w | w | _ | _ | _ | _ | _ | _ | _ <;> try (rcases w with _ | _ | _ | _ | _ | _ | _ | _)
  all_goals decide

theorem bool_isWord (b : Bool) :
    isWord (toString b) = true ∧ Token.Kind.ofWord (toString b) = .bool b := by
  cases b <;> decide

/-- A word is ASCII. -/
theorem utf8_word {w : String} (hw : isWord w = true) : utf8 w.toList = ascii w.toList := by
  obtain ⟨-, -, -, -, hall⟩ := isWord_chars hw
  exact utf8_eq_ascii fun d hd => (isWordByte_of_wordChar (hall d hd)).1

/-! ### Numbers -/

theorem isDecDigit_iff {b : UInt8} : isDecDigit b = true ↔ 48 ≤ b.toNat ∧ b.toNat ≤ 57 := by
  simp [isDecDigit, UInt8.le_iff_toNat_le]

theorem decDigit_of_isDigit {c : Char} (hc : c.isDigit = true) :
    c.toNat < 128 ∧ isDecDigit c.toNat.toUInt8 = true ∧ digitValue c.toNat.toUInt8 = c.toNat - 48 := by
  have h1 : c.toNat = c.val.toNat := rfl
  simp only [Char.isDigit, Bool.and_eq_true, decide_eq_true_eq, UInt32.le_iff_toNat_le,
    show '0'.val.toNat = 48 from rfl, show '9'.val.toNat = 57 from rfl] at hc
  have hb : (c.toNat.toUInt8).toNat = c.toNat := by
    simp only [Nat.toUInt8_eq, UInt8.toNat_ofNat']; omega
  have hd : isDecDigit c.toNat.toUInt8 = true := by
    simp only [isDecDigit, Bool.and_eq_true, decide_eq_true_eq, UInt8.le_iff_toNat_le, hb,
      UInt8.reduceToNat]
    omega
  refine ⟨by omega, hd, ?_⟩
  simp only [digitValue, hd, if_true, hb]

theorem toDigits_ascii (v : Nat) : ∀ c ∈ Nat.toDigits 10 v,
    c.toNat < 128 ∧ isDecDigit c.toNat.toUInt8 = true := fun c hc =>
  have h := decDigit_of_isDigit (Nat.isDigit_of_mem_toDigits (by decide) (by decide) hc)
  ⟨h.1, h.2.1⟩

theorem digitsValue_append (radix : Nat) (ds es : List UInt8) :
    digitsValue radix (ds ++ es) = es.foldl (fun acc d => acc * radix + digitValue d)
      (digitsValue radix ds) := by
  simp [digitsValue, List.foldl_append]

/-- The decimal digits of a number read back as that number. -/
theorem digitsValue_toDigits (v : Nat) : digitsValue 10 (ascii (Nat.toDigits 10 v)) = v := by
  induction v using Nat.strongRecOn with
  | ind v ih =>
    rw [Nat.toDigits_eq_if (by decide)]
    split
    · next hv =>
      have hd := decDigit_of_isDigit (c := v.digitChar) (by rw [Nat.isDigit_digitChar]; simpa using hv)
      simp only [ascii, List.map_cons, List.map_nil, digitsValue, List.foldl_cons, List.foldl_nil,
        hd.2.2, Nat.toNat_digitChar_sub_48_of_lt_ten hv]
      omega
    · next hv =>
      have hm : v % 10 < 10 := Nat.mod_lt _ (by decide)
      have hd := decDigit_of_isDigit (c := (v % 10).digitChar) (by rw [Nat.isDigit_digitChar]; simpa using hm)
      rw [ascii_append, digitsValue_append, ih (v / 10) (by omega)]
      simp only [ascii, List.map_cons, List.map_nil, List.foldl_cons, List.foldl_nil, hd.2.2,
        Nat.toNat_digitChar_sub_48_of_lt_ten hm]
      omega

/-- The decimal scanner reads digits followed by a blank as an integer: no point, exponent
or suffix follows them. -/
theorem decimalNumber_run {p v : Nat} (hv : v < 2 ^ 128)
    (h : BytesAt src p (ascii (Nat.toDigits 10 v ++ [' ']))) :
    ∃ q : After p, decimalNumber src p = .ok (.int v, q) ∧
      q.pos = p + (Nat.toDigits 10 v).length := by
  obtain ⟨d, ds, hds⟩ : ∃ d ds, Nat.toDigits 10 v = d :: ds := by
    cases h' : Nat.toDigits 10 v with
    | nil => have := @Nat.length_toDigits_pos 10 v; simp [h'] at this
    | cons d ds => exact ⟨d, ds, rfl⟩
  have hdig := toDigits_ascii v
  rw [hds] at hdig h
  have hsplit : BytesAt src p (ascii (d :: ds) ++ [32]) := by
    rwa [ascii_append, show ascii [' '] = [32] from rfl] at h
  -- the digits after the first one, up to the blank
  have hwhole : ((After.next p).andThen (scanDigits src isDecDigit)).pos = p + (ds.length + 1) := by
    have h' := hsplit
    rw [ascii, List.map_cons, List.cons_append] at h'
    have := @scanDigits_run src isDecDigit _ _ h'.tail
      (fun x hx => by
        obtain ⟨c, hc, rfl⟩ := List.mem_map.1 hx
        exact (hdig c (List.mem_cons_of_mem _ hc)).2) (by decide)
    simp only [After.andThen, After.next, this, List.length_map]
    omega
  have hblank : byteAt? src (p + (ds.length + 1)) = some 32 := by
    have := hsplit.byteAt (i := ds.length + 1) (by simp)
    simpa using this
  have htext : cleanDigits src p (p + (ds.length + 1)) = ascii (d :: ds) := by
    have := hsplit.extract
    simp only [length_ascii, List.length_cons] at this
    rw [cleanDigits, this, List.filter_eq_self]
    intro x hx
    obtain ⟨c, hc, rfl⟩ := List.mem_map.1 hx
    have hd := (hdig c hc).2
    simp only [isDecDigit, Bool.and_eq_true, decide_eq_true_eq, UInt8.le_iff_toNat_le,
      UInt8.reduceToNat] at hd
    simp only [Bool.and_eq_true, bne_iff_ne, ne_eq, UInt8.ext_iff, UInt8.reduceToNat]
    omega
  have hnot : ∀ cs : List Char, ' ' ∉ cs → byteIn src (p + (ds.length + 1)) cs = false :=
    fun cs hcs => byteIn_eq_false hblank hcs
  refine ⟨(After.next p).andThen (scanDigits src isDecDigit), ?_, by rw [hwhole, hds, List.length_cons]⟩
  simp only [decimalNumber, hwhole, hnot ['.'] (by decide), hnot ['e', 'E'] (by decide),
    hnot ['F', 'f', 'D', 'd'] (by decide), hnot ['U', 'u'] (by decide), htext, Bool.false_and, Bool.or_false, Bool.and_false, Bool.false_eq_true, ↓reduceIte, ← hds,
    digitsValue_toDigits, hv]

/-- A decimal integer followed by a blank is read as that integer: the byte after its first
digit is a digit or the blank, so no radix prefix is seen. -/
theorem number_run {p v : Nat} (hv : v < 2 ^ 128)
    (h : BytesAt src p (ascii (Nat.toDigits 10 v ++ [' ']))) :
    ∃ q : After p, number src p = .ok (.int v, q) ∧
      q.pos = p + (Nat.toDigits 10 v).length := by
  obtain ⟨d, ds, hds⟩ : ∃ d ds, Nat.toDigits 10 v = d :: ds := by
    cases h' : Nat.toDigits 10 v with
    | nil => have := @Nat.length_toDigits_pos 10 v; simp [h'] at this
    | cons d ds => exact ⟨d, ds, rfl⟩
  have hnext : ∃ b, byteAt? src (p + 1) = some b ∧ (48 ≤ b.toNat ∧ b.toNat ≤ 57 ∨ b = 32) := by
    rw [hds] at h
    cases ds with
    | nil => exact ⟨32, h.tail.head, .inr rfl⟩
    | cons d' ds' =>
      refine ⟨_, h.tail.head, .inl ?_⟩
      have hd' := toDigits_ascii v d' (by simp [hds])
      exact isDecDigit_iff.1 hd'.2
  obtain ⟨b, hb, hbr⟩ := hnext
  have hno : ∀ cs : List Char, (∀ c ∈ cs, 57 < c.toNat) → byteIn src (p + 1) cs = false := by
    intro cs hcs
    refine byteIn_eq_false hb fun hm => ?_
    have hbc : b.toNat = (latin1 b).toNat := latin1_eq_iff.1 rfl
    have := hcs _ hm
    rcases hbr with hbr | rfl
    · omega
    · simp only [UInt8.reduceToNat] at hbc; omega
  obtain ⟨q, hq, hpos⟩ := decimalNumber_run hv h
  refine ⟨q, ?_, hpos⟩
  rw [number, hno ['x', 'X'] (by simp), hno ['o', 'O'] (by simp), hno ['b', 'B'] (by simp)]
  simp only [Bool.false_and, Bool.false_eq_true, if_false, ite_self, hq]

/-! ### Strings and characters -/

/-- The escapes of the quotes and the backslash stand for themselves. -/
theorem escape_quoted {p : Nat} {c : Char} (hc : c ∈ ['"', '\'', '\\'])
    (h : byteAt? src p = some c.toNat.toUInt8) : escape src p = .ok (c, After.next p) := by
  simp only [List.mem_cons, List.not_mem_nil, or_false] at hc
  rcases hc with rfl | rfl | rfl <;> simp only [escape, h] <;> rfl

theorem utf8EncodeChar_head_ne {c d : Char} (hd : d.toNat < 128) (hc : c ≠ d) :
    ∃ b bs, String.utf8EncodeChar c = b :: bs ∧ b ≠ d.toNat.toUInt8 := by
  obtain ⟨b, bs, henc, hb⟩ := utf8EncodeChar_head c
  refine ⟨b, bs, henc, fun hbd => hc ?_⟩
  have hbn : b.toNat = d.toNat := by
    rw [hbd]; simp only [Nat.toUInt8_eq, UInt8.toNat_ofNat']; omega
  exact Char.ext (UInt32.toNat_inj.1 ((hb (by omega)).symm.trans hbn))

theorem utf8_escapeIn_escaped {q c : Char} (hq : q.toNat < 128) (h : c = q ∨ c = '\\') :
    utf8 (Token.escapeIn q c) = [92, c.toNat.toUInt8] := by
  have hc : c.toNat < 128 := by
    rcases h with h | h
    · rwa [h]
    · rw [h]; decide
  rw [Token.escapeIn, if_pos h, utf8_eq_ascii (by simp [hc])]
  rfl

theorem utf8_escapeIn_plain {q c : Char} (h : ¬(c = q ∨ c = '\\')) :
    utf8 (Token.escapeIn q c) = String.utf8EncodeChar c := by
  simp [Token.escapeIn, h, utf8]

/-- The body of a string literal written by `Token.escapeIn '"'` is read back as the
characters written, up to the closing quote. -/
theorem stringBody_run (cs : List Char) : ∀ (acc : String) (p : Nat),
    BytesAt src p (utf8 (cs.flatMap (Token.escapeIn '"')) ++ [34]) →
    ∃ q : After p, stringBody src p acc = .ok (acc ++ String.ofList cs, q) ∧
      q.pos = p + (utf8 (cs.flatMap (Token.escapeIn '"'))).length + 1 := by
  induction cs with
  | nil =>
    intro acc p h
    have hp := h.lt_size
    refine ⟨After.next p, ?_, rfl⟩
    rw [stringBody, dif_pos hp, if_pos (h.getElem hp)]
    simp
  | cons c cs ih =>
    intro acc p h
    by_cases hc : c = '"' ∨ c = '\\'
    · rw [List.flatMap_cons, utf8_append, utf8_escapeIn_escaped (by decide) hc,
        List.append_assoc, List.cons_append, List.cons_append] at h
      have hesc : escape src (p + 1) = .ok (c, After.next (p + 1)) :=
        escape_quoted (by rcases hc with rfl | rfl <;> simp) h.tail.head
      have hp := h.lt_size
      obtain ⟨q, hq, hpos⟩ := ih (acc.push c) (p + 1 + 1) h.tail.tail
      refine ⟨q.weaken (by omega), ?_, ?_⟩
      · rw [stringBody, dif_pos hp, if_neg (by rw [h.getElem hp]; decide),
          if_pos (h.getElem hp)]
        simp only [hesc, After.next]
        rw [hq, String.push_eq_append, String.ofList_cons, String.append_assoc]
      · simp [After.weaken, hpos, utf8_escapeIn_escaped (by decide) hc]
        omega
    · obtain ⟨b, bs, henc, hbq⟩ := utf8EncodeChar_head_ne (d := '"') (by decide) (fun e => hc (.inl e))
      obtain ⟨b', bs', henc', hbs⟩ := utf8EncodeChar_head_ne (d := '\\') (by decide) (fun e => hc (.inr e))
      rw [henc] at henc'
      obtain ⟨rfl, rfl⟩ := List.cons.inj henc'
      rw [List.flatMap_cons, utf8_append, utf8_escapeIn_plain hc, List.append_assoc] at h
      have hchar := charAt_utf8 h.left
      have hp : p < src.size := (show BytesAt src p (b :: (bs ++ _)) by rwa [henc] at h).lt_size
      have hb : src[p] = b := (show BytesAt src p (b :: (bs ++ _)) by rwa [henc] at h).getElem hp
      -- the rest is read from where the decoded character ends
      obtain ⟨q, hq, hpos⟩ := ih (acc.push c) (p + (charAt src p).2.1) (by rw [hchar.2]; exact h.right)
      refine ⟨q.weaken (by have := (charAt src p).2.2; omega), ?_, ?_⟩
      · rw [stringBody, dif_pos hp, if_neg (by rw [hb]; exact hbq), if_neg (by rw [hb]; exact hbs)]
        simp only [hchar.1]
        rw [hq, String.push_eq_append, String.ofList_cons, String.append_assoc]
      · simp only [After.weaken, hpos, hchar.2, List.flatMap_cons, utf8_append, utf8_escapeIn_plain hc,
          List.length_append]
        omega

/-- A string literal written by `Token.Kind.spelling` is read back as its string. -/
theorem stringLiteral_run {p : Nat} {v : String}
    (h : BytesAt src p (34 :: (utf8 (v.toList.flatMap (Token.escapeIn '"')) ++ [34]))) :
    ∃ q : After p, stringLiteral src p = .ok (.str v, q) ∧
      q.pos = p + (utf8 (v.toList.flatMap (Token.escapeIn '"'))).length + 2 := by
  obtain ⟨q, hq, hpos⟩ := stringBody_run v.toList "" (p + 1) h.tail
  refine ⟨q.weaken (by omega), ?_, by simp only [After.weaken, hpos]; omega⟩
  rw [stringLiteral, hq]
  simp

/-- A character literal written by `Token.Kind.spelling` is read back as its character. -/
theorem charLiteral_run {p : Nat} {c : Char}
    (h : BytesAt src p (39 :: (utf8 (Token.escapeIn '\'' c) ++ [39]))) :
    ∃ q : After p, charLiteral src p = .ok (.char c, q) ∧
      q.pos = p + (utf8 (Token.escapeIn '\'' c)).length + 2 := by
  by_cases hc : c = '\'' ∨ c = '\\'
  · rw [utf8_escapeIn_escaped (by decide) hc] at h ⊢
    have hesc : escape src (p + 2) = .ok (c, After.next (p + 2)) :=
      escape_quoted (by rcases hc with rfl | rfl <;> simp) h.tail.tail.head
    have hclose : byteIn src (p + 2 + 1) ['\''] = true := by
      simp [byteIn, h.tail.tail.tail.head]
      rfl
    refine ⟨⟨p + 4, by omega⟩, ?_, rfl⟩
    simp only [charLiteral, h.tail.head, hesc, After.weaken, After.next, hclose, if_true]
    rfl
  · obtain ⟨b, bs, henc, hbq⟩ := utf8EncodeChar_head_ne (d := '\'') (by decide) (fun e => hc (.inl e))
    obtain ⟨b', bs', henc', hbs⟩ := utf8EncodeChar_head_ne (d := '\\') (by decide) (fun e => hc (.inr e))
    rw [henc] at henc'
    obtain ⟨rfl, rfl⟩ := List.cons.inj henc'
    rw [utf8_escapeIn_plain hc] at h ⊢
    have hchar := charAt_utf8 h.tail.left
    have hb : byteAt? src (p + 1) = some b := (show BytesAt src (p + 1) (b :: (bs ++ _)) by
      rw [← List.cons_append, ← henc]; exact h.tail).head
    have hclose : byteIn src (p + 1 + (String.utf8EncodeChar c).length) ['\''] = true := by
      simp only [byteIn]
      rw [h.tail.right.head]
      rfl
    refine ⟨⟨p + 1 + (String.utf8EncodeChar c).length + 1, by omega⟩, ?_, by simp; omega⟩
    simp only [charLiteral, hb]
    split
    · next h => exact absurd h (by simp)
    · next h => exact absurd (Option.some.inj h) hbq
    · next h => exact absurd (Option.some.inj h) hbs
    · simp only [hchar.1, hchar.2, hclose, if_true, After.skip]

/-! ### Symbols -/

/-- An operator followed by a blank is taken whole: the blank ends the longest match. -/
theorem symbolAt_run : ∀ s ∈ Token.symbols, ∀ p, BytesAt src p (ascii (s.toList ++ [' '])) →
    symbolAt src p = some (s, s.length - 1) := by
  simp only [Token.symbols, List.forall_mem_cons]
  and_intros
  all_goals
    intro p h
    simp [ascii] at h
  all_goals first
    | simp [symbolAt, byteIn, h.head, h.tail.head, h.tail.tail.head, latin1]
    | simp [symbolAt, byteIn, h.head, h.tail.head, latin1]
  all_goals decide

/-- The first bytes of an operator followed by a blank: the lexer finds it (no blank, no
comment opening) and sends it to `symbolAt`. -/
theorem symbol_start : ∀ s ∈ Token.symbols,
    2 ≤ (ascii (s.toList ++ [' '])).length ∧
    isBlank ((ascii (s.toList ++ [' '])).getD 0 0) = false ∧
    ((ascii (s.toList ++ [' '])).getD 0 0 = 47 →
      (ascii (s.toList ++ [' '])).getD 1 0 ≠ 47 ∧ (ascii (s.toList ++ [' '])).getD 1 0 ≠ 42) ∧
    isDecDigit ((ascii (s.toList ++ [' '])).getD 0 0) = false ∧
    (ascii (s.toList ++ [' '])).getD 0 0 ≠ 34 ∧ (ascii (s.toList ++ [' '])).getD 0 0 ≠ 39 ∧
    (isLetter ((ascii (s.toList ++ [' '])).getD 0 0) ||
      decide ((ascii (s.toList ++ [' '])).getD 0 0 = 95)) = false := by
  decide +kernel

theorem utf8_symbol : ∀ s ∈ Token.symbols, utf8 s.toList = ascii s.toList := by
  decide +kernel

/-! ### Where a token starts -/

/-- Where the lexer finds a token: a byte that is no blank and opens no comment. -/
theorem skipTrivia_at_token {p : Nat} {b : UInt8} (hb : byteAt? src p = some b)
    (hblank : isBlank b = false)
    (hslash : b = 47 → byteAt? src (p + 1) ≠ some 47 ∧ byteAt? src (p + 1) ≠ some 42) :
    skipTrivia src p = .ok ⟨p, Nat.le_refl p⟩ := by
  have hp : p < src.size := (getElem?_eq_some_iff.1 hb).1
  have hbp : src[p] = b := (getElem?_eq_some_iff.1 hb).2
  rw [skipTrivia, dif_pos hp, hbp, if_neg (by simp [hblank])]
  by_cases h47 : b = 47
  · rw [if_neg (fun h => (hslash h47).1 h.2), if_neg (fun h => (hslash h47).2 h.2)]
  · rw [if_neg (fun h => h47 h.1), if_neg (fun h => h47 h.1)]

/-- A blank is skipped. -/
theorem skipTrivia_blank {p q : Nat} (hb : byteAt? src p = some 32) (hpq : p + 1 ≤ q)
    (h : skipTrivia src (p + 1) = .ok ⟨q, hpq⟩) : skipTrivia src p = .ok ⟨q, by omega⟩ := by
  have hp : p < src.size := (getElem?_eq_some_iff.1 hb).1
  have hbp : src[p] = 32 := (getElem?_eq_some_iff.1 hb).2
  rw [skipTrivia, dif_pos hp, hbp, if_pos (by decide), h]

theorem skipTrivia_end {p : Nat} (hp : src.size ≤ p) :
    skipTrivia src p = .ok ⟨p, Nat.le_refl p⟩ := by
  rw [skipTrivia, dif_neg (by omega)]

/-- The first byte of a token that is an ASCII character other than a blank and `/`. -/
structure PlainStart (b : UInt8) : Prop where
  not_blank : isBlank b = false
  not_slash : b ≠ 47

theorem PlainStart.of_toNat {b : UInt8} (h : b.toNat ≠ 32 ∧ b.toNat ≠ 9 ∧ b.toNat ≠ 10 ∧
    b.toNat ≠ 12 ∧ b.toNat ≠ 13 ∧ b.toNat ≠ 47) : PlainStart b := by
  refine ⟨?_, fun e => h.2.2.2.2.2 (by rw [e]; rfl)⟩
  simp only [isBlank, Bool.or_eq_false_iff, decide_eq_false_iff_not]
  refine ⟨⟨⟨⟨?_, ?_⟩, ?_⟩, ?_⟩, ?_⟩ <;> intro e <;> rw [e] at h <;> simp at h

/-! ### Reading one token -/

/-- The lexer finds a token at `p` and reads `k` from there up to `p + n`. -/
def ReadsAt (src : ByteArray) (p : Nat) (k : Token.Kind) (n : Nat) : Prop :=
  skipTrivia src p = .ok ⟨p, Nat.le_refl p⟩ ∧
    ∃ q : After p, nextToken src p = .ok (k, q) ∧ q.pos = p + n

/-- A word followed by a blank is read as the kind of that word. -/
theorem readsAt_word {p : Nat} {w : String} (hw : isWord w = true) {rest : List UInt8}
    (h : BytesAt src p (ascii w.toList ++ 32 :: rest)) :
    ReadsAt src p (Token.Kind.ofWord w) w.length := by
  obtain ⟨c, cs, hwl, hc, -⟩ := isWord_chars hw
  have hrange := wordStart_toNat hc
  have hasc : c.toNat < 128 := by omega
  have hb : byteAt? src p = some c.toNat.toUInt8 := by
    rw [hwl] at h; exact h.head
  have hn := toNat_toUInt8 hasc
  have hstart : PlainStart c.toNat.toUInt8 := PlainStart.of_toNat (by omega)
  refine ⟨skipTrivia_at_token hb hstart.not_blank (fun e => absurd e hstart.not_slash), ?_⟩
  have hword := word_run hw (by
    rw [ascii_append, show ascii [' '] = [32] from rfl]
    exact (show BytesAt src p ((ascii w.toList ++ [32]) ++ rest) by simpa using h).left)
  have hdig : isDecDigit c.toNat.toUInt8 = false := by
    rw [← Bool.not_eq_true, isDecDigit_iff]; omega
  have hlet : (isLetter c.toNat.toUInt8 || decide (c.toNat.toUInt8 = 95)) = true := by
    simp only [isLetter, Bool.or_eq_true, Bool.and_eq_true, decide_eq_true_eq,
      UInt8.le_iff_toNat_le, ← UInt8.toNat_inj, hn, UInt8.reduceToNat]
    omega
  rw [nextToken, hb]
  simp only [hdig, hlet, Bool.false_eq_true, if_false, if_true]
  rw [if_neg (fun e => by rw [← UInt8.toNat_inj, hn] at e; simp at e; omega),
    if_neg (fun e => by rw [← UInt8.toNat_inj, hn] at e; simp at e; omega)]
  exact hword

/-- A word whose kind is `k`, followed by a blank, is read as `k`. -/
theorem readsAt_ofWord {p : Nat} {w : String} {k : Token.Kind} (hw : isWord w = true)
    (hk : Token.Kind.ofWord w = k) {rest : List UInt8}
    (h : BytesAt src p (utf8 w.toList ++ 32 :: rest)) : ReadsAt src p k (utf8 w.toList).length := by
  rw [utf8_word hw] at h ⊢
  rw [length_ascii, String.length_toList, ← hk]
  exact readsAt_word hw h

/-- A decimal integer followed by a blank is read as that integer. -/
theorem readsAt_int {p v : Nat} (hv : v < 2 ^ 128) {rest : List UInt8}
    (h : BytesAt src p (ascii (Nat.toDigits 10 v) ++ 32 :: rest)) :
    ReadsAt src p (.int v) (Nat.toDigits 10 v).length := by
  obtain ⟨d, ds, hds⟩ : ∃ d ds, Nat.toDigits 10 v = d :: ds := by
    cases h' : Nat.toDigits 10 v with
    | nil => have := @Nat.length_toDigits_pos 10 v; simp [h'] at this
    | cons d ds => exact ⟨d, ds, rfl⟩
  have hd := toDigits_ascii v d (by simp [hds])
  have hb : byteAt? src p = some d.toNat.toUInt8 := by
    rw [hds] at h; exact h.head
  have hn := toNat_toUInt8 hd.1
  have hr := isDecDigit_iff.1 hd.2
  have hstart : PlainStart d.toNat.toUInt8 := PlainStart.of_toNat (by omega)
  refine ⟨skipTrivia_at_token hb hstart.not_blank (fun e => absurd e hstart.not_slash), ?_⟩
  have hnum := number_run hv (by
    rw [ascii_append, show ascii [' '] = [32] from rfl]
    exact (show BytesAt src p ((ascii (Nat.toDigits 10 v) ++ [32]) ++ rest) by simpa using h).left)
  rw [nextToken, hb]
  simp only [hd.2, if_true]
  exact hnum

/-- An operator followed by a blank is read as that operator. -/
theorem readsAt_symbol {p : Nat} {s : String} (hs : s ∈ Token.symbols) {rest : List UInt8}
    (h : BytesAt src p (ascii s.toList ++ 32 :: rest)) :
    ReadsAt src p (.symbol s) s.length := by
  obtain ⟨hlen, hblank, hslash, hdig, h34, h39, hlet⟩ := symbol_start s hs
  have h' : BytesAt src p (ascii (s.toList ++ [' ']) ++ rest) := by
    rwa [ascii_append, show ascii [' '] = [32] from rfl, List.append_assoc]
  have hb0 : byteAt? src p = some ((ascii (s.toList ++ [' '])).getD 0 0) := by
    rw [List.getD_eq_getElem _ _ (by omega)]; exact h'.left.byteAt (i := 0) (by omega)
  have hb1 : byteAt? src (p + 1) = some ((ascii (s.toList ++ [' '])).getD 1 0) := by
    rw [List.getD_eq_getElem _ _ (by omega)]; exact h'.left.byteAt (i := 1) (by omega)
  refine ⟨skipTrivia_at_token hb0 hblank fun e => ?_, ?_⟩
  · rw [hb1]; exact ⟨fun e' => (hslash e).1 (Option.some.inj e'), fun e' => (hslash e).2 (Option.some.inj e')⟩
  have hsym := symbolAt_run s hs p h'.left
  have hpos : 0 < s.length := by
    have : 2 ≤ s.toList.length + 1 := by simpa using hlen
    simp only [String.length_toList] at this; omega
  refine ⟨⟨p + (s.length - 1) + 1, by omega⟩, ?_, by simp only; omega⟩
  rw [nextToken, hb0]
  simp only [hdig, Bool.false_eq_true, if_false, if_neg h34, if_neg h39, hlet, hsym]

/-- A string literal followed by a blank is read as its string. -/
theorem readsAt_str {p : Nat} {v : String} {rest : List UInt8}
    (h : BytesAt src p ((34 :: (utf8 (v.toList.flatMap (Token.escapeIn '"')) ++ [34])) ++
      32 :: rest)) :
    ReadsAt src p (.str v) ((utf8 (v.toList.flatMap (Token.escapeIn '"'))).length + 2) := by
  have hb : byteAt? src p = some 34 := h.head
  refine ⟨skipTrivia_at_token hb (by decide) (fun e => absurd e (by decide)), ?_⟩
  obtain ⟨q, hq, hpos⟩ := stringLiteral_run h.left
  refine ⟨q, ?_, by omega⟩
  rw [nextToken, hb]
  simp only [show isDecDigit 34 = false from rfl, Bool.false_eq_true, if_false, if_true, hq]

/-- A character literal followed by a blank is read as its character. -/
theorem readsAt_char {p : Nat} {c : Char} {rest : List UInt8}
    (h : BytesAt src p ((39 :: (utf8 (Token.escapeIn '\'' c) ++ [39])) ++ 32 :: rest)) :
    ReadsAt src p (.char c) ((utf8 (Token.escapeIn '\'' c)).length + 2) := by
  have hb : byteAt? src p = some 39 := h.head
  refine ⟨skipTrivia_at_token hb (by decide) (fun e => absurd e (by decide)), ?_⟩
  obtain ⟨q, hq, hpos⟩ := charLiteral_run h.left
  refine ⟨q, ?_, by omega⟩
  rw [nextToken, hb]
  simp only [show isDecDigit 39 = false from rfl, Bool.false_eq_true, if_false, if_true, hq]
  rfl

/-- The closing `;` is read at the end of the source. -/
theorem readsAt_semicolon {p : Nat} (h : BytesAt src p [59]) : ReadsAt src p (.symbol ";") 1 := by
  have hb : byteAt? src p = some 59 := h.head
  refine ⟨skipTrivia_at_token hb (by decide) (fun e => absurd e (by decide)), ⟨p + 0 + 1, by omega⟩, ?_, rfl⟩
  rw [nextToken, hb]
  simp only [symbolAt, hb, show isDecDigit 59 = false from rfl, show isLetter 59 = false from rfl]
  simp [latin1]

/-- The spelling of a token, followed by a blank, is read back as that token. -/
theorem readsAt_spelling {p : Nat} {k : Token.Kind} (hk : k.Spellable) {rest : List UInt8}
    (h : BytesAt src p (utf8 k.spelling.toList ++ 32 :: rest)) :
    ReadsAt src p k (utf8 k.spelling.toList).length := by
  cases k with
  | int v =>
    have hdig : ∀ c ∈ Nat.toDigits 10 v, c.toNat < 128 := fun c hc => (toDigits_ascii v c hc).1
    simp only [Token.Kind.spelling, Nat.toString_eq_repr, Nat.toList_repr, utf8_eq_ascii hdig,
      length_ascii] at h ⊢
    exact readsAt_int hk h
  | float v => exact hk.elim
  | str v =>
    have hspell : utf8 (Token.Kind.str v).spelling.toList =
        34 :: (utf8 (v.toList.flatMap (Token.escapeIn '"')) ++ [34]) := by
      simp [Token.Kind.spelling, utf8]
      rfl
    rw [hspell] at h ⊢
    simpa using readsAt_str h
  | char c =>
    have hspell : utf8 (Token.Kind.char c).spelling.toList =
        39 :: (utf8 (Token.escapeIn '\'' c) ++ [39]) := by
      simp [Token.Kind.spelling, utf8]
      rfl
    rw [hspell] at h ⊢
    simpa using readsAt_char h
  | bool b => exact readsAt_ofWord (bool_isWord b).1 (bool_isWord b).2 h
  | ident n =>
    simp only [Token.Kind.Spellable, isIdentifier, Bool.and_eq_true, beq_iff_eq] at hk
    exact readsAt_ofWord hk.1 hk.2 h
  | builtin t => exact readsAt_ofWord (builtin_isWord t).1 (builtin_isWord t).2 h
  | keyword w => exact readsAt_ofWord (keyword_isWord w hk).1 (keyword_isWord w hk).2 h
  | symbol s =>
    simp only [Token.Kind.spelling, utf8_symbol s hk, length_ascii, String.length_toList] at h ⊢
    exact readsAt_symbol hk h
  | eof => exact hk.elim

/-! ### Reading a source -/

/-- The characters of tokens as the printer writes them: each spelling followed by a blank,
then the closing `;`. -/
def spelledText (ks : List Token.Kind) : List Char :=
  ks.flatMap (fun k => k.spelling.toList ++ [' ']) ++ [';']

theorem utf8_spelledText_cons (k : Token.Kind) (ks : List Token.Kind) :
    utf8 (spelledText (k :: ks)) = utf8 k.spelling.toList ++ 32 :: utf8 (spelledText ks) := by
  simp only [spelledText, List.flatMap_cons, List.append_assoc, utf8_append]
  rfl

theorem skipTrivia_spelled {ks : List Token.Kind} (hks : ∀ k ∈ ks, k.Spellable) {p : Nat}
    (h : BytesAt src p (utf8 (spelledText ks))) : skipTrivia src p = .ok ⟨p, Nat.le_refl p⟩ := by
  cases ks with
  | nil => exact (readsAt_semicolon h).1
  | cons k ks =>
    rw [utf8_spelledText_cons] at h
    exact (readsAt_spelling (hks k List.mem_cons_self) h).1

/-- The token loop over spellings reads their tokens back, then `;` and the end, whatever
lines its counter reports. -/
theorem tokensFrom_spelled (ks : List Token.Kind) (hks : ∀ k ∈ ks, k.Spellable) :
    ∀ (p₀ p : Nat) (hp : p₀ ≤ p) (lines : LineCounter) (acc : Array Token),
      skipTrivia src p₀ = .ok ⟨p, hp⟩ →
      BytesAt src p (utf8 (spelledText ks)) → p + (utf8 (spelledText ks)).length = src.size →
      ∃ toks, tokensFrom src p₀ lines acc = .ok toks ∧
        toks.toList.map Token.kind = acc.toList.map Token.kind ++ ks ++ [.symbol ";", .eof] := by
  induction ks with
  | nil =>
    intro p₀ p hp lines acc hskip h hsize
    have h' : BytesAt src p [59] := h
    have hsize' : p + 1 = src.size := hsize
    obtain ⟨-, q, hq, hpos⟩ := readsAt_semicolon h'
    rcases hquery : lines.lineAt src p with ⟨line, lines'⟩
    rw [tokensFrom, hskip]
    simp only [hquery]
    rw [if_pos h'.lt_size, hq]
    simp only
    rw [tokensFrom, skipTrivia_end (by omega)]
    rcases hquery' : lines'.lineAt src q.pos with ⟨line', lines''⟩
    simp only [hquery']
    rw [if_neg (by omega)]
    exact ⟨_, rfl, by simp⟩
  | cons k ks ih =>
    intro p₀ p hp lines acc hskip h hsize
    rw [utf8_spelledText_cons] at h hsize
    obtain ⟨-, q, hq, hpos⟩ := readsAt_spelling (hks k List.mem_cons_self) h
    have hblank : byteAt? src q.pos = some 32 := by rw [hpos]; exact h.right.head
    have hrest : BytesAt src (q.pos + 1) (utf8 (spelledText ks)) := by
      rw [hpos]; exact h.right.tail
    have hskip' := skipTrivia_blank hblank (Nat.le_refl _)
      (skipTrivia_spelled (fun k' hk' => hks k' (List.mem_cons_of_mem _ hk')) hrest)
    rcases hquery : lines.lineAt src p with ⟨line, lines'⟩
    obtain ⟨toks, htoks, hkinds⟩ := ih (fun k' hk' => hks k' (List.mem_cons_of_mem _ hk'))
      q.pos (q.pos + 1) _ lines' (acc.push ⟨k, ⟨p, q.pos, line⟩⟩) hskip' hrest
      (by simp only [List.length_append, List.length_cons] at hsize; omega)
    refine ⟨toks, ?_, ?_⟩
    · rw [tokensFrom, hskip]
      simp only [hquery]
      have hlt : q.pos < src.size := (getElem?_eq_some_iff.1 hblank).1
      rw [if_pos (by have := q.lt; omega), hq]
      exact htoks
    · rw [hkinds]
      simp

end Lexer

/-- A source made of spellings, each followed by a blank, and a closing `;` is read back as
those tokens, then `;` and the end. -/
theorem tokenize_spelled (ks : List Token.Kind) (hks : ∀ k ∈ ks, k.Spellable) :
    ∃ toks, tokenize (String.join (ks.map fun k => k.spelling ++ " ") ++ ";") = .ok toks ∧
      toks.toList.map Token.kind = ks ++ [.symbol ";", .eof] := by
  have htext : (String.join (ks.map fun k => k.spelling ++ " ") ++ ";").toList =
      Lexer.spelledText ks := by
    rw [String.toList_append, String.toList_join, List.flatMap_map]
    simp [Lexer.spelledText]
  have hbytes : (String.join (ks.map fun k => k.spelling ++ " ") ++ ";").toUTF8.data.toList =
      Lexer.utf8 (Lexer.spelledText ks) := by
    rw [Lexer.toUTF8_toList, htext]
  have h : Lexer.BytesAt (String.join (ks.map fun k => k.spelling ++ " ") ++ ";").toUTF8 0
      (Lexer.utf8 (Lexer.spelledText ks)) := ⟨[], by rw [List.drop_zero, hbytes, List.append_nil]⟩
  have hsize : 0 + (Lexer.utf8 (Lexer.spelledText ks)).length =
      (String.join (ks.map fun k => k.spelling ++ " ") ++ ";").toUTF8.size := by
    rw [← hbytes, Array.length_toList, Nat.zero_add]
    rfl
  obtain ⟨toks, htoks, hkinds⟩ :=
    Lexer.tokensFrom_spelled ks hks 0 0 (Nat.le_refl 0) Lexer.LineCounter.start #[]
    (Lexer.skipTrivia_spelled hks h) h hsize
  exact ⟨toks, htoks, by simpa using hkinds⟩

end ByteLayout

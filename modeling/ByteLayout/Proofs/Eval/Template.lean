import Mathlib
import ByteLayout.Eval.Template

set_option autoImplicit false

/-!
# Format templates

A template is read from the left into parts (`Template.Reads`): `{{` and `}}` stand for
single braces, a `}` that no second `}` follows stands for itself, every other character for
itself, and any other `{` opens a placeholder that runs to the next `}`. Each placeholder takes
the next argument and shows it by its spec (`Template.Shows`): an empty spec shows the
argument's text, and `:[#][digits][kind]` shows the text (kind empty or `d`) or the unsigned
value in base 16, 2 or 8 (kinds `x`, `X`, `b`, `o`), with the kind's prefix under `#`, padded
to the width the digits give: with zeros between prefix and digits when the width starts with
`0`, with blanks before the prefix otherwise. The width must fit a machine word.

Rendering succeeds exactly when the template reads as parts and every placeholder shows its
argument, with enough arguments; its text is then the text of the parts
(`Template.render_eq_ok_iff`).

## Main definitions

* `Template.Reads` — the parts a template's characters fall into.
* `Template.Shows` — the placeholder grammar, and the text each placeholder shows.
* `Template.Fills` — the text of the parts, with the arguments taken left to right.

## Main results

* `Radix.digits_eq_toDigits` — the digits of the radix writer are those of `Nat.toDigits`.
* `Template.placeholder_eq_ok_iff` — a placeholder shows an argument as `Shows` says.
* `Template.render_eq_ok_iff` — rendering follows the template grammar.

## Design

The renderer is a character-level state machine whose state is the text of the open
placeholder. The proof reads it in the other direction: a part at a time, the open state
collecting up to the first `}` (`renderChars_collect`, `renderChars_closed`), so that a
strong induction on the length of the template follows the parts.
-/

namespace ByteLayout

namespace Radix

lemma digitChar_eq {d : Nat} (h : d < 16) (upper : Bool) :
    digitChar upper d = if upper then (Nat.digitChar d).toUpper else Nat.digitChar d := by
  interval_cases d <;> cases upper <;> rfl

/-- The radix writer writes the digits of `Nat.toDigits`, in upper case when asked. -/
lemma digits_eq_toDigits {b : Nat} (hb : 1 < b) (hb' : b ≤ 16) (upper : Bool) (n : Nat) :
    digits b upper n =
      if upper then (Nat.toDigits b n).map Char.toUpper else Nat.toDigits b n := by
  induction n using Nat.strong_induction_on with
  | _ n ih =>
    have hmod : n % b < 16 := by have := Nat.mod_lt n (show b > 0 by omega); omega
    rw [digits, Nat.toDigits_eq_if hb, dif_neg (by omega)]
    split
    · rw [digitChar_eq (by omega)]
      cases upper <;> rfl
    · rw [ih _ (Nat.div_lt_self (by omega) hb), digitChar_eq hmod]
      cases upper <;> simp
end Radix

namespace Template

/-! ### The placeholder grammar -/

/-- The `#` flag of a placeholder, as written. -/
def sharp (alt : Bool) : List Char := if alt then ['#'] else []

/-- The radix kinds of a placeholder: the letter, the base, whether its digits are upper
case, and the prefix that `#` asks for. -/
def radixKinds : List (Char × Nat × Bool × String) :=
  [('x', 16, false, "0x"), ('X', 16, true, "0x"), ('b', 2, false, "0b"), ('o', 8, false, "0o")]

/-- The digits of `n` in a base up to 16, lower case unless `upper`. -/
def digitText (base : Nat) (upper : Bool) (n : Nat) : String :=
  String.ofList (if upper then (Nat.toDigits base n).map Char.toUpper else Nat.toDigits base n)

/-- A text after a prefix, padded to the width the digits `ds` give: with zeros between the
prefix and the text when the digits start with `0`, else with blanks before the prefix. -/
def padded (ds : List Char) (pre text : String) : String :=
  let pad := Nat.ofDigitChars 10 ds 0 - (pre.length + text.length)
  if ds.head? = some '0' then pre ++ String.ofList (List.replicate pad '0') ++ text
  else String.ofList (List.replicate pad ' ') ++ pre ++ text

/-- What a placeholder with the text `spec` between its braces shows for an argument. -/
inductive Shows : List Char → Value → String → Prop
  /-- `{}` shows the argument's text. -/
  | plain (a : Value) : Shows [] a a.display
  /-- `{:[#][digits]}` and `{:[#][digits]d}` show the argument's text, padded. -/
  | text (alt : Bool) (ds k : List Char) (a : Value) (hk : k = [] ∨ k = ['d'])
      (hds : ∀ c ∈ ds, c.isDigit) (hw : Nat.ofDigitChars 10 ds 0 < 2 ^ 64) :
      Shows (':' :: (sharp alt ++ ds ++ k)) a (padded ds "" a.display)
  /-- A radix kind shows the argument's unsigned value in its base, after the kind's prefix
  when `#` is given, padded. -/
  | radix (alt : Bool) (ds : List Char) (letter : Char) (base : Nat) (upper : Bool)
      (pre : String) (a : Value) (n : Nat) (hk : (letter, base, upper, pre) ∈ radixKinds)
      (hds : ∀ c ∈ ds, c.isDigit) (hw : Nat.ofDigitChars 10 ds 0 < 2 ^ 64)
      (hn : a.toUnsigned = .ok n) :
      Shows (':' :: (sharp alt ++ ds ++ [letter])) a
        (padded ds (if alt then pre else "") (digitText base upper n))

/-! ### Reading a placeholder's spec -/

/-- The width a placeholder's digits give. -/
lemma digitsValue_eq (ds : List Char) : digitsValue ds = Nat.ofDigitChars 10 ds 0 := by
  simp only [digitsValue, Nat.ofDigitChars, Nat.mul_comm]
  rfl

/-- The longest run of a class starting a list, and what follows it, make up the list. -/
lemma takeWhile_append_drop {α : Type} (p : α → Bool) (l : List α) :
    l.takeWhile p ++ l.drop (l.takeWhile p).length = l := by
  nth_rewrite 1 [List.prefix_iff_eq_take.mp (List.takeWhile_prefix p)]
  exact List.take_append_drop _ _

/-- The names of the kinds. -/
lemma kind_ofString_iff (k : List Char) (kind : Kind) :
    Kind.ofString? (String.ofList k) = some kind ↔
      (k = [] ∨ k = ['d']) ∧ kind = .text ∨ k = ['x'] ∧ kind = .radix 16 false "0x" ∨
      k = ['X'] ∧ kind = .radix 16 true "0x" ∨ k = ['b'] ∧ kind = .radix 2 false "0b" ∨
      k = ['o'] ∧ kind = .radix 8 false "0o" := by
  unfold Kind.ofString?
  split
  rotate_right
  · rename_i h₁ h₂ h₃ h₄ h₅ h₆
    simp only [reduceCtorEq, false_iff]
    rintro (⟨rfl | rfl, -⟩ | ⟨rfl, -⟩ | ⟨rfl, -⟩ | ⟨rfl, -⟩ | ⟨rfl, -⟩)
    exacts [h₁ rfl, h₂ rfl, h₃ rfl, h₄ rfl, h₅ rfl, h₆ rfl]
  all_goals
    rename_i h
    obtain rfl : k = _ := by simpa using congrArg String.toList h
    simp [eq_comm]

/-- The names of the kinds, with the radix kinds as listed in `radixKinds`. -/
lemma kind_ofString_iff_radix (k : List Char) (kind : Kind) :
    Kind.ofString? (String.ofList k) = some kind ↔
      (k = [] ∨ k = ['d']) ∧ kind = .text ∨
      ∃ letter base upper pre, k = [letter] ∧ (letter, base, upper, pre) ∈ radixKinds ∧
        kind = .radix base upper pre := by
  rw [kind_ofString_iff]
  constructor
  · rintro (h | ⟨rfl, rfl⟩ | ⟨rfl, rfl⟩ | ⟨rfl, rfl⟩ | ⟨rfl, rfl⟩)
    · exact .inl h
    all_goals exact .inr ⟨_, _, _, _, rfl, by simp [radixKinds], rfl⟩
  · rintro (h | ⟨letter, base, upper, pre, rfl, hk, rfl⟩)
    · exact .inl h
    simp only [radixKinds, List.mem_cons, Prod.mk.injEq, List.not_mem_nil, or_false] at hk
    rcases hk with ⟨rfl, rfl, rfl, rfl⟩ | ⟨rfl, rfl, rfl, rfl⟩ | ⟨rfl, rfl, rfl, rfl⟩ |
      ⟨rfl, rfl, rfl, rfl⟩ <;> simp

lemma radix_base {letter : Char} {base : Nat} {upper : Bool} {pre : String}
    (h : (letter, base, upper, pre) ∈ radixKinds) : 1 < base ∧ base ≤ 16 := by
  simp only [radixKinds, List.mem_cons, Prod.mk.injEq, List.not_mem_nil, or_false] at h
  omega

/-- The end of a placeholder that names a kind starts with neither a digit nor `#`. -/
lemma head_of_kind {k : List Char} {kind : Kind}
    (h : Kind.ofString? (String.ofList k) = some kind) :
    ∀ c ∈ k.head?, c.isDigit = false ∧ c ≠ '#' := by
  rw [kind_ofString_iff] at h
  rcases h with ⟨rfl | rfl, -⟩ | ⟨rfl, -⟩ | ⟨rfl, -⟩ | ⟨rfl, -⟩ | ⟨rfl, -⟩ <;> simp

/-- A spec made of a flag, digits and a kind's name is read as such. -/
lemma parse?_of_parts (alt : Bool) {ds k : List Char} {kind : Kind}
    (hds : ∀ c ∈ ds, c.isDigit) (hw : Nat.ofDigitChars 10 ds 0 < 2 ^ 64)
    (hk : Kind.ofString? (String.ofList k) = some kind) :
    Spec.parse? (sharp alt ++ (ds ++ k)) =
      some ⟨alt, ds.head? == some '0', Nat.ofDigitChars 10 ds 0, kind⟩ := by
  have hhead := head_of_kind hk
  have htake : (ds ++ k).takeWhile Char.isDigit = ds := by
    rw [List.takeWhile_append_of_pos hds]
    rcases k with _ | ⟨c, k⟩
    · simp
    · simp [(hhead c rfl).1]
  -- the first character after the flag is a digit or starts the kind, so neither `#` nor,
  -- without digits, `0`
  have hfirst : ∀ c r, ds ++ k = c :: r → c ≠ '#' ∧ (ds = [] → c ≠ '0') := by
    intro c r h
    rcases ds with _ | ⟨d, ds⟩
    · rw [List.nil_append] at h
      obtain ⟨hd, hh⟩ := hhead c (by simp [h])
      exact ⟨hh, fun _ h0 => absurd hd (by rw [h0]; decide)⟩
    · simp only [List.cons_append, List.cons.injEq] at h
      have hd := hds d (by simp)
      rw [h.1] at hd
      exact ⟨fun h' => absurd hd (by rw [h']; decide), fun h' => absurd h' (by simp)⟩
  have hwidth : ¬ Nat.ofDigitChars 10 ds 0 > maxWidth := by
    rw [maxWidth]; omega
  cases alt
  · rcases hdk : ds ++ k with _ | ⟨c, r⟩
    · obtain ⟨rfl, rfl⟩ := List.append_eq_nil_iff.mp hdk
      simp_all [sharp, Spec.parse?, digitsValue, maxWidth]
    · have hc := hfirst c r hdk
      rw [hdk] at htake
      simp only [Spec.parse?, sharp, Bool.false_eq_true, ↓reduceIte, List.nil_append]
      simp [hc.1, htake, hwidth, digitsValue_eq]
      refine ⟨by rw [← hdk, List.drop_left, hk], ?_⟩
      rcases ds with _ | ⟨d, ds⟩
      · simpa using hc.2 rfl
      · simp only [List.cons_append, List.cons.injEq] at hdk
        simp [hdk.1]
  · simp [Spec.parse?, sharp, htake, hwidth, digitsValue_eq]
    exact ⟨hk, fun _ hk0 => absurd (hhead '0' hk0).1 (by decide)⟩

/-- A spec that is read is made of a flag, digits and a kind's name. -/
lemma parts_of_parse? {body : List Char} {sp : Spec} (h : Spec.parse? body = some sp) :
    ∃ alt ds k, body = sharp alt ++ ds ++ k ∧ (∀ c ∈ ds, c.isDigit) ∧
      Nat.ofDigitChars 10 ds 0 < 2 ^ 64 ∧ Kind.ofString? (String.ofList k) = some sp.kind := by
  -- the flag, then the longest run of digits, then the kind
  obtain ⟨alt, rest, rfl, hflag⟩ : ∃ alt rest, body = sharp alt ++ rest ∧
      Spec.parse? (sharp alt ++ rest) =
        if digitsValue (rest.takeWhile Char.isDigit) > maxWidth then none
        else (Kind.ofString? (String.ofList (rest.drop (rest.takeWhile Char.isDigit).length))).map
          fun kind =>
            ⟨alt, rest.head? == some '0', digitsValue (rest.takeWhile Char.isDigit), kind⟩ := by
    rcases body with _ | ⟨c, r⟩
    · exact ⟨false, [], rfl, rfl⟩
    · by_cases hc : c = '#'
      · subst hc
        exact ⟨true, r, rfl, rfl⟩
      · exact ⟨false, c :: r, rfl, by simp [Spec.parse?, sharp, hc]⟩
  rw [hflag] at h
  split at h
  · cases h
  obtain ⟨kind, hk, rfl⟩ := Option.map_eq_some_iff.mp h
  refine ⟨alt, _, _, by rw [List.append_assoc, takeWhile_append_drop], fun c hc => ?_, ?_, hk⟩
  · exact List.mem_takeWhile_imp hc
  · rw [digitsValue_eq, maxWidth] at *; omega

/-! ### Placeholders -/

section Placeholder

variable {alt : Bool} {ds : List Char} {a : Value}
  (hds : ∀ c ∈ ds, c.isDigit) (hw : Nat.ofDigitChars 10 ds 0 < 2 ^ 64)

include hds hw

lemma placeholder_text {k : List Char} (hk : k = [] ∨ k = ['d']) :
    placeholder (String.ofList (':' :: (sharp alt ++ ds ++ k))) a =
      .ok (padded ds "" a.display) := by
  have hp := parse?_of_parts alt hds hw
    ((kind_ofString_iff_radix k .text).mpr (.inl ⟨hk, rfl⟩))
  simp [placeholder, hp, padded]
  split <;> rfl

lemma placeholder_radix {letter : Char} {base : Nat} {upper : Bool} {pre : String} {n : Nat}
    (hk : (letter, base, upper, pre) ∈ radixKinds) (hn : a.toUnsigned = .ok n) :
    placeholder (String.ofList (':' :: (sharp alt ++ ds ++ [letter]))) a =
      .ok (padded ds (if alt then pre else "") (digitText base upper n)) := by
  have hp := parse?_of_parts alt hds hw
    ((kind_ofString_iff_radix [letter] _).mpr (.inr ⟨letter, base, upper, pre, rfl, hk, rfl⟩))
  obtain ⟨hb, hb'⟩ := radix_base hk
  simp [placeholder, hp, padded, hn, Radix.digits_eq_toDigits hb hb', digitText]
  split <;> rfl

lemma placeholder_radix_error {letter : Char} {base : Nat} {upper : Bool} {pre : String}
    {e : EvalFault} (hk : (letter, base, upper, pre) ∈ radixKinds) (hn : a.toUnsigned = .error e) :
    placeholder (String.ofList (':' :: (sharp alt ++ ds ++ [letter]))) a = .error e := by
  have hp := parse?_of_parts alt hds hw
    ((kind_ofString_iff_radix [letter] _).mpr (.inr ⟨letter, base, upper, pre, rfl, hk, rfl⟩))
  simp [placeholder, hp, hn]
  rfl

end Placeholder

theorem placeholder_eq_ok_iff (spec : List Char) (a : Value) (piece : String) :
    placeholder (String.ofList spec) a = .ok piece ↔ Shows spec a piece := by
  constructor
  · intro h
    rcases spec with _ | ⟨c, body⟩
    · obtain rfl : a.display = piece := by simpa [placeholder] using h
      exact .plain a
    by_cases hc : c = ':'
    swap
    · simp [placeholder, hc] at h
    subst hc
    rcases hp : Spec.parse? body with _ | sp
    · simp [placeholder, hp] at h
    obtain ⟨alt, ds, k, rfl, hds, hw, hk⟩ := parts_of_parse? hp
    rcases (kind_ofString_iff_radix k sp.kind).mp hk with
      ⟨hk', -⟩ | ⟨letter, base, upper, pre, rfl, hmem, -⟩
    · rw [placeholder_text hds hw hk'] at h
      cases h
      exact .text alt ds k a hk' hds hw
    · rcases hn : a.toUnsigned with e | n
      · rw [placeholder_radix_error hds hw hmem hn] at h
        cases h
      · rw [placeholder_radix hds hw hmem hn] at h
        cases h
        exact .radix alt ds letter base upper pre a n hmem hds hw hn
  · intro h
    cases h with
    | plain => rfl
    | text alt ds k a hk hds hw => exact placeholder_text hds hw hk
    | radix alt ds letter base upper pre a n hk hds hw hn => exact placeholder_radix hds hw hk hn

/-! ### Templates -/

/-- A part of a template: a character shown as itself, or a placeholder with the text
between its braces. -/
inductive Part where
  | char (c : Char)
  | hole (spec : List Char)

/-- How the characters of a template fall into parts, from the left: `{{` and `}}` stand for
single braces, a `}` that no second `}` follows stands for itself, and any other `{` opens a
placeholder that runs to the next `}`. -/
inductive Reads : List Char → List Part → Prop
  | nil : Reads [] []
  | plain {c : Char} {rest : List Char} {ps : List Part} (h₁ : c ≠ '\x7b') (h₂ : c ≠ '\x7d') :
      Reads rest ps → Reads (c :: rest) (.char c :: ps)
  | openBrace {rest : List Char} {ps : List Part} :
      Reads rest ps → Reads ('\x7b' :: '\x7b' :: rest) (.char '\x7b' :: ps)
  | closeBrace {rest : List Char} {ps : List Part} :
      Reads rest ps → Reads ('\x7d' :: '\x7d' :: rest) (.char '\x7d' :: ps)
  | loneClose {rest : List Char} {ps : List Part} (h : rest.head? ≠ some '\x7d') :
      Reads rest ps → Reads ('\x7d' :: rest) (.char '\x7d' :: ps)
  | hole {spec rest : List Char} {ps : List Part} (h₁ : spec.head? ≠ some '\x7b')
      (h₂ : '\x7d' ∉ spec) :
      Reads rest ps → Reads ('\x7b' :: (spec ++ '\x7d' :: rest)) (.hole spec :: ps)

/-- The text of a template's parts, each placeholder filled with the next argument; the
arguments left over are ignored. -/
inductive Fills : List Part → List Value → String → Prop
  | nil (args : List Value) : Fills [] args ""
  | char {c : Char} {ps : List Part} {args : List Value} {o : String} :
      Fills ps args o → Fills (.char c :: ps) args (String.singleton c ++ o)
  | hole {spec : List Char} {a : Value} {ps : List Part} {args : List Value} {piece o : String} :
      Shows spec a piece → Fills ps args o → Fills (.hole spec :: ps) (a :: args) (piece ++ o)

section Render

variable {args : List Value} {out : String}

lemma renderChars_plain {c : Char} {rest : List Char} (h₁ : c ≠ '\x7b') (h₂ : c ≠ '\x7d') :
    renderChars (c :: rest) none args out = renderChars rest none args (out.push c) := by
  rcases rest with _ | ⟨d, rest⟩ <;> simp [renderChars, h₁, h₂]

lemma renderChars_lone {rest : List Char} (h : rest.head? ≠ some '\x7d') :
    renderChars ('\x7d' :: rest) none args out = renderChars rest none args (out.push '\x7d') := by
  rcases rest with _ | ⟨c, rest⟩
  · rfl
  · simp only [List.head?_cons, ne_eq, Option.some.injEq] at h
    simp [renderChars, h]

lemma renderChars_open {rest : List Char} (h : rest.head? ≠ some '\x7b') :
    renderChars ('\x7b' :: rest) none args out = renderChars rest (some []) args out := by
  rcases rest with _ | ⟨c, rest⟩
  · rfl
  · simp only [List.head?_cons, ne_eq, Option.some.injEq] at h
    simp [renderChars, h]

/-- An open placeholder collects every character up to a `}`. -/
lemma renderChars_collect {pre rest sp : List Char} (h : '\x7d' ∉ pre) :
    renderChars (pre ++ rest) (some sp) args out =
      renderChars rest (some (pre.reverse ++ sp)) args out := by
  induction pre generalizing sp with
  | nil => rfl
  | cons c pre ih =>
    simp only [List.mem_cons, not_or] at h
    simp [renderChars, Ne.symm h.1, ih h.2]

/-- An open placeholder that succeeds is closed by a `}`. -/
lemma renderChars_closed {cs sp : List Char} {r : String}
    (h : renderChars cs (some sp) args out = .ok r) :
    ∃ pre rest, cs = pre ++ '\x7d' :: rest ∧ '\x7d' ∉ pre ∧
      renderChars ('\x7d' :: rest) (some (pre.reverse ++ sp)) args out = .ok r := by
  induction cs generalizing sp with
  | nil => cases h
  | cons c cs ih =>
    by_cases hc : c = '\x7d'
    · exact ⟨[], cs, by rw [hc]; rfl, List.not_mem_nil, by rw [← hc]; exact h⟩
    · simp only [renderChars, if_neg hc] at h
      obtain ⟨pre, rest, rfl, hpre, hr⟩ := ih h
      refine ⟨c :: pre, rest, rfl, ?_, by simpa using hr⟩
      simp only [List.mem_cons, not_or]
      exact ⟨Ne.symm hc, hpre⟩

lemma renderChars_close {rest sp : List Char} {a : Value} :
    renderChars ('\x7d' :: rest) (some sp) (a :: args) out =
      (placeholder (String.ofList sp.reverse) a).bind
        fun piece => renderChars rest none args (out ++ piece) := by
  simp [renderChars]
  rfl

lemma push_append (out : String) (c : Char) (o : String) :
    out.push c ++ o = out ++ (String.singleton c ++ o) := by
  rw [String.push_eq_append, String.append_assoc]

/-- A template read as parts renders as the text of the parts. -/
lemma renderChars_of_reads {cs : List Char} {ps : List Part} (hr : Reads cs ps) :
    ∀ {args : List Value} {out o : String}, Fills ps args o →
      renderChars cs none args out = .ok (out ++ o) := by
  induction hr with
  | nil =>
    intro args out o hf
    cases hf
    simp [renderChars]
  | plain h₁ h₂ _ ih =>
    intro args out o hf
    cases hf with
    | char hf => rw [renderChars_plain h₁ h₂, ih hf, push_append]
  | openBrace _ ih =>
    intro args out o hf
    cases hf with
    | char hf => exact (ih hf).trans (by rw [push_append])
  | closeBrace _ ih =>
    intro args out o hf
    cases hf with
    | char hf => exact (ih hf).trans (by rw [push_append])
  | loneClose h _ ih =>
    intro args out o hf
    cases hf with
    | char hf => rw [renderChars_lone h, ih hf, push_append]
  | @hole spec rest ps h₁ h₂ _ ih =>
    intro args out o hf
    cases hf with
    | hole hs hf =>
      have hopen : (spec ++ '\x7d' :: rest).head? ≠ some '\x7b' := by
        rcases spec with _ | ⟨c, spec⟩
        · simp
        · simpa using h₁
      rw [renderChars_open hopen, renderChars_collect h₂, renderChars_close, List.append_nil,
        List.reverse_reverse, (placeholder_eq_ok_iff _ _ _).mpr hs]
      exact (ih hf).trans (by rw [String.append_assoc])

/-- A template that renders is read as parts, whose text it renders. -/
lemma reads_of_renderChars {cs : List Char} {args : List Value} {out r : String}
    (h : renderChars cs none args out = .ok r) :
    ∃ ps o, Reads cs ps ∧ Fills ps args o ∧ r = out ++ o := by
  -- strong induction on the length: a placeholder consumes several characters at once
  induction hn : cs.length using Nat.strong_induction_on generalizing cs args out with
  | _ n ih =>
  subst hn
  rcases cs with _ | ⟨c, rest⟩
  · cases h
    exact ⟨[], "", .nil, .nil args, String.append_empty.symm⟩
  by_cases hc₁ : c = '\x7b'
  · subst hc₁
    by_cases hesc : rest.head? = some '\x7b'
    · -- `{{`
      obtain ⟨t, rfl⟩ : ∃ t, rest = '\x7b' :: t := by
        rcases rest with _ | ⟨d, t⟩
        · cases hesc
        · simp only [List.head?_cons, Option.some.injEq] at hesc
          exact ⟨t, by rw [hesc]⟩
      have h : renderChars t none args (out.push '\x7b') = .ok r := h
      obtain ⟨ps, o, hr, hf, rfl⟩ := ih t.length (by simp) h rfl
      exact ⟨.char '\x7b' :: ps, _, .openBrace hr, .char hf, push_append _ _ _⟩
    · -- a placeholder, closed by the first `}` after it
      rw [renderChars_open hesc] at h
      obtain ⟨spec, t, rfl, hspec, hclose⟩ := renderChars_closed h
      rcases args with _ | ⟨a, args⟩
      · cases hclose
      rw [renderChars_close, List.append_nil, List.reverse_reverse] at hclose
      rcases hp : placeholder (String.ofList spec) a with e | piece
      · rw [hp] at hclose
        cases hclose
      rw [hp] at hclose
      obtain ⟨ps, o, hr, hf, rfl⟩ := ih t.length (by simp; omega) hclose rfl
      have h₁ : spec.head? ≠ some '\x7b' := by
        rcases spec with _ | ⟨d, spec⟩
        · simp
        · simpa using hesc
      exact ⟨.hole spec :: ps, piece ++ o, .hole h₁ hspec hr,
        .hole ((placeholder_eq_ok_iff _ _ _).mp hp) hf, String.append_assoc⟩
  by_cases hc₂ : c = '\x7d'
  · subst hc₂
    by_cases hesc : rest.head? = some '\x7d'
    · -- `}}`
      obtain ⟨t, rfl⟩ : ∃ t, rest = '\x7d' :: t := by
        rcases rest with _ | ⟨d, t⟩
        · cases hesc
        · simp only [List.head?_cons, Option.some.injEq] at hesc
          exact ⟨t, by rw [hesc]⟩
      have h : renderChars t none args (out.push '\x7d') = .ok r := h
      obtain ⟨ps, o, hr, hf, rfl⟩ := ih t.length (by simp) h rfl
      exact ⟨.char '\x7d' :: ps, _, .closeBrace hr, .char hf, push_append _ _ _⟩
    · -- a lone `}`
      rw [renderChars_lone hesc] at h
      obtain ⟨ps, o, hr, hf, rfl⟩ := ih rest.length (by simp) h rfl
      exact ⟨.char '\x7d' :: ps, _, .loneClose hesc hr, .char hf, push_append _ _ _⟩
  · rw [renderChars_plain hc₁ hc₂] at h
    obtain ⟨ps, o, hr, hf, rfl⟩ := ih rest.length (by simp) h rfl
    exact ⟨.char c :: ps, _, .plain hc₁ hc₂ hr, .char hf, push_append _ _ _⟩

end Render

/-- **Templates follow their mini-language.** Rendering a template succeeds exactly when its
characters read as parts (every `{` that is not doubled is closed by a `}`) whose placeholders
all show their arguments, taken left to right (each spec is empty or `:[#][digits][kind]` with
a width that fits a machine word, there are enough arguments, and each radix placeholder's
argument has an unsigned value); the text is then the parts' text. -/
theorem render_eq_ok_iff (template : String) (args : List Value) (out : String) :
    render template args = .ok out ↔ ∃ ps, Reads template.toList ps ∧ Fills ps args out := by
  constructor
  · intro h
    obtain ⟨ps, o, hr, hf, rfl⟩ := reads_of_renderChars h
    exact ⟨ps, hr, by simpa using hf⟩
  · rintro ⟨ps, hr, hf⟩
    have h : renderChars template.toList none args "" = .ok ("" ++ out) :=
      renderChars_of_reads hr hf
    rwa [String.empty_append] at h

example :
    render "\x7b:#06x\x7d \x7b:5\x7d\x7d" [.uint 255, .str "ok"] = .ok "0x00ff    ok\x7d" := by
  cbv

end Template

end ByteLayout

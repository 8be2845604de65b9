import Mathlib
import ByteLayout.Proofs.Syntax.Wp

set_option autoImplicit false

/-!
# Parsers that succeed

`Parse.Wp` speaks of the runs of a parser that succeed, whatever they are; a parser that
always fails meets every `Wp`. To show that a parser reads a given text, and what it reads it
as, the run itself has to succeed: `Parse.Returns x s post` says that the run of `x` from `s`
succeeds with a value and a state satisfying `post`. Its rules take it through the monad and
the parser's primitives, as `simp` lemmas that turn a parser's `do` block into the conditions
on the tokens ahead under which each step succeeds.

The tokens ahead of a state are read by `ParserState.ahead`, and a parser that reads tokens
moves the state by `ParserState.skip`. `ParserState.Ahead s ks` says that the tokens ahead
begin with `ks`.

## Main definitions

* `Parse.Returns` — the run of a parser succeeds, with a value and a state satisfying a
  postcondition.
* `ParserState.ahead`, `ParserState.skip`, `ParserState.Ahead` — the tokens ahead of a state,
  the state some tokens further on, and the tokens a state is known to have ahead.

## Main results

* `Parse.returns_bind`, `Parse.returns_accept`, … — the rules of the monad and the
  primitives.
* `Parse.returns_namespacePath`, `Parse.returns_peekCall` — reading a name that no `::`
  follows, and the look-ahead for a call.
-/

namespace ByteLayout

namespace ParserState

/-- The kind of the token `i` places after the position; the end past the array. -/
def ahead (s : ParserState) (i : Nat) : Token.Kind :=
  (s.tokens[s.pos + i]?.map (·.kind)).getD .eof

/-- The state `n` tokens further on. -/
def skip (s : ParserState) (n : Nat) : ParserState := { s with pos := s.pos + n }

/-- The tokens ahead of the state begin with `ks`. -/
def Ahead (s : ParserState) (ks : List Token.Kind) : Prop :=
  ∀ i (h : i < ks.length), s.ahead i = ks[i]

variable {s : ParserState}

@[simp] lemma skip_zero (s : ParserState) : s.skip 0 = s := rfl

@[simp] lemma skip_skip (s : ParserState) (m n : Nat) : (s.skip m).skip n = s.skip (m + n) := by
  simp [skip, Nat.add_assoc]

@[simp] lemma ahead_skip (s : ParserState) (m i : Nat) : (s.skip m).ahead i = s.ahead (m + i) := by
  simp [ahead, skip, Nat.add_assoc]

@[simp] lemma pos_skip (s : ParserState) (n : Nat) : (s.skip n).pos = s.pos + n := rfl

@[simp] lemma tokens_skip (s : ParserState) (n : Nat) : (s.skip n).tokens = s.tokens := rfl

@[simp] lemma ns_skip (s : ParserState) (n : Nat) : (s.skip n).ns = s.ns := rfl

namespace Ahead

lemma nil (s : ParserState) : s.Ahead [] := fun _ h => absurd h (Nat.not_lt_zero _)

lemma head {k : Token.Kind} {ks : List Token.Kind} (h : s.Ahead (k :: ks)) : s.ahead 0 = k :=
  h 0 (Nat.succ_pos _)

lemma left {xs ys : List Token.Kind} (h : s.Ahead (xs ++ ys)) : s.Ahead xs := fun i hi => by
  rw [h i (by simp; omega), List.getElem_append_left hi]

lemma right {xs ys : List Token.Kind} (h : s.Ahead (xs ++ ys)) : (s.skip xs.length).Ahead ys :=
  fun i hi => by
    rw [ahead_skip, h (xs.length + i) (by simp; omega), List.getElem_append_right (by omega)]
    simp

lemma tail {k : Token.Kind} {ks : List Token.Kind} (h : s.Ahead (k :: ks)) : (s.skip 1).Ahead ks :=
  right (show s.Ahead ([k] ++ ks) from h)

lemma append {xs ys : List Token.Kind} (hx : s.Ahead xs) (hy : (s.skip xs.length).Ahead ys) :
    s.Ahead (xs ++ ys) := fun i hi => by
  by_cases hix : i < xs.length
  · rw [hx i hix, List.getElem_append_left hix]
  · have := hy (i - xs.length) (by simp at hi; omega)
    rw [ahead_skip, Nat.add_sub_cancel' (by omega)] at this
    rw [this, List.getElem_append_right (by omega)]

lemma cons {k : Token.Kind} {ks : List Token.Kind} (hk : s.ahead 0 = k) (h : (s.skip 1).Ahead ks) :
    s.Ahead (k :: ks) :=
  show s.Ahead ([k] ++ ks) from
    append (fun i hi => by cases i with | zero => exact hk | succ => simp at hi) h

/-- The token right after the known ones. -/
lemma ahead_append {xs ys : List Token.Kind} (h : s.Ahead (xs ++ ys)) (i : Nat) (hi : i < ys.length) :
    s.ahead (xs.length + i) = ys[i] := by
  rw [← ahead_skip]
  exact h.right i hi

/-- At the start of a token array, the tokens ahead are its kinds. -/
lemma of_kinds {ks : List Token.Kind} (h : s.tokens.toList.map Token.kind = ks) (hp : s.pos = 0) :
    s.Ahead ks := by
  intro i hi
  subst h
  have hi' : i < s.tokens.size := by simpa using hi
  simp [ahead, hp, hi']

end Ahead

end ParserState

namespace Parse

variable {α β : Type}

/-- The run of `x` from `s` succeeds, with a value and a state satisfying `post`. -/
def Returns (x : Parse α) (s : ParserState) (post : α → ParserState → Prop) : Prop :=
  ∃ a s', x.run s = .ok (a, s') ∧ post a s'

/-! ### The rules of the monad -/

section Rules

variable {s : ParserState} {P Q : α → ParserState → Prop}

lemma Returns.mono {x : Parse α} (h : Returns x s P) (hPQ : ∀ a s', P a s' → Q a s') :
    Returns x s Q := by
  obtain ⟨a, s', hx, hp⟩ := h
  exact ⟨a, s', hx, hPQ a s' hp⟩

/-- A run that succeeds meets the postcondition of every `Wp` of the parser. -/
lemma Returns.wp {x : Parse α} (h : Returns x s P) (hw : Wp x s Q) :
    Returns x s fun a s' => P a s' ∧ Q a s' := by
  obtain ⟨a, s', hx, hp⟩ := h
  exact ⟨a, s', hx, hp, hw a s' hx⟩

@[simp] lemma returns_bind (x : Parse α) (f : α → Parse β) (P : β → ParserState → Prop) :
    Returns (x >>= f) s P ↔ Returns x s fun a s' => Returns (f a) s' P := by
  unfold Returns
  rw [run_bind]
  constructor
  · rintro ⟨b, s'', hr, hp⟩
    rcases hx : x.run s with e | ⟨a, s'⟩
    · rw [hx] at hr; cases hr
    · rw [hx] at hr; exact ⟨a, s', rfl, b, s'', hr, hp⟩
  · rintro ⟨a, s', hx, b, s'', hr, hp⟩
    exact ⟨b, s'', by rw [hx]; exact hr, hp⟩

@[simp] lemma returns_pure (a : α) : Returns (pure a : Parse α) s P ↔ P a s :=
  ⟨fun ⟨_, _, h, hp⟩ => by cases h; exact hp, fun h => ⟨a, s, rfl, h⟩⟩

@[simp] lemma returns_map (f : α → β) (x : Parse α) (P : β → ParserState → Prop) :
    Returns (f <$> x) s P ↔ Returns x s fun a s' => P (f a) s' := by
  rw [map_eq_pure_bind, returns_bind]
  simp only [returns_pure]

@[simp] lemma returns_get (P : ParserState → ParserState → Prop) :
    Returns (get : Parse ParserState) s P ↔ P s s :=
  ⟨fun ⟨_, _, h, hp⟩ => by cases h; exact hp, fun h => ⟨s, s, rfl, h⟩⟩

@[simp] lemma returns_modify (g : ParserState → ParserState) (P : Unit → ParserState → Prop) :
    Returns (modify g : Parse Unit) s P ↔ P () (g s) :=
  ⟨fun ⟨_, _, h, hp⟩ => by cases h; exact hp, fun h => ⟨(), g s, rfl, h⟩⟩

@[simp] lemma returns_throw (e : ParseError) : ¬Returns (throw e : Parse α) s P :=
  fun ⟨_, _, h, _⟩ => by cases h

@[simp] lemma returns_ite (p : Prop) [Decidable p] (x y : Parse α) :
    Returns (if p then x else y) s P ↔ if p then Returns x s P else Returns y s P := by
  split <;> rfl

end Rules

/-! ### The primitives of the parser -/

section Primitives

variable {s : ParserState}

@[simp] lemma returns_kindAt (off : Nat) (P : Token.Kind → ParserState → Prop) :
    Returns (kindAt off) s P ↔ P (s.ahead off) s :=
  ⟨fun ⟨_, _, h, hp⟩ => by cases h; exact hp, fun h => ⟨_, s, rfl, h⟩⟩

@[simp] lemma returns_spanAt (off : Int) (P : Span → ParserState → Prop) :
    Returns (spanAt off) s P ↔
      P ((s.tokens[if (s.pos : Int) + off < 0 then 0
        else min ((s.pos : Int) + off).toNat (s.tokens.size - 1)]?.map (·.span)).getD ⟨0, 0, 1⟩) s :=
  ⟨fun ⟨_, _, h, hp⟩ => by cases h; exact hp, fun h => ⟨_, s, rfl, h⟩⟩

@[simp] lemma returns_failAt (f : ParseFault) (off : Int) (P : α → ParserState → Prop) :
    ¬Returns (failAt f off) s P := by
  simp [failAt]

@[simp] lemma returns_fail (f : ParseFault) (P : α → ParserState → Prop) :
    ¬Returns (fail f) s P := returns_failAt f 0 P

@[simp] lemma returns_peekAt (c : TokenClass) (off : Nat) (P : Bool → ParserState → Prop) :
    Returns (peekAt c off) s P ↔ P (c.test (s.ahead off)) s :=
  ⟨fun ⟨_, _, h, hp⟩ => by cases h; exact hp, fun h => ⟨_, s, rfl, h⟩⟩

@[simp] lemma returns_advance (n : Nat) (P : Unit → ParserState → Prop) :
    Returns (advance n) s P ↔ P () (s.skip n) :=
  ⟨fun ⟨_, _, h, hp⟩ => by cases h; exact hp, fun h => ⟨(), s.skip n, rfl, h⟩⟩

@[simp] lemma returns_accept (cs : List TokenClass) (P : Bool → ParserState → Prop) :
    Returns (accept cs) s P ↔
      if (cs.zipIdx.all fun (c, i) => c.test (s.ahead i)) then P true (s.skip cs.length)
      else P false s := by
  simp only [accept, peekSeq, returns_bind, returns_get, returns_pure, returns_ite,
    returns_advance]
  rfl

@[simp] lemma returns_kindBefore_skip (back n : Nat) (h : back ≤ n)
    (P : Token.Kind → ParserState → Prop) :
    Returns (kindBefore back) (s.skip n) P ↔ P (s.ahead (n - back)) (s.skip n) := by
  have hle : back ≤ (s.skip n).pos := by simp only [ParserState.pos_skip]; omega
  simp only [kindBefore, returns_bind, returns_get, hle, ↓reduceIte, returns_pure]
  simp only [ParserState.ahead, ParserState.pos_skip, ParserState.tokens_skip]
  rw [show s.pos + n - back = s.pos + (n - back) by omega]

/-- The identifier just read. -/
lemma returns_identBefore_skip {n : Nat} {name : String} (h : s.ahead (n - 1) = .ident name)
    (hn : 0 < n) (P : String → ParserState → Prop) (hp : P name (s.skip n)) :
    Returns (identBefore 1) (s.skip n) P := by
  simp only [identBefore, returns_bind]
  rw [returns_kindBefore_skip 1 n hn, h]
  simpa using hp

/-- The builtin type name just read. -/
lemma returns_builtinBefore_skip {n : Nat} {b : Builtin} (h : s.ahead (n - 1) = .builtin b)
    (hn : 0 < n) (P : Builtin → ParserState → Prop) (hp : P b (s.skip n)) :
    Returns builtinBefore (s.skip n) P := by
  simp only [builtinBefore, returns_bind]
  rw [returns_kindBefore_skip 1 n hn, h]
  simpa using hp

lemma returns_namespacePath_more {acc : String} {fuel : Nat}
    (h : (TokenClass.sym "::").test (s.ahead 0) = false) (P : String → ParserState → Prop)
    (hp : P acc s) : Returns (namespacePath.more acc fuel) s P := by
  cases fuel with
  | zero => simpa [namespacePath.more] using hp
  | succ fuel => simpa [namespacePath.more, h] using hp

/-- A name that no `::` follows is read as itself. -/
lemma returns_namespacePath {name : String} (h₀ : s.ahead 0 = .ident name)
    (h₁ : (TokenClass.sym "::").test (s.ahead 1) = false) (P : String → ParserState → Prop)
    (hp : P name (s.skip 1)) : Returns namespacePath s P := by
  simp only [namespacePath, returns_bind, returns_accept, h₀, List.zipIdx_cons,
    List.zipIdx_nil, List.all_cons, List.all_nil, Bool.and_true, List.length_cons,
    List.length_nil, Nat.zero_add, returns_ite, returns_get]
  simp only [TokenClass.test, ↓reduceIte]
  refine returns_identBefore_skip (n := 1) (by simpa using h₀) Nat.one_pos _ ?_
  refine returns_namespacePath_more (by simpa using h₁) _ hp

/-- Whether a call lies ahead, for a name that no `::` follows: an opening parenthesis right
after the name. -/
lemma returns_peekCall {name : String} (h₀ : s.ahead 0 = .ident name)
    (h₁ : (TokenClass.sym "::").test (s.ahead 1) = false) (P : Bool → ParserState → Prop) :
    Returns peekCall s P ↔ P ((TokenClass.sym "(").test (s.ahead 1)) s := by
  have hwalk : ∀ fuel, peekCall.walk (fun i => (s.tokens[s.pos + i]?.map (·.kind)).getD .eof)
      1 fuel = 1 := by
    intro fuel
    cases fuel with
    | zero => rfl
    | succ fuel =>
      have h₁' : (TokenClass.sym "::").test ((s.tokens[s.pos + 1]?.map (·.kind)).getD .eof) =
          false := h₁
      simp [peekCall.walk, h₁']
  simp only [peekCall, returns_bind, returns_get]
  have h₀' : (s.tokens[s.pos + 0]?.map (·.kind)).getD .eof = .ident name := h₀
  simp only [h₀', TokenClass.test, Bool.not_true, Bool.false_eq_true, ↓reduceIte, hwalk,
    returns_pure]
  rfl

/-- No call lies ahead of a token that is no name. -/
lemma returns_peekCall_of_not_ident (h : ∀ n, s.ahead 0 ≠ .ident n)
    (P : Bool → ParserState → Prop) : Returns peekCall s P ↔ P false s := by
  have h' : TokenClass.ident.test ((s.tokens[s.pos + 0]?.map (·.kind)).getD .eof) = false := by
    change TokenClass.ident.test (s.ahead 0) = false
    cases hk : s.ahead 0 <;> simp_all [TokenClass.test]
  simp only [peekCall, returns_bind, returns_get, h', Bool.not_false, ↓reduceIte, returns_pure]

end Primitives

end Parse

end ByteLayout

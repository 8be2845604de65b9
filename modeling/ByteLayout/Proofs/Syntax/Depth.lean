import Mathlib
import ByteLayout.Proofs.Syntax.Returns

set_option autoImplicit false

/-!
# The parser never runs out of depth

Every function of the parser that calls itself, directly or through others, takes a fuel
argument, passes one less to the calls it makes, and fails with `ParseFault.tooDeep` at zero;
`parseTokens` starts with 64 units of fuel for each token and 128 more. This file shows that
the fuel never runs out: on every token array, `parseTokens` succeeds or fails with a fault of
the grammar, never with `tooDeep`. The parser therefore behaves as the unbounded recursive
descent it stands for, and that descent ends on every input.

## Main definitions

* `ParserState.rest` — the number of tokens at the position or after it.
* `Parse.Shallow` — a run that does not stop at the depth limit, with a postcondition for the
  runs that succeed.

## Main results

* `Parse.exprShallow`, `Parse.membersShallow`, `Parse.funShallow`, `Parse.topShallow` — each
  function of the parser stays within its fuel from every state where the fuel covers 64 for
  each token ahead and the function's rank.
* `parseTokens_fault_ne_tooDeep` — the parser never fails for want of fuel.

## Design

The measure is `64 * rest + rank`, with a rank for each function of the parser. A call at
fuel `n` from a state `s` has room when `64 * s.rest + rank ≤ n`. A function at fuel `n + 1`
calls others at fuel `n`: either before it has read a token, and then the callee's rank is
lower than its own, or after it, and then the token read pays for a callee of a rank up to 63
above its own. The ranks below are chosen so (the expression ladder from 19 for the arguments
of a call down to 1 for a member path), so every call has room again and no call reaches fuel
zero. Each function returns with no more tokens ahead than it started with, and the functions
that a loop calls once per round (a member, a statement of a function, a top-level statement)
with fewer: each round reads a token.

A backtracking step (`retreat 1` in `using` aliases and base lists) moves back over the name
just read, which the next call reads again at once, so the function as a whole still moves
forward. Reading past the end of the tokens yields `eof`, which no class but `eof` matches, so
a token that a parser reads lies in the array.
-/

namespace ByteLayout

namespace ParserState

/-- How many tokens lie at the position or after it. -/
def rest (s : ParserState) : Nat := s.tokens.size - s.pos

@[simp] lemma rest_skip (s : ParserState) (n : Nat) : (s.skip n).rest = s.rest - n := by
  simp only [rest, skip]
  omega

/-- Changing the registry, the functions or the namespace changes nothing ahead. -/
@[simp] lemma rest_update (u : ParserState) (types : List (String × TypeDecl))
    (openTypes functions ns : List String) :
    ({ tokens := u.tokens, pos := u.pos, types := types, openTypes := openTypes,
       functions := functions, ns := ns } : ParserState).rest = u.rest := rfl

/-- Going back `n` tokens puts at most `n` more ahead. -/
lemma rest_retreat_le (s : ParserState) (n : Nat) :
    ({ s with pos := s.pos - n } : ParserState).rest ≤ s.rest + n := by
  simp only [rest]
  omega

/-- A token that is not the end lies in the array. -/
lemma lt_rest_of_ahead_ne_eof {s : ParserState} {i : Nat} (h : s.ahead i ≠ .eof) : i < s.rest := by
  by_contra hle
  apply h
  simp only [ahead, rest] at hle ⊢
  rw [Array.getElem?_eq_none (by omega)]
  rfl

/-- The tokens ahead are of the classes `cs`, in order. -/
def Reads (s : ParserState) (cs : List TokenClass) : Prop :=
  (cs.zipIdx.all fun p => p.1.test (s.ahead p.2)) = true

end ParserState

/-- Only the class `eof` matches the end. -/
lemma TokenClass.lt_rest {c : TokenClass} (hc : c ≠ .eof) {s : ParserState} {i : Nat}
    (h : c.test (s.ahead i) = true) : i < s.rest :=
  ParserState.lt_rest_of_ahead_ne_eof fun he => by
    rw [he] at h
    cases c <;> simp_all [TokenClass.test]

/-- Tokens read by a class other than `eof` are in the array. -/
lemma ParserState.Reads.pos {s : ParserState} {c : TokenClass} {cs : List TokenClass}
    (h : s.Reads (c :: cs)) (hc : c ≠ .eof) : 0 < s.rest := by
  simp only [Reads, List.zipIdx_cons, List.all_cons, Bool.and_eq_true] at h
  exact TokenClass.lt_rest hc h.1

/-- Reading tokens of classes other than `eof` leaves fewer ahead. -/
lemma ParserState.Reads.rest_lt {s : ParserState} {c : TokenClass} {cs : List TokenClass}
    (h : s.Reads (c :: cs)) (hc : c ≠ .eof) : (s.skip (c :: cs).length).rest < s.rest := by
  have := h.pos hc
  simp only [rest_skip, List.length_cons]
  omega

namespace Parse

variable {α β : Type}

/-- The run of `x` from `s` does not stop at the depth limit, and if it succeeds, its value
and state satisfy `post`. -/
def Shallow (x : Parse α) (s : ParserState) (post : α → ParserState → Prop) : Prop :=
  (∀ e, x.run s = .error e → e.fault ≠ .tooDeep) ∧ Wp x s post

/-! ### The rules of the monad -/

section Rules

variable {s : ParserState} {P Q : α → ParserState → Prop}

lemma Shallow.mono {x : Parse α} (h : Shallow x s P) (hPQ : ∀ a t, P a t → Q a t) :
    Shallow x s Q :=
  ⟨h.1, h.2.mono hPQ⟩

lemma Shallow.of_ok {x : Parse α} {a : α} {t : ParserState} (hx : x.run s = .ok (a, t)) :
    Shallow x s P ↔ P a t := by
  refine ⟨fun h => h.2 a t hx, fun h => ⟨fun e he => ?_, (Wp.of_ok hx).mpr h⟩⟩
  rw [hx] at he
  cases he

@[simp] lemma shallow_bind (x : Parse α) (f : α → Parse β) (P : β → ParserState → Prop) :
    Shallow (x >>= f) s P ↔ Shallow x s fun a t => Shallow (f a) t P := by
  unfold Shallow
  rw [run_bind, wp_bind]
  constructor
  · rintro ⟨he, hw⟩
    refine ⟨fun e hx => he e (by rw [hx]), fun a t hx => ⟨fun e hf => he e ?_, hw a t hx⟩⟩
    rw [hx]
    exact hf
  · rintro ⟨he, hw⟩
    refine ⟨fun e h => ?_, hw.mono fun a t h => h.2⟩
    rcases hx : x.run s with e' | ⟨a, t⟩
    · rw [hx] at h
      cases h
      exact he _ hx
    · rw [hx] at h
      exact (hw a t hx).1 e h

@[simp] lemma shallow_pure (a : α) : Shallow (pure a : Parse α) s P ↔ P a s := Shallow.of_ok rfl

@[simp] lemma shallow_map (f : α → β) (x : Parse α) (P : β → ParserState → Prop) :
    Shallow (f <$> x) s P ↔ Shallow x s fun a t => P (f a) t := by
  rw [map_eq_pure_bind, shallow_bind]
  simp only [shallow_pure]

@[simp] lemma shallow_get (P : ParserState → ParserState → Prop) :
    Shallow (get : Parse ParserState) s P ↔ P s s :=
  Shallow.of_ok rfl

@[simp] lemma shallow_modify (g : ParserState → ParserState) (P : Unit → ParserState → Prop) :
    Shallow (modify g : Parse Unit) s P ↔ P () (g s) :=
  Shallow.of_ok rfl

@[simp] lemma shallow_throw (e : ParseError) :
    Shallow (throw e : Parse α) s P ↔ e.fault ≠ .tooDeep :=
  ⟨fun h => h.1 e rfl, fun h => ⟨fun e' he => by cases he; exact h, wp_throw e⟩⟩

@[simp] lemma shallow_ite (p : Prop) [Decidable p] (x y : Parse α) :
    Shallow (if p then x else y) s P ↔ (p → Shallow x s P) ∧ (¬p → Shallow y s P) := by
  by_cases hp : p <;> simp [hp]

@[simp] lemma shallow_orM (x y : Parse Bool) (P : Bool → ParserState → Prop) :
    Shallow (x <||> y) s P ↔
      Shallow x s fun b t => (b = true → P true t) ∧ (b = false → Shallow y t P) := by
  simp only [orM, shallow_bind]
  refine ⟨fun h => h.mono fun b t hb => ?_, fun h => h.mono fun b t hb => ?_⟩
  · cases b <;> simpa [toBool] using hb
  · cases b <;> simpa [toBool] using hb

end Rules

/-! ### The primitives of the parser -/

section Primitives

variable {s : ParserState}

@[simp] lemma shallow_kindAt (off : Nat) (P : Token.Kind → ParserState → Prop) :
    Shallow (kindAt off) s P ↔ P (s.ahead off) s :=
  Shallow.of_ok rfl

@[simp] lemma shallow_spanAt (off : Int) (P : Span → ParserState → Prop) :
    Shallow (spanAt off) s P ↔
      P ((s.tokens[if (s.pos : Int) + off < 0 then 0
        else min ((s.pos : Int) + off).toNat (s.tokens.size - 1)]?.map (·.span)).getD ⟨0, 0, 1⟩) s :=
  Shallow.of_ok rfl

@[simp] lemma shallow_failAt (f : ParseFault) (off : Int) (P : α → ParserState → Prop) :
    Shallow (failAt f off) s P ↔ f ≠ .tooDeep := by
  simp [failAt]

@[simp] lemma shallow_fail (f : ParseFault) (P : α → ParserState → Prop) :
    Shallow (fail f) s P ↔ f ≠ .tooDeep :=
  shallow_failAt f 0 P

@[simp] lemma shallow_peekAt (c : TokenClass) (off : Nat) (P : Bool → ParserState → Prop) :
    Shallow (peekAt c off) s P ↔ P (c.test (s.ahead off)) s :=
  Shallow.of_ok rfl

@[simp] lemma shallow_advance (n : Nat) (P : Unit → ParserState → Prop) :
    Shallow (advance n) s P ↔ P () (s.skip n) :=
  Shallow.of_ok rfl

@[simp] lemma shallow_retreat (n : Nat) (P : Unit → ParserState → Prop) :
    Shallow (retreat n) s P ↔ P () { s with pos := s.pos - n } :=
  Shallow.of_ok rfl

@[simp] lemma shallow_accept (cs : List TokenClass) (P : Bool → ParserState → Prop) :
    Shallow (accept cs) s P ↔
      (s.Reads cs → P true (s.skip cs.length)) ∧ (¬s.Reads cs → P false s) := by
  simp only [accept, peekSeq, shallow_bind, shallow_get, shallow_pure, shallow_ite, shallow_advance]
  rfl

end Primitives

/-! ### Parsers without fuel

Each of them reads a fixed stretch of tokens, or loops with the number of tokens as its fuel
and stops quietly when that runs out, so none fails with `tooDeep`. -/

section Helpers

variable {s : ParserState}

lemma shallow_kindBefore (back : Nat) (P : Token.Kind → ParserState → Prop) (h : ∀ k, P k s) :
    Shallow (kindBefore back) s P := by
  simp only [kindBefore, shallow_bind, shallow_get, shallow_ite, shallow_pure]
  exact ⟨fun _ => h _, fun _ => h _⟩

lemma shallow_identBefore (back : Nat) (P : String → ParserState → Prop) (h : ∀ n, P n s) :
    Shallow (identBefore back) s P := by
  simp only [identBefore, shallow_bind]
  refine shallow_kindBefore back _ fun k => ?_
  split <;> simp [h]

/-- The identifier at the position is a token of the array. -/
lemma shallow_identHere (P : String → ParserState → Prop)
    (h : ∀ n, s.ahead 0 = .ident n → P n s) : Shallow identHere s P := by
  simp only [identHere, shallow_bind, shallow_kindAt]
  split
  · rename_i n hn
    simpa using h n hn
  · simp

lemma shallow_stringBefore (back : Nat) (P : String → ParserState → Prop) (h : ∀ v, P v s) :
    Shallow (stringBefore back) s P := by
  simp only [stringBefore, shallow_bind]
  refine shallow_kindBefore back _ fun k => ?_
  split <;> simp [h]

lemma shallow_builtinBefore (P : Builtin → ParserState → Prop) (h : ∀ b, P b s) :
    Shallow builtinBefore s P := by
  simp only [builtinBefore, shallow_bind]
  refine shallow_kindBefore 1 _ fun k => ?_
  split <;> simp [h]

lemma shallow_skipSemicolons (fuel : Nat) :
    Shallow (skipSemicolons fuel) s fun _ t => t.rest ≤ s.rest := by
  induction fuel generalizing s with
  | zero => simp [skipSemicolons]
  | succ fuel ih =>
    simp only [skipSemicolons, shallow_bind, shallow_accept, ↓reduceIte, Bool.false_eq_true,
      shallow_pure]
    refine ⟨fun _ => ih.mono fun _ t ht => ?_, fun _ => le_rfl⟩
    simp only [ParserState.rest_skip] at ht
    omega

/-- A semicolon ahead is skipped with the ones after it. -/
lemma shallow_skipSemicolons_of_semicolon (h : (TokenClass.sym ";").test (s.ahead 0) = true) :
    Shallow (skipSemicolons s.tokens.size) s fun _ t => t.rest < s.rest := by
  have hpos : 0 < s.rest := TokenClass.lt_rest (by decide) h
  obtain ⟨fuel, hfuel⟩ : ∃ fuel, s.tokens.size = fuel + 1 :=
    ⟨s.tokens.size - 1, by simp only [ParserState.rest] at hpos; omega⟩
  have hr : s.Reads [.sym ";"] := by simpa [ParserState.Reads] using h
  rw [hfuel]
  simp only [skipSemicolons, shallow_bind, shallow_accept, ↓reduceIte]
  refine ⟨fun _ => shallow_skipSemicolons fuel |>.mono fun _ t ht => ?_, fun h => absurd hr h⟩
  simp only [ParserState.rest_skip, List.length_cons, List.length_nil] at ht
  omega

lemma shallow_expectSemicolon : Shallow expectSemicolon s fun _ t => t.rest ≤ s.rest := by
  simp only [expectSemicolon, shallow_bind, shallow_accept, ↓reduceIte, Bool.false_eq_true,
    shallow_failAt, shallow_get]
  refine ⟨fun _ => shallow_skipSemicolons _ |>.mono fun _ t ht => ?_, fun _ => by simp⟩
  simp only [ParserState.rest_skip] at ht
  omega

lemma shallow_namespacePath_more (acc : String) (fuel : Nat) :
    Shallow (namespacePath.more acc fuel) s fun _ t => t.rest ≤ s.rest := by
  induction fuel generalizing s acc with
  | zero => simp [namespacePath.more]
  | succ fuel ih =>
    simp only [namespacePath.more, shallow_bind, shallow_accept, ↓reduceIte, Bool.false_eq_true,
      shallow_pure]
    refine ⟨fun _ => shallow_identBefore _ _ fun _ => (ih _).mono fun _ t ht => ?_, fun _ => le_rfl⟩
    simp only [ParserState.rest_skip] at ht
    omega

/-- A qualified name reads at least its first identifier. -/
lemma shallow_namespacePath : Shallow namespacePath s fun _ t => t.rest < s.rest := by
  simp only [namespacePath, shallow_bind, shallow_accept, ↓reduceIte, Bool.false_eq_true,
    shallow_fail, shallow_get]
  refine ⟨fun h => shallow_identBefore _ _ fun _ =>
    shallow_namespacePath_more _ _ |>.mono fun _ t ht => ?_, fun _ => by simp⟩
  have := h.pos (by decide)
  simp only [ParserState.rest_skip, List.length_cons, List.length_nil] at ht
  omega

/-! Look-ahead only reads. -/

lemma shallow_peekCall (P : Bool → ParserState → Prop) (h : ∀ b, P b s) :
    Shallow peekCall s P := by
  simp only [peekCall, shallow_bind, shallow_get]
  split <;> simp [h]

lemma shallow_peekTypeStart (P : Bool → ParserState → Prop) (h : ∀ b, P b s) :
    Shallow peekTypeStart s P := by
  simp [peekTypeStart, h]

lemma shallow_peekArrayDeclarator (P : Bool → ParserState → Prop) (h : ∀ b, P b s) :
    Shallow peekArrayDeclarator s P := by
  simp [peekArrayDeclarator, h]

lemma shallow_peekAssignment (P : Bool → ParserState → Prop) (h : ∀ b, P b s) :
    Shallow peekAssignment s P := by
  simp [peekAssignment, h]

/-- An operator is a symbol ahead, a token of the array. -/
lemma shallow_levelOp? (level : Nat) (P : Option BinOp → ParserState → Prop) (h₀ : P none s)
    (h₁ : ∀ op, 0 < s.rest → P (some op) s) : Shallow (levelOp? level) s P := by
  simp only [levelOp?, shallow_bind, shallow_kindAt]
  split
  · rename_i sym hk
    have hpos : 0 < s.rest := ParserState.lt_rest_of_ahead_ne_eof (by rw [hk]; simp)
    cases hop : (binaryLevels.getD level []).lookup sym <;> simp [h₀, h₁ _ hpos]
  · simpa using h₀

lemma shallow_closeOperand (what : String) :
    Shallow (closeOperand what) s fun _ t => t.rest ≤ s.rest := by
  simp only [closeOperand, shallow_bind, shallow_accept, ↓reduceIte, Bool.false_eq_true,
    shallow_pure, shallow_fail]
  refine ⟨fun h => ?_, fun _ => by simp⟩
  have := h.pos (by decide)
  simp only [ParserState.rest_skip]
  omega

/-! The registry changes nothing ahead. -/

lemma shallow_resolveType? (name : String) (P : Option String → ParserState → Prop)
    (h : ∀ r, P r s) : Shallow (resolveType? name) s P := by
  simp only [resolveType?, isKnownType, shallow_bind, shallow_get, shallow_pure, shallow_ite]
  exact ⟨fun _ => h _, fun _ => ⟨fun _ => h _, fun _ => h _⟩⟩

lemma shallow_instantiate? (name : String) (span : Span) (P : Option TypeDecl → ParserState → Prop)
    (h : ∀ r, P r s) : Shallow (instantiate? name span) s P := by
  simp only [instantiate?, shallow_bind]
  refine shallow_resolveType? name _ fun r => ?_
  split
  · simpa using h none
  · simp only [shallow_bind, shallow_get]
    split <;> simp [h]

lemma shallow_instantiateFinished? (name : String) (P : Option TypeDecl → ParserState → Prop)
    (h : ∀ r, P r s) : Shallow (instantiateFinished? name) s P := by
  simp only [instantiateFinished?, shallow_bind]
  refine shallow_resolveType? name _ fun r => ?_
  split
  · simpa using h none
  · simp [h]

lemma shallow_openType (name : String) (off : Int) (P : String → ParserState → Prop)
    (h : ∀ q t, t.rest = s.rest → P q t) : Shallow (openType name off) s P := by
  simp only [openType, isKnownType, shallow_bind, shallow_get, shallow_ite, shallow_failAt,
    shallow_modify, shallow_pure]
  exact ⟨fun _ => by simp, fun _ => h _ _ rfl⟩

/-! Calls and type uses read at least a name. -/

/-- A call reads its name and the opening parenthesis before its arguments. -/
lemma shallow_callWith {args : Parse (List Expr)}
    (hargs : ∀ t, t.rest + 2 ≤ s.rest → Shallow args t fun _ u => u.rest ≤ t.rest) :
    Shallow (callWith args) s fun _ t => t.rest < s.rest := by
  simp only [callWith, shallow_bind, shallow_spanAt]
  refine shallow_namespacePath.mono fun name s₁ h₁ => ?_
  simp only [shallow_bind, shallow_accept, ↓reduceIte, Bool.false_eq_true, shallow_pure,
    shallow_fail, shallow_get, shallow_spanAt]
  refine ⟨fun hp => ?_, fun _ => by simp⟩
  have hp₁ := hp.pos (by decide)
  refine ⟨fun hc => ?_, fun _ => (hargs _ ?_).mono fun _ u hu => ?_⟩
  · have := hc.pos (by decide)
    simp only [ParserState.rest_skip, List.length_cons, List.length_nil]
    omega
  · simp only [ParserState.rest_skip, List.length_cons, List.length_nil]
    omega
  · simp only [ParserState.rest_skip, List.length_cons, List.length_nil] at hu
    omega

/-- A type use reads a builtin name or a type name, after an optional byte order. -/
lemma shallow_typeUse (allowAny : Bool) : Shallow (typeUse allowAny) s fun _ t => t.rest < s.rest := by
  simp only [typeUse, shallow_bind, shallow_spanAt, shallow_peekAt, shallow_ite, shallow_accept,
    Bool.false_eq_true, shallow_fail, shallow_pure, true_implies, not_true_eq_false, false_implies,
    and_true, true_and, not_false_eq_true]
  -- the rest of the type use is read from each of the three states the byte order may leave
  refine ⟨fun _ => ?_, fun _ => ⟨fun _ => ?_, fun _ => ?_⟩⟩
  all_goals
    refine ⟨fun _ => shallow_namespacePath.mono fun name s₁ h₁ =>
      shallow_instantiate? _ _ _ fun r => ?_, fun _ => ⟨fun hb => ?_, fun _ => by simp⟩⟩
    · split
      · simp
      · simp only [shallow_pure, ParserState.rest_skip, List.length_cons, List.length_nil] at h₁ ⊢
        omega
    · refine shallow_builtinBefore _ fun b => ⟨fun _ => by simp, fun _ => ?_⟩
      have := hb.pos (by decide)
      simp only [ParserState.rest_skip, List.length_cons, List.length_nil] at this ⊢
      omega

/-! Declarations of variables and pointers, and attributes. -/

lemma shallow_memberVariable_more (acc : List String) (fuel : Nat) :
    Shallow (memberVariable.more acc fuel) s fun _ t => t.rest ≤ s.rest := by
  induction fuel generalizing s acc with
  | zero => simp [memberVariable.more]
  | succ fuel ih =>
    simp only [memberVariable.more, shallow_bind, shallow_accept, shallow_ite, Bool.false_eq_true,
      shallow_pure, true_implies, not_true_eq_false, false_implies, and_true, true_and,
      not_false_eq_true]
    refine ⟨fun _ => shallow_identBefore _ _ fun _ => (ih _).mono fun _ t ht => ?_, fun _ => le_rfl⟩
    simp only [ParserState.rest_skip] at ht
    omega

lemma shallow_memberVariable (ty : TypeDecl) (span : Span) :
    Shallow (memberVariable ty span) s fun _ t => t.rest ≤ s.rest := by
  simp only [memberVariable, shallow_bind]
  refine shallow_identBefore _ _ fun first => ?_
  simp only [shallow_bind, shallow_peekAt, shallow_ite, shallow_pure, shallow_get]
  exact ⟨fun _ => le_rfl, fun _ => shallow_memberVariable_more _ _ |>.mono fun _ t ht => ht⟩

/-- A pointer's address type is a type use. -/
lemma shallow_pointerTail (target : TypeDecl) (span : Span) :
    Shallow (pointerTail target span) s fun _ t => t.rest < s.rest := by
  simp only [pointerTail, shallow_bind]
  refine shallow_identBefore _ _ fun name => (shallow_typeUse false).mono fun size t ht => ?_
  split
  · simp only [shallow_ite, shallow_pure, shallow_failAt]
    exact ⟨fun _ => ht, fun _ => by simp⟩
  · simp

/-- Attribute items, one name each, with the number of tokens ahead below the fuel. -/
lemma shallow_attributeItems (fuel : Nat) : ∀ (acc : List Attribute) (s : ParserState),
    s.rest < fuel → Shallow (attributeItems fuel acc) s fun _ t => t.rest ≤ s.rest := by
  induction fuel with
  | zero => intro _ _ h; omega
  | succ fuel ih =>
    intro acc s hs
    simp only [attributeItems, shallow_bind, shallow_spanAt, shallow_accept, shallow_ite,
      Bool.false_eq_true, shallow_fail, shallow_pure, shallow_peekAt, true_implies,
      not_true_eq_false, false_implies, and_true, true_and, not_false_eq_true]
    refine ⟨fun hn => shallow_identBefore _ _ fun name => ?_, by simp⟩
    have hn := hn.pos (by decide)
    -- the rest of an item is read from each of the states its optional argument may leave
    refine ⟨fun _ => ?_, fun _ => ⟨fun _ => by simp, fun _ => ?_⟩⟩
    · refine shallow_stringBefore _ _ fun v => ⟨fun hc => (ih _ _ ?_).mono fun _ t ht => ?_, ?_⟩ <;>
        [have := hc.pos (by decide); skip; skip] <;>
        simp only [ParserState.rest_skip, List.length_cons, List.length_nil] at * <;> omega
    · refine ⟨fun hc => (ih _ _ ?_).mono fun _ t ht => ?_, ?_⟩ <;>
        [have := hc.pos (by decide); skip; skip] <;>
        simp only [ParserState.rest_skip, List.length_cons, List.length_nil] at * <;> omega

/-- Trailing attributes read `[[`, their items and `]]`, or nothing. -/
lemma shallow_trailingAttributes (st : Stmt) :
    Shallow (trailingAttributes st) s fun _ t => t.rest ≤ s.rest := by
  simp only [trailingAttributes, shallow_bind, shallow_peekAt, shallow_ite, shallow_pure,
    shallow_fail, shallow_advance, shallow_get]
  refine ⟨fun _ => le_rfl, fun h => ⟨fun _ => by simp, fun _ => ?_⟩⟩
  have hpos : 0 < s.rest := by
    simp only [Bool.not_eq_true', Bool.not_eq_false, Bool.and_eq_true] at h
    exact TokenClass.lt_rest (by decide) h.1
  have hsize : s.rest ≤ s.tokens.size := Nat.sub_le _ _
  refine (shallow_attributeItems _ _ _ ?_).mono fun attrs s₁ h₁ => ?_
  · simp only [ParserState.rest_skip, ParserState.tokens_skip]
    omega
  simp only [shallow_accept, ParserState.rest_skip, true_implies, not_true_eq_false, false_implies,
    and_true] at h₁ ⊢
  refine ⟨fun _ => ?_, fun _ => by simp⟩
  split
  · simp only [addTypeAttrs, shallow_bind, shallow_modify, shallow_pure, ParserState.rest_update,
      ParserState.rest_skip]
    omega
  · simp only [shallow_pure, ParserState.rest_skip]
    omega

/-- A `using` alias reads its name again after stepping back to it, then a type use. -/
lemma shallow_usingDecl : Shallow usingDecl s fun _ t => t.rest ≤ s.rest := by
  simp only [usingDecl, shallow_bind, shallow_spanAt, shallow_retreat]
  refine shallow_namespacePath.mono fun name s₁ h₁ => ?_
  have h₀ := ParserState.rest_retreat_le s 1
  simp only [shallow_bind, shallow_accept, shallow_ite, Bool.false_eq_true, shallow_failAt,
    shallow_pure, true_implies, not_true_eq_false, false_implies, and_true, true_and,
    not_false_eq_true]
  refine ⟨fun _ => (shallow_typeUse false).mono fun target s₂ h₂ =>
    shallow_openType _ _ _ fun q s₃ h₃ => ?_, fun _ => by simp⟩
  simp only [finishType, shallow_modify, ParserState.rest_update]
  simp only [ParserState.rest_skip] at h₂
  omega

end Helpers

/-! ### Parsers with fuel -/

/-- `x` runs within fuel `n` at rank `r`: from every state where `n` covers 64 for each token
ahead and `r` more, its run does not stop at the depth limit, and leaves no more tokens ahead
when it succeeds. -/
def Within (n r : Nat) (x : Parse α) : Prop :=
  ∀ s, 64 * s.rest + r ≤ n → Shallow x s fun _ t => t.rest ≤ s.rest

/-- As `Within`, and every run that succeeds reads a token. -/
def Advances (n r : Nat) (x : Parse α) : Prop :=
  ∀ s, 64 * s.rest + r ≤ n → Shallow x s fun _ t => t.rest < s.rest

/-! ### Expressions -/

lemma scopeRest_within : ∀ fuel span typeName, Within fuel 1 (scopeRest fuel span typeName) := by
  intro fuel
  induction fuel with
  | zero => intro _ _ s hs; omega
  | succ fuel ih =>
    intro span typeName s hs
    simp only [scopeRest, shallow_bind, shallow_ite, shallow_accept, shallow_fail, shallow_peekAt,
      Bool.false_eq_true, true_implies, false_implies, and_true, not_false_eq_true, ne_eq,
      reduceCtorEq, implies_true]
    intro h₁
    have h₁ := h₁.rest_lt (by decide)
    refine shallow_identBefore _ _ fun part => ⟨fun _ => (ih _ _ _ (by omega)).mono fun _ t ht => ?_,
      fun _ => shallow_instantiate? _ _ _ fun r => ?_⟩
    · omega
    · split
      · simp
      · simp only [shallow_bind, shallow_spanAt, shallow_pure]
        omega

/-- The ranks of the expression parser at one fuel: from 19 for the arguments of a call down
the ladder of precedence to 1 for a member path. -/
structure ExprShallow (fuel : Nat) : Prop where
  expr : Within fuel 18 (expr fuel)
  ternary : Within fuel 17 (ternary fuel)
  binary : ∀ level, Within fuel (5 + (11 - level)) (binary fuel level)
  binaryRest : ∀ level lhs, Within fuel (5 + (10 - level)) (binaryRest fuel level lhs)
  unary : Within fuel 4 (unary fuel)
  cast : Within fuel 3 (cast fuel)
  primary : Within fuel 2 (primary fuel)
  path : ∀ acc, Within fuel 1 (path fuel acc)
  arguments : ∀ acc, Within fuel 19 (arguments fuel acc)

variable {fuel : Nat}

lemma ternary_within (ih : ExprShallow fuel) : Within (fuel + 1) 17 (ternary (fuel + 1)) := by
  intro s hs
  simp only [ternary, shallow_bind]
  refine (ih.binary 0 s (by omega)).mono fun c s₁ h₁ => ?_
  simp only [shallow_bind, shallow_pure, shallow_ite, shallow_accept, shallow_fail, Bool.not_true,
    Bool.not_false, Bool.false_eq_true, true_implies, not_true_eq_false, false_implies, and_true,
    true_and, not_false_eq_true, ne_eq, reduceCtorEq, implies_true]
  refine ⟨fun h₂ => ?_, fun _ => h₁⟩
  have h₂ := h₂.rest_lt (by decide)
  refine (ih.ternary _ (by omega)).mono fun t s₃ h₃ h₄ => ?_
  have h₄ := h₄.rest_lt (by decide)
  exact (ih.ternary _ (by omega)).mono fun e s₅ h₅ => by omega

lemma binary_within (ih : ExprShallow fuel) (level : Nat) :
    Within (fuel + 1) (5 + (11 - level)) (binary (fuel + 1) level) := by
  intro s hs
  have hlen : binaryLevels.length = 11 := rfl
  simp only [binary]
  split
  · rw [shallow_bind]
    exact (ih.binary _ s (by omega)).mono fun lhs s₁ h₁ =>
      (ih.binaryRest level lhs s₁ (by omega)).mono fun _ t ht => ht.trans h₁
  · exact ih.unary s (by omega)

lemma binaryRest_within (ih : ExprShallow fuel) (level : Nat) (lhs : Expr) :
    Within (fuel + 1) (5 + (10 - level)) (binaryRest (fuel + 1) level lhs) := by
  intro s hs
  simp only [binaryRest, shallow_bind]
  refine shallow_levelOp? level _ (by simp) fun op hpos => ?_
  simp only [shallow_advance, shallow_bind]
  have h₁ : (s.skip 1).rest < s.rest := by
    simp only [ParserState.rest_skip]
    omega
  exact (ih.binary _ _ (by omega)).mono fun rhs s₂ h₂ =>
    (ih.binaryRest _ _ _ (by omega)).mono fun _ t ht => by omega

lemma unary_within (ih : ExprShallow fuel) : Within (fuel + 1) 4 (unary (fuel + 1)) := by
  intro s hs
  simp only [unary, shallow_bind, shallow_spanAt, shallow_kindAt]
  split
  · -- a prefix operator is a symbol of the array
    rename_i op hop
    have hpos : 0 < s.rest := ParserState.lt_rest_of_ahead_ne_eof fun he => by simp [he] at hop
    have h₁ : (s.skip 1).rest < s.rest := by
      simp only [ParserState.rest_skip]
      omega
    simp only [shallow_bind, shallow_advance]
    exact (ih.unary _ (by omega)).mono fun e t ht => by
      simp only [shallow_pure]
      omega
  · exact ih.cast s (by omega)

lemma cast_within (ih : ExprShallow fuel) : Within (fuel + 1) 3 (cast (fuel + 1)) := by
  intro s hs
  simp only [cast, shallow_bind, shallow_kindAt, shallow_ite, Bool.not_eq_true']
  refine ⟨fun _ => ih.primary s (by omega), fun _ => ?_⟩
  simp only [shallow_spanAt]
  refine (shallow_typeUse true).mono fun target s₁ h₁ => ?_
  split
  · simp
  · simp only [shallow_bind, shallow_pure, shallow_ite, shallow_peekAt, shallow_fail, and_true,
      not_false_eq_true, ne_eq, reduceCtorEq, implies_true]
    exact fun _ => (ih.primary s₁ (by omega)).mono fun e t ht => by omega

lemma arguments_within (ih : ExprShallow fuel) (acc : List Expr) :
    Within (fuel + 1) 19 (arguments (fuel + 1) acc) := by
  intro s hs
  simp only [arguments, shallow_bind]
  refine (ih.expr s (by omega)).mono fun a s₁ h₁ => ?_
  simp only [shallow_bind, shallow_pure, shallow_ite, shallow_accept, shallow_fail, shallow_failAt,
    Bool.false_eq_true, true_implies, not_true_eq_false, false_implies, and_true, true_and,
    not_false_eq_true, ne_eq, reduceCtorEq, implies_true]
  refine fun _ => ⟨fun h₂ => (h₂.rest_lt (by decide)).le.trans h₁, fun _ h₂ => ?_⟩
  have h₂ := h₂.rest_lt (by decide)
  exact (ih.arguments _ _ (by omega)).mono fun _ t ht => by omega

lemma primary_within (ih : ExprShallow fuel) : Within (fuel + 1) 2 (primary (fuel + 1)) := by
  intro s hs
  simp only [primary, shallow_bind, shallow_spanAt, shallow_kindAt]
  split
  · simp only [shallow_bind, shallow_advance, shallow_pure, ParserState.rest_skip]
    omega
  simp only [shallow_bind, shallow_pure, shallow_ite, shallow_accept, shallow_fail, shallow_failAt,
    shallow_peekAt, shallow_spanAt, Bool.false_eq_true, true_implies, not_true_eq_false,
    false_implies, and_true, true_and, not_false_eq_true, ne_eq, reduceCtorEq, implies_true]
  refine ⟨fun h₁ => ?_, fun _ => shallow_peekCall _ fun b => ⟨fun _ => ?_, fun _ => ⟨fun _ => ?_,
    fun _ => ⟨fun _ => ?_, fun _ => ⟨fun h₁ => ?_, fun _ => ⟨fun h₁ => ?_,
    fun _ h₁ => ⟨fun h₂ => ?_, fun _ => ?_⟩⟩⟩⟩⟩⟩⟩
  · -- a parenthesized expression
    have h₁ := h₁.rest_lt (by decide)
    exact (ih.expr _ (by omega)).mono fun inner s₂ h₂ h₃ => by
      have := h₃.rest_lt (by decide)
      omega
  · -- a call
    exact (shallow_callWith fun t ht => ih.arguments [] t (by omega)).mono fun _ t ht => ht.le
  · -- a scope resolution, after its first name
    refine shallow_identHere _ fun first _ => ?_
    rw [shallow_advance]
    refine (scopeRest_within fuel _ _ _ ?_).mono fun _ t ht => ?_ <;>
      simp only [ParserState.rest_skip] at * <;> omega
  · -- a member path
    exact ih.path [] s (by omega)
  · -- the cursor
    exact (h₁.rest_lt (by decide)).le
  · -- an address
    have h₁ := h₁.rest_lt (by decide)
    exact (ih.path [] _ (by omega)).mono fun segs s₂ h₂ =>
      shallow_closeOperand _ |>.mono fun _ t ht => by omega
  · -- the size of a builtin
    have h₁ := h₁.rest_lt (by decide)
    have h₂ := h₂.rest_lt (by decide)
    exact shallow_builtinBefore _ fun b => shallow_closeOperand _ |>.mono fun _ t ht => by omega
  · -- the size of a member path
    have h₁ := h₁.rest_lt (by decide)
    exact (ih.path [] _ (by omega)).mono fun segs s₂ h₂ =>
      shallow_closeOperand _ |>.mono fun _ t ht => by omega

lemma path_within (ih : ExprShallow fuel) (acc : List PathSeg) :
    Within (fuel + 1) 1 (path (fuel + 1) acc) := by
  intro s hs
  simp -zeta only [path, shallow_bind]
  -- each form of a segment reads a token, then flows into a join point that reads an optional
  -- index, and that into one that reads the next segment if a dot follows
  extract_lets more next
  have hmore : ∀ acc' t, t.rest < s.rest → Shallow (more acc') t fun _ u => u.rest ≤ s.rest := by
    intro acc' t ht
    simp only [more, shallow_bind, shallow_pure, shallow_ite, shallow_accept, Bool.false_eq_true,
      true_implies, not_true_eq_false, false_implies, and_true, true_and, not_false_eq_true]
    refine ⟨fun h => ?_, fun _ => ht.le⟩
    have h := h.rest_lt (by decide)
    exact (ih.path _ _ (by omega)).mono fun _ u hu => by omega
  have hnext : ∀ seg t, t.rest < s.rest → Shallow (next seg) t fun _ u => u.rest ≤ s.rest := by
    intro seg t ht
    simp only [next, shallow_bind, shallow_pure, shallow_ite, shallow_accept, shallow_failAt,
      Bool.false_eq_true, true_implies, not_true_eq_false, false_implies, and_true, true_and,
      not_false_eq_true, ne_eq, reduceCtorEq, implies_true]
    refine ⟨fun h => ?_, fun _ => hmore _ t ht⟩
    have h := h.rest_lt (by decide)
    refine (ih.expr _ (by omega)).mono fun i u hu h' => ?_
    have h' := h'.rest_lt (by decide)
    exact hmore _ _ (by omega)
  clear_value more next
  simp only [shallow_bind, shallow_pure, shallow_ite, shallow_accept, shallow_fail,
    Bool.false_eq_true, true_implies, not_true_eq_false, false_implies, and_true, true_and,
    not_false_eq_true, ne_eq, reduceCtorEq, implies_true]
  exact ⟨fun h => shallow_identBefore _ _ fun _ => hnext _ _ (h.rest_lt (by decide)),
    fun _ => ⟨fun h => hnext _ _ (h.rest_lt (by decide)),
      fun _ _ h => hnext _ _ (h.rest_lt (by decide))⟩⟩

/-- Every function of the expression parser stays within its fuel at its rank.

**Proof sketch.** Induction on the fuel: at zero no state has room, and one fuel more is each
function's own lemma above from the ranks one fuel below. -/
theorem exprShallow (fuel : Nat) : ExprShallow fuel := by
  induction fuel with
  | zero =>
    refine ⟨?_, ?_, fun _ => ?_, fun _ _ => ?_, ?_, ?_, ?_, fun _ => ?_, fun _ => ?_⟩ <;>
      intro s hs <;> omega
  | succ fuel ih =>
    exact
      { expr := fun s hs => by simpa only [expr] using ih.ternary s (by omega)
        ternary := ternary_within ih
        binary := binary_within ih
        binaryRest := binaryRest_within ih
        unary := unary_within ih
        cast := cast_within ih
        primary := primary_within ih
        path := path_within ih
        arguments := arguments_within ih }

/-- A call reads its name and parenthesis before its arguments, which then have room at the
caller's fuel. -/
lemma shallow_call {s : ParserState} (hs : 64 * s.rest ≤ fuel) :
    Shallow (call fuel) s fun _ t => t.rest < s.rest :=
  shallow_callWith fun t ht => (exprShallow fuel).arguments [] t (by omega)

/-- The size of an array: nothing, a `while` condition or a count. -/
lemma arraySize_within (fuel : Nat) : Within fuel 18 (arraySize fuel) := by
  intro s hs
  simp only [arraySize, shallow_bind, shallow_pure, shallow_ite, shallow_accept, shallow_failAt,
    Bool.false_eq_true, true_implies, not_true_eq_false, false_implies, and_true, true_and,
    not_false_eq_true, ne_eq, reduceCtorEq, implies_true]
  refine ⟨fun h => (h.rest_lt (by decide)).le, fun _ => ⟨fun h => ?_, fun _ => ?_⟩⟩
  · -- a `while` condition
    have h := h.rest_lt (by decide)
    refine ((exprShallow fuel).expr _ (by omega)).mono fun _ t ht h₁ h₂ => ?_
    have h₁ := h₁.rest_lt (by decide)
    have h₂ := h₂.rest_lt (by decide)
    omega
  · -- a count
    refine ((exprShallow fuel).expr s hs).mono fun _ t ht h₁ => ?_
    have h₁ := h₁.rest_lt (by decide)
    omega

/-! ### Members -/

/-- The ranks of the member parser at one fuel. A member reads a token in every run that
succeeds, so a block reads one member per round. -/
structure MembersShallow (fuel : Nat) : Prop where
  member : Advances fuel 1 (member fuel)
  memberBlock : ∀ what acc, Within fuel 2 (memberBlock fuel what acc)
  memberConditional : ∀ span, Within fuel 19 (memberConditional fuel span)
  memberBody : Within fuel 2 (memberBody fuel)

lemma member_advances (ih : MembersShallow fuel) : Advances (fuel + 1) 1 (member (fuel + 1)) := by
  intro s hs
  simp -zeta only [member, shallow_bind, shallow_spanAt]
  -- every form but a conditional ends in its trailing attributes and semicolon
  extract_lets jp
  have hjp : ∀ r t, t.rest < s.rest → Shallow (jp r) t fun _ u => u.rest < s.rest := by
    intro r t ht
    simp only [jp, shallow_bind]
    refine (shallow_trailingAttributes r).mono fun _ u hu => shallow_expectSemicolon.mono
      fun _ v hv => ?_
    simp only [shallow_pure]
    omega
  clear_value jp
  refine shallow_peekCall _ fun b => ?_
  simp only [pure_bind, shallow_bind, shallow_ite, shallow_accept, shallow_fail, shallow_failAt,
    shallow_peekAt, Bool.false_eq_true, true_implies, not_true_eq_false, false_implies, and_true,
    true_and, not_false_eq_true, ne_eq, reduceCtorEq, implies_true, shallow_kindAt, shallow_advance]
  refine ⟨fun _ => (shallow_call (by omega)).mono fun c t ht => hjp _ t ht,
    fun _ => shallow_peekTypeStart _ fun b => ⟨fun _ => ?_, fun _ => ?_⟩⟩
  · -- a declaration: an array, variables or a pointer
    refine (shallow_typeUse false).mono fun ty s₁ h₁ => shallow_peekArrayDeclarator _ fun b =>
      ⟨fun _ => ?_, fun _ => ⟨fun h => ?_, fun _ h => ?_⟩⟩
    · have h₂ := ParserState.rest_skip s₁ 2
      exact shallow_identBefore _ _ fun name => (arraySize_within fuel _ (by omega)).mono
        fun size t ht => hjp _ t (by omega)
    · have h := h.rest_lt (by decide)
      exact (shallow_memberVariable _ _).mono fun r t ht => hjp r t (by omega)
    · have h := h.rest_lt (by decide)
      exact (shallow_pointerTail _ _).mono fun r t ht => hjp r t (by omega)
  · refine ⟨fun h => ?_, fun _ h => ?_⟩
    · -- padding
      have h := h.rest_lt (by decide)
      refine ((exprShallow fuel).expr _ (by omega)).mono fun size t ht h' => hjp _ _ ?_
      have h' := h'.rest_lt (by decide)
      omega
    · -- a conditional
      have h := h.rest_lt (by decide)
      exact (ih.memberConditional _ _ (by omega)).mono fun _ t ht => by omega

lemma memberBlock_within (ih : MembersShallow fuel) (what : String) (acc : List Stmt) :
    Within (fuel + 1) 2 (memberBlock (fuel + 1) what acc) := by
  intro s hs
  simp only [memberBlock, shallow_bind, shallow_pure, shallow_ite, shallow_accept, shallow_failAt,
    shallow_peekAt, Bool.false_eq_true, true_implies, not_true_eq_false, false_implies, and_true,
    true_and, not_false_eq_true, ne_eq, reduceCtorEq, implies_true]
  refine ⟨fun h => (h.rest_lt (by decide)).le, fun _ _ => ?_⟩
  exact (ih.member s (by omega)).mono fun m s₁ h₁ =>
    (ih.memberBlock _ _ s₁ (by omega)).mono fun _ t ht => by omega

lemma memberConditional_within (ih : MembersShallow fuel) (span : Span) :
    Within (fuel + 1) 19 (memberConditional (fuel + 1) span) := by
  intro s hs
  simp only [memberConditional, shallow_bind, shallow_pure, shallow_ite, shallow_accept,
    shallow_failAt, shallow_get, Bool.false_eq_true, true_implies, not_true_eq_false, false_implies,
    and_true, true_and, not_false_eq_true, ne_eq, reduceCtorEq, implies_true]
  refine ((exprShallow fuel).expr s (by omega)).mono fun c s₁ h₁ h => ?_
  have h := h.rest_lt (by decide)
  refine (ih.memberBody _ (by omega)).mono fun t s₂ h₂ => ⟨fun h' => ?_, fun _ => ?_⟩
  · have h' := h'.rest_lt (by decide)
    exact (ih.memberBody _ (by omega)).mono fun e s₃ h₃ =>
      shallow_skipSemicolons _ |>.mono fun _ u hu => by omega
  · exact shallow_skipSemicolons _ |>.mono fun _ u hu => by omega

lemma memberBody_within (ih : MembersShallow fuel) : Within (fuel + 1) 2 (memberBody (fuel + 1)) := by
  intro s hs
  simp only [memberBody, shallow_bind, shallow_pure, shallow_ite, shallow_accept,
    Bool.false_eq_true, true_implies, not_true_eq_false, false_implies, and_true, true_and,
    not_false_eq_true]
  refine ⟨fun h => ?_, fun _ => (ih.member s (by omega)).mono fun _ t ht => ht.le⟩
  have h := h.rest_lt (by decide)
  exact (ih.memberBlock _ _ _ (by omega)).mono fun _ t ht => by omega

/-- Every function of the member parser stays within its fuel at its rank, and a member reads
a token.

**Proof sketch.** Induction on the fuel, as for expressions. -/
theorem membersShallow (fuel : Nat) : MembersShallow fuel := by
  induction fuel with
  | zero =>
    refine ⟨?_, fun _ _ => ?_, fun _ => ?_, ?_⟩ <;> intro s hs <;> omega
  | succ fuel ih =>
    exact ⟨member_advances ih, memberBlock_within ih, memberConditional_within ih,
      memberBody_within ih⟩

/-! ### Function bodies -/

/-- The ranks of the parser of function bodies at one fuel. A statement reads a token in every
run that succeeds, so a block reads one statement per round. -/
structure FunShallow (fuel : Nat) : Prop where
  functionStatement : Advances fuel 2 (functionStatement fuel)
  statementBody : Within fuel 3 (statementBody fuel)
  statementBlock : ∀ what acc, Within fuel 3 (statementBlock fuel what acc)

/-- An assignment reads its name and operator before its value. -/
lemma assignment_advances (fuel : Nat) : Advances fuel 1 (assignment fuel) := by
  intro s hs
  -- at fuel zero no state has room
  obtain _ | fuel := fuel
  · omega
  simp only [assignment, shallow_bind, shallow_spanAt]
  refine shallow_identHere _ fun name hname => ?_
  have hpos : 0 < s.rest := ParserState.lt_rest_of_ahead_ne_eof (by rw [hname]; simp)
  have h₂ := ParserState.rest_skip s 2
  simp only [shallow_pure, shallow_kindAt, shallow_advance]
  exact ((exprShallow fuel).expr _ (by omega)).mono fun _ t ht => by omega

/-- A local declaration reads a type use, and then at least a name. -/
lemma localDeclaration_advances (fuel : Nat) : Advances fuel 1 (localDeclaration fuel) := by
  intro s hs
  -- at fuel zero no state has room
  obtain _ | fuel := fuel
  · omega
  simp only [localDeclaration, shallow_bind, shallow_spanAt]
  refine (shallow_typeUse true).mono fun ty s₁ h₁ => ?_
  simp only [shallow_bind, shallow_pure, shallow_ite, shallow_accept, shallow_fail,
    Bool.false_eq_true, true_implies, not_true_eq_false, false_implies, and_true, true_and,
    not_false_eq_true, ne_eq, reduceCtorEq, implies_true, Bool.not_true, Bool.not_false]
  refine fun h => (shallow_memberVariable _ _).mono fun d s₂ h₂ => ⟨fun h' => ?_, fun _ => ?_⟩
  · -- an initializer, for a single variable only
    have h := h.rest_lt (by decide)
    have h' := h'.rest_lt (by decide)
    split
    · simp only [shallow_bind, shallow_pure]
      exact ((exprShallow fuel).expr _ (by omega)).mono fun _ t ht => by omega
    · simp
  · have h := h.rest_lt (by decide)
    omega

lemma functionStatement_advances (ih : FunShallow fuel) :
    Advances (fuel + 1) 2 (functionStatement (fuel + 1)) := by
  intro s hs
  simp only [functionStatement, shallow_bind, shallow_spanAt]
  refine shallow_peekAssignment _ fun b => ?_
  simp only [shallow_bind, shallow_pure, shallow_ite, shallow_accept, shallow_fail, shallow_failAt,
    shallow_peekAt, shallow_kindAt, Bool.false_eq_true, true_implies, not_true_eq_false,
    false_implies, and_true, true_and, not_false_eq_true, ne_eq, reduceCtorEq, implies_true,
    shallow_orM]
  refine ⟨fun _ => (assignment_advances fuel s (by omega)).mono fun _ s₁ h₁ =>
      shallow_expectSemicolon.mono fun _ t ht => by omega,
    fun _ => ⟨fun h => ?_, fun _ => ⟨fun h => ?_, fun _ => ⟨fun h => ?_, fun _ => ⟨fun h => ?_,
    fun _ => ⟨fun h => ?_, fun _ => ⟨fun h => ?_, fun _ => shallow_peekCall _ fun b =>
    ⟨fun _ => ?_, fun _ => shallow_peekTypeStart _ fun _ _ => ?_⟩⟩⟩⟩⟩⟩⟩⟩
  · -- `return`, with a value or without
    have h := h.rest_lt (by decide)
    refine ⟨fun _ => shallow_expectSemicolon.mono fun _ t ht => by omega, fun _ => ?_⟩
    exact ((exprShallow fuel).expr _ (by omega)).mono fun _ s₁ h₁ =>
      shallow_expectSemicolon.mono fun _ t ht => by omega
  · -- `break`
    have h := h.rest_lt (by decide)
    exact shallow_expectSemicolon.mono fun _ t ht => by omega
  · -- `continue`
    have h := h.rest_lt (by decide)
    exact shallow_expectSemicolon.mono fun _ t ht => by omega
  · -- `if`, with an `else` branch or without
    have h := h.rest_lt (by decide)
    refine ((exprShallow fuel).expr _ (by omega)).mono fun c s₁ h₁ h₂ => ?_
    have h₂ := h₂.rest_lt (by decide)
    refine (ih.statementBody _ (by omega)).mono fun _ s₃ h₃ => ⟨fun h₄ => ?_, fun _ => by omega⟩
    have h₄ := h₄.rest_lt (by decide)
    exact (ih.statementBody _ (by omega)).mono fun _ t ht => by omega
  · -- `while`
    have h := h.rest_lt (by decide)
    refine ((exprShallow fuel).expr _ (by omega)).mono fun c s₁ h₁ h₂ => ?_
    have h₂ := h₂.rest_lt (by decide)
    exact (ih.statementBody _ (by omega)).mono fun _ t ht => by omega
  · -- `for`: a declaration, a condition and a step, each before a separator of either kind
    have h := h.rest_lt (by decide)
    refine (localDeclaration_advances fuel _ (by omega)).mono fun init s₁ h₁ =>
      ⟨fun h₂ => ?_, fun _ h₂ => ?_⟩
    all_goals
      have h₂ := h₂.rest_lt (by decide)
      refine ((exprShallow fuel).expr _ (by omega)).mono fun c s₃ h₃ => ⟨fun h₄ => ?_, fun _ h₄ => ?_⟩
    all_goals
      have h₄ := h₄.rest_lt (by decide)
      refine shallow_peekAssignment _ fun _ _ => (assignment_advances fuel _ (by omega)).mono
        fun step s₅ h₅ h₆ => ?_
      have h₆ := h₆.rest_lt (by decide)
      exact (ih.statementBody _ (by omega)).mono fun _ t ht => by omega
  · -- a call
    exact (shallow_call (by omega)).mono fun _ s₁ h₁ => shallow_expectSemicolon.mono
      fun _ t ht => by omega
  · -- a local declaration
    exact (localDeclaration_advances fuel s (by omega)).mono fun _ s₁ h₁ =>
      shallow_expectSemicolon.mono fun _ t ht => by omega

lemma statementBody_within (ih : FunShallow fuel) :
    Within (fuel + 1) 3 (statementBody (fuel + 1)) := by
  intro s hs
  simp only [statementBody, shallow_bind, shallow_pure, shallow_ite, shallow_accept,
    Bool.false_eq_true, true_implies, not_true_eq_false, false_implies, and_true, true_and,
    not_false_eq_true]
  refine ⟨fun h => ?_, fun _ => (ih.functionStatement s (by omega)).mono fun _ t ht => ht.le⟩
  have h := h.rest_lt (by decide)
  exact (ih.statementBlock _ _ _ (by omega)).mono fun _ t ht => by omega

lemma statementBlock_within (ih : FunShallow fuel) (what : String) (acc : List Stmt) :
    Within (fuel + 1) 3 (statementBlock (fuel + 1) what acc) := by
  intro s hs
  simp only [statementBlock, shallow_bind, shallow_pure, shallow_ite, shallow_accept,
    shallow_failAt, shallow_peekAt, Bool.false_eq_true, true_implies, not_true_eq_false,
    false_implies, and_true, true_and, not_false_eq_true, ne_eq, reduceCtorEq, implies_true]
  refine ⟨fun h => (h.rest_lt (by decide)).le, fun _ _ => ?_⟩
  exact (ih.functionStatement s (by omega)).mono fun _ s₁ h₁ =>
    (ih.statementBlock _ _ s₁ (by omega)).mono fun _ t ht => by omega

/-- Every function of the parser of function bodies stays within its fuel at its rank, and a
statement reads a token.

**Proof sketch.** Induction on the fuel, as for expressions. -/
theorem funShallow (fuel : Nat) : FunShallow fuel := by
  induction fuel with
  | zero =>
    refine ⟨?_, ?_, fun _ _ => ?_⟩ <;> intro s hs <;> omega
  | succ fuel ih =>
    exact ⟨functionStatement_advances ih, statementBody_within ih, statementBlock_within ih⟩

/-! ### Declarations -/

/-- Recording a function's name, entering or leaving a namespace, or registering a type changes
nothing ahead. -/
lemma shallow_modify_of {s : ParserState} {g : ParserState → ParserState} (hg : (g s).rest = s.rest)
    {P : Unit → ParserState → Prop} (h : ∀ t, t.rest = s.rest → P () t) :
    Shallow (modify g) s P :=
  (shallow_modify g P).mpr (h _ hg)

/-- Parameters, each a type use, up to the closing parenthesis. -/
lemma parameters_within (fuel : Nat) :
    ∀ unnamed acc, Within fuel 1 (parameters fuel unnamed acc) := by
  induction fuel with
  | zero => intro _ _ s hs; omega
  | succ fuel ih =>
    intro unnamed acc s hs
    simp only [parameters, shallow_bind]
    refine (shallow_typeUse true).mono fun ty s₁ h₁ => ?_
    simp only [shallow_bind, shallow_pure, shallow_ite, shallow_accept, shallow_fail,
      Bool.false_eq_true, true_implies, not_true_eq_false, false_implies, and_true, true_and,
      not_false_eq_true, ne_eq, reduceCtorEq, implies_true]
    refine ⟨fun h => shallow_identBefore _ _ fun _ => ?_, fun _ => ?_⟩
    · have h := h.rest_lt (by decide)
      refine ⟨fun h' => ?_, fun _ h' => ?_⟩ <;> have h' := h'.rest_lt (by decide)
      · exact (ih _ _ _ (by omega)).mono fun _ t ht => by omega
      · omega
    · refine ⟨fun h' => ?_, fun _ h' => ?_⟩ <;> have h' := h'.rest_lt (by decide)
      · exact (ih _ _ _ (by omega)).mono fun _ t ht => by omega
      · omega

/-- Enum entries, each a name with an optional value, up to the closing brace. -/
lemma enumEntries_within (fuel : Nat) : ∀ acc, Within fuel 1 (enumEntries fuel acc) := by
  induction fuel with
  | zero => intro _ s hs; omega
  | succ fuel ih =>
    intro acc s hs
    simp only [enumEntries, shallow_bind, shallow_pure, shallow_ite, shallow_accept, shallow_fail,
      shallow_failAt, shallow_peekAt, shallow_spanAt, Bool.false_eq_true, true_implies,
      not_true_eq_false, false_implies, and_true, true_and, not_false_eq_true, ne_eq, reduceCtorEq,
      implies_true]
    refine ⟨fun h => (h.rest_lt (by decide)).le, fun _ => ⟨fun h => ?_, fun _ h => ?_⟩⟩
    · -- a name with a value
      have h := h.rest_lt (by decide)
      refine shallow_identBefore _ _ fun _ => ((exprShallow fuel).expr _ (by omega)).mono
        fun _ s₁ h₁ => ⟨fun h' => ?_, fun _ h' => ?_⟩ <;> have h' := h'.rest_lt (by decide)
      · exact (ih _ _ (by omega)).mono fun _ t ht => by omega
      · omega
    · -- a name alone
      have h := h.rest_lt (by decide)
      refine shallow_identBefore _ _ fun _ => ⟨fun h' => ?_, fun _ h' => ?_⟩ <;>
        have h' := h'.rest_lt (by decide)
      · exact (ih _ _ (by omega)).mono fun _ t ht => by omega
      · omega

/-- Bitfield entries, each a name or padding with a width, up to the closing brace. -/
lemma bitfieldEntries_within (fuel : Nat) : ∀ acc, Within fuel 1 (bitfieldEntries fuel acc) := by
  induction fuel with
  | zero => intro _ s hs; omega
  | succ fuel ih =>
    intro acc s hs
    simp only [bitfieldEntries, shallow_bind, shallow_pure, shallow_ite, shallow_accept,
      shallow_fail, shallow_failAt, shallow_peekAt, Bool.false_eq_true, true_implies,
      not_true_eq_false, false_implies, and_true, true_and, not_false_eq_true, ne_eq, reduceCtorEq,
      implies_true]
    refine ⟨fun h => (h.rest_lt (by decide)).le, fun _ => ⟨fun h => ?_, fun _ h => ?_⟩⟩
    · -- a named field
      have h := h.rest_lt (by decide)
      exact shallow_identBefore _ _ fun _ => ((exprShallow fuel).expr _ (by omega)).mono
        fun _ s₁ h₁ => shallow_expectSemicolon.mono fun _ s₂ h₂ =>
          (ih _ _ (by omega)).mono fun _ t ht => by omega
    · -- padding
      have h := h.rest_lt (by decide)
      exact ((exprShallow fuel).expr _ (by omega)).mono fun _ s₁ h₁ =>
        shallow_expectSemicolon.mono fun _ s₂ h₂ => (ih _ _ (by omega)).mono fun _ t ht => by omega

/-- Base types: each round steps back to the name just read and reads it as a qualified name,
then reads a comma and the next name. -/
lemma bases_within (fuel : Nat) : ∀ acc, Within fuel 1 (bases fuel acc) := by
  induction fuel with
  | zero => intro _ s hs; omega
  | succ fuel ih =>
    intro acc s hs
    simp only [bases, shallow_bind, shallow_retreat]
    refine shallow_namespacePath.mono fun base s₁ h₁ => ?_
    have h₀ := ParserState.rest_retreat_le s 1
    refine shallow_instantiateFinished? _ _ fun r => ?_
    split
    · simp
    · simp only [shallow_bind, shallow_pure, shallow_ite, shallow_accept, Bool.false_eq_true,
        true_implies, not_true_eq_false, false_implies, and_true, true_and, not_false_eq_true]
      refine ⟨fun h => ?_, fun _ => by omega⟩
      have h := h.rest_lt (by decide)
      exact (ih _ _ (by omega)).mono fun _ t ht => by omega

/-- A function reads its parameters, then its body after the opening brace. -/
lemma function_within (fuel : Nat) : Within fuel 1 (function fuel) := by
  intro s hs
  simp only [function, shallow_bind, shallow_pure, shallow_ite, shallow_accept, shallow_failAt,
    shallow_spanAt, shallow_get, Bool.false_eq_true, true_implies, not_true_eq_false, false_implies,
    and_true, true_and, not_false_eq_true, ne_eq, reduceCtorEq, implies_true]
  refine shallow_identBefore _ _ fun name => ?_
  refine fun _ => shallow_modify_of rfl fun s₁ h₁ => ⟨fun h h' => ?_, fun _ => ?_⟩
  · -- no parameters
    have h := h.rest_lt (by decide)
    have h' := h'.rest_lt (by decide)
    exact (funShallow fuel).statementBlock _ _ _ (by omega) |>.mono fun _ t ht => by omega
  · refine (parameters_within fuel 0 [] s₁ (by omega)).mono fun _ s₂ h₂ h₃ => ?_
    have h₃ := h₃.rest_lt (by decide)
    exact (funShallow fuel).statementBlock _ _ _ (by omega) |>.mono fun _ t ht => by omega

/-- A struct reads its bases after a colon and its members after the opening brace. -/
lemma structDecl_within (fuel : Nat) : Within fuel 0 (structDecl fuel) := by
  intro s hs
  simp only [structDecl, shallow_bind, shallow_spanAt]
  refine shallow_identBefore _ _ fun name => shallow_openType _ _ _ fun q s₁ h₁ => ?_
  simp only [shallow_bind, shallow_pure, shallow_ite, shallow_accept, shallow_failAt,
    shallow_modify, Bool.false_eq_true, true_implies, not_true_eq_false, false_implies, and_true,
    true_and, not_false_eq_true, ne_eq, reduceCtorEq, implies_true, finishType,
    ParserState.rest_update]
  refine ⟨fun h => ?_, fun _ _ h => ?_⟩
  · -- bases, then members
    have h := h.rest_lt (by decide)
    refine (bases_within fuel [] _ (by omega)).mono fun _ s₂ h₂ h₃ => ?_
    have h₃ := h₃.rest_lt (by decide)
    exact (membersShallow fuel).memberBlock _ _ _ (by omega) |>.mono fun _ t ht => by omega
  · -- members only
    have h := h.rest_lt (by decide)
    exact (membersShallow fuel).memberBlock _ _ _ (by omega) |>.mono fun _ t ht => by omega

lemma unionDecl_within (fuel : Nat) : Within fuel 2 (unionDecl fuel) := by
  intro s hs
  simp only [unionDecl, shallow_bind, shallow_spanAt]
  refine shallow_identBefore _ _ fun name => shallow_openType _ _ _ fun q s₁ h₁ => ?_
  simp only [shallow_pure, shallow_modify, finishType, ParserState.rest_update]
  exact (membersShallow fuel).memberBlock _ _ s₁ (by omega) |>.mono fun _ t ht => by omega

lemma enumDecl_within (fuel : Nat) : Within fuel 0 (enumDecl fuel) := by
  intro s hs
  simp only [enumDecl, shallow_bind, shallow_spanAt]
  refine shallow_identBefore _ _ fun name => (shallow_typeUse false).mono fun under s₁ h₁ => ?_
  simp only [shallow_bind, shallow_ite, shallow_failAt, true_and, not_false_eq_true, ne_eq,
    reduceCtorEq, implies_true]
  refine fun _ => ?_
  split
  · simp only [shallow_bind, shallow_pure, shallow_ite, shallow_accept, shallow_failAt,
      shallow_modify, Bool.false_eq_true, true_implies, false_implies, and_true, not_false_eq_true,
      ne_eq, reduceCtorEq, implies_true, finishType, ParserState.rest_update]
    refine fun _ => shallow_openType _ _ _ fun q s₂ h₂ h₃ => ?_
    have h₃ := h₃.rest_lt (by decide)
    exact (enumEntries_within fuel [] _ (by omega)).mono fun _ t ht => by omega
  · simp

lemma bitfieldDecl_within (fuel : Nat) : Within fuel 1 (bitfieldDecl fuel) := by
  intro s hs
  simp only [bitfieldDecl, shallow_bind, shallow_spanAt]
  refine shallow_identBefore _ _ fun name => shallow_openType _ _ _ fun q s₁ h₁ => ?_
  simp only [shallow_pure, shallow_modify, finishType, ParserState.rest_update]
  exact (bitfieldEntries_within fuel [] s₁ (by omega)).mono fun _ t ht => by omega

/-- A top-level placement reads a type use first. -/
lemma placement_advances (fuel : Nat) : Advances fuel 0 (placement fuel) := by
  intro s hs
  simp only [placement, shallow_bind, shallow_spanAt]
  refine (shallow_typeUse false).mono fun ty s₁ h₁ => shallow_peekArrayDeclarator _ fun b => ?_
  simp only [shallow_bind, shallow_pure, shallow_ite, shallow_accept, shallow_fail, shallow_failAt,
    shallow_kindAt, shallow_advance, Bool.false_eq_true, true_implies, not_true_eq_false,
    false_implies, and_true, true_and, not_false_eq_true, ne_eq, reduceCtorEq, implies_true]
  refine ⟨fun _ => ?_, fun _ => ⟨fun h => ?_, fun _ h => ?_⟩⟩
  · -- an array, placed at an offset
    have h₂ := ParserState.rest_skip s₁ 2
    refine shallow_identBefore _ _ fun _ => (arraySize_within fuel _ (by omega)).mono
      fun _ s₃ h₃ h₄ => ?_
    have h₄ := h₄.rest_lt (by decide)
    exact ((exprShallow fuel).expr _ (by omega)).mono fun _ t ht => by omega
  · -- a variable, placed at an offset, in the input or output variables, or at the cursor
    have h := h.rest_lt (by decide)
    refine shallow_identBefore _ _ fun _ =>
      ⟨fun h' => ?_, fun _ => ⟨fun h' => ?_, fun _ => ⟨fun h' => ?_, fun _ => by omega⟩⟩⟩ <;>
      have h' := h'.rest_lt (by decide)
    · exact ((exprShallow fuel).expr _ (by omega)).mono fun _ t ht => by omega
    · omega
    · omega
  · -- a pointer, placed at an offset
    have h := h.rest_lt (by decide)
    refine (shallow_pointerTail _ _).mono fun _ s₂ h₂ h₃ => ?_
    have h₃ := h₃.rest_lt (by decide)
    exact ((exprShallow fuel).expr _ (by omega)).mono fun _ t ht => by omega

/-! ### Programs -/

/-- The ranks of the top-level parser at one fuel. A top-level statement reads a token in every
run that succeeds, so a namespace or a program reads one statement per round. -/
structure TopShallow (fuel : Nat) : Prop where
  statements : Advances fuel 2 (statements fuel)
  namespaceBody : ∀ acc, Within fuel 3 (namespaceBody fuel acc)

lemma statements_advances (ih : TopShallow fuel) :
    Advances (fuel + 1) 2 (statements (fuel + 1)) := by
  intro s hs
  simp only [statements, shallow_bind, shallow_pure, shallow_ite, shallow_accept, shallow_fail,
    shallow_peekAt, shallow_kindAt, shallow_get, Bool.false_eq_true, true_implies,
    not_true_eq_false, false_implies, and_true, true_and, not_false_eq_true, ne_eq, reduceCtorEq,
    implies_true]
  -- every statement but stray semicolons and a namespace ends in its trailing attributes and
  -- semicolon
  have tail : ∀ r t, t.rest < s.rest →
      Shallow (trailingAttributes r) t fun _ u => Shallow expectSemicolon u fun _ v => v.rest < s.rest :=
    fun r t ht => (shallow_trailingAttributes r).mono fun _ u hu =>
      shallow_expectSemicolon.mono fun _ v hv => by omega
  refine ⟨fun h => shallow_skipSemicolons_of_semicolon h, fun _ => ⟨fun h _ => ?_, fun _ =>
    ⟨fun h => ?_, fun _ => shallow_peekCall _ fun b => ⟨fun _ => ?_, fun _ =>
    shallow_peekTypeStart _ fun b => ⟨fun _ => ?_, fun _ => ⟨fun h => ?_, fun _ => ⟨fun h => ?_,
    fun _ => ⟨fun h => ?_, fun _ => ⟨fun h => ?_, fun _ h => ?_⟩⟩⟩⟩⟩⟩⟩⟩⟩
  · -- a namespace: its name, its body after the opening brace, then stray semicolons
    have h := h.rest_lt (by decide)
    refine shallow_namespacePath.mono fun path s₁ h₁ => shallow_modify_of rfl fun s₂ h₂ h₃ => ?_
    have h₃ := h₃.rest_lt (by decide)
    exact (ih.namespaceBody [] _ (by omega)).mono fun body s₄ h₄ =>
      shallow_modify_of rfl fun s₅ h₅ => shallow_skipSemicolons _ |>.mono fun _ t ht => by omega
  · -- a `using` alias
    have h := h.rest_lt (by decide)
    exact shallow_usingDecl.mono fun r t ht => tail r t (by omega)
  · -- a call
    exact (shallow_call (by omega)).mono fun c t ht => tail _ t ht
  · -- a placement
    exact (placement_advances fuel s (by omega)).mono fun r t ht => tail r t ht
  · -- a struct
    have h := h.rest_lt (by decide)
    exact (structDecl_within fuel _ (by omega)).mono fun r t ht => tail r t (by omega)
  · -- a union
    have h := h.rest_lt (by decide)
    exact (unionDecl_within fuel _ (by omega)).mono fun r t ht => tail r t (by omega)
  · -- an enum
    have h := h.rest_lt (by decide)
    exact (enumDecl_within fuel _ (by omega)).mono fun r t ht => tail r t (by omega)
  · -- a bitfield
    have h := h.rest_lt (by decide)
    exact (bitfieldDecl_within fuel _ (by omega)).mono fun r t ht => tail r t (by omega)
  · -- a function
    have h := h.rest_lt (by decide)
    exact (function_within fuel _ (by omega)).mono fun r t ht => tail r t (by omega)

lemma namespaceBody_within (ih : TopShallow fuel) (acc : List Stmt) :
    Within (fuel + 1) 3 (namespaceBody (fuel + 1) acc) := by
  intro s hs
  simp only [namespaceBody, shallow_bind, shallow_pure, shallow_ite, shallow_accept, shallow_failAt,
    shallow_peekAt, Bool.false_eq_true, true_implies, not_true_eq_false, false_implies, and_true,
    true_and, not_false_eq_true, ne_eq, reduceCtorEq, implies_true]
  refine ⟨fun h => (h.rest_lt (by decide)).le, fun _ _ => ?_⟩
  exact (ih.statements s (by omega)).mono fun _ s₁ h₁ =>
    (ih.namespaceBody _ s₁ (by omega)).mono fun _ t ht => by omega

/-- Every function of the top-level parser stays within its fuel at its rank, and a top-level
statement reads a token.

**Proof sketch.** Induction on the fuel, as for expressions. -/
theorem topShallow (fuel : Nat) : TopShallow fuel := by
  induction fuel with
  | zero =>
    refine ⟨?_, fun _ => ?_⟩ <;> intro s hs <;> omega
  | succ fuel ih =>
    exact ⟨statements_advances ih, namespaceBody_within ih⟩

/-- A program reads one top-level statement per round, up to the end. -/
lemma program_within (fuel : Nat) : ∀ acc, Within fuel 3 (program fuel acc) := by
  induction fuel with
  | zero => intro _ s hs; omega
  | succ fuel ih =>
    intro acc s hs
    simp only [program, shallow_bind, shallow_pure, shallow_ite, shallow_peekAt]
    refine ⟨fun _ => le_rfl, fun _ => ?_⟩
    exact ((topShallow fuel).statements s (by omega)).mono fun _ s₁ h₁ =>
      (ih _ s₁ (by omega)).mono fun _ t ht => by omega

end Parse

/-- **The parser never runs out of fuel.** On every token array, whether or not it ends in the
end token, parsing succeeds or fails with a fault of the grammar, never with `tooDeep`: the
parser behaves as the unbounded recursive descent, which ends on every input.

**Proof sketch.** The program parser has room at the fuel `parseTokens` gives it, 64 for each
token and 128 more (`Parse.program_within`), and a run with room never stops at the depth
limit. -/
theorem parseTokens_fault_ne_tooDeep (tokens : Array Token) (e : ParseError)
    (h : parseTokens tokens = .error e) : e.fault ≠ .tooDeep := by
  simp only [parseTokens, StateT.run', Functor.map, Except.map] at h
  split at h
  · rename_i e' hrun
    cases h
    refine (?_ : Parse.Shallow _ _ fun (_ : Program) _ => True).1 e hrun
    simp only [Parse.shallow_bind]
    refine (Parse.program_within _ [] _ ?_).mono fun stmts t _ => ?_
    · simp only [ParserState.rest]
      omega
    · split <;> simp
  · cases h

/-- The empty token array fails for want of statements, not of fuel. -/
theorem parseTokens_empty_fault : ∃ e, parseTokens #[] = .error e ∧ e.fault ≠ .tooDeep :=
  ⟨_, rfl, parseTokens_fault_ne_tooDeep #[] _ rfl⟩

end ByteLayout

import Mathlib
import ByteLayout.Syntax.Parser.Stmt

set_option autoImplicit false

/-!
# Reasoning about parsing

A parser `x : Parse α` reads a parser state and either fails or returns a value with a new
state. `Parse.Wp x s post` says that every successful run of `x` from `s` ends in a value and
a state satisfying `post`, as `Eval.Wp` does for evaluations.

The rules take `Wp` through the monad and through the parser's primitives, each of which
moves the position and reads the tokens or the registry. They are `simp` lemmas, so
`simp only` walks through a parser's `do` block and leaves a goal for each call it cannot
see into: a recursive call, or a call of another parser with a lemma of its own.

## Main definitions

* `Parse.Wp` — the postcondition of the successful runs of a parser.

## Main results

* `Parse.wp_bind`, `Parse.wp_pure`, `Parse.wp_ite`, … — the rules of the monad.
* `Parse.wp_accept`, `Parse.wp_identBefore`, `Parse.wp_finishType`, … — the primitives.
-/

namespace ByteLayout

namespace Parse

variable {α β : Type}

/-- Every successful run of `x` from `s` ends in a value and a state satisfying `post`. -/
def Wp (x : Parse α) (s : ParserState) (post : α → ParserState → Prop) : Prop :=
  ∀ a s', x.run s = .ok (a, s') → post a s'

/-! ### The rules of the monad -/

section Rules

variable {s : ParserState} {P Q : α → ParserState → Prop}

lemma Wp.mono {x : Parse α} (h : Wp x s P) (hPQ : ∀ a s', P a s' → Q a s') : Wp x s Q :=
  fun a s' hx => hPQ a s' (h a s' hx)

lemma Wp.of_ok {x : Parse α} {a : α} {s' : ParserState} (hx : x.run s = .ok (a, s')) :
    Wp x s P ↔ P a s' :=
  ⟨fun h => h a s' hx, fun h b s'' hb => by rw [hx] at hb; cases hb; exact h⟩

lemma Wp.of_error {x : Parse α} {e : ParseError} (hx : x.run s = .error e) : Wp x s P :=
  fun _ _ h => by rw [hx] at h; cases h

lemma run_bind (x : Parse α) (f : α → Parse β) :
    (x >>= f).run s =
      match x.run s with
      | .ok (a, s') => (f a).run s'
      | .error e => .error e := by
  simp only [StateT.run, bind, StateT.bind]
  rcases x s with _ | ⟨a, s'⟩ <;> rfl

@[simp] lemma wp_bind (x : Parse α) (f : α → Parse β) (P : β → ParserState → Prop) :
    Wp (x >>= f) s P ↔ Wp x s fun a s' => Wp (f a) s' P := by
  unfold Wp
  rw [run_bind]
  constructor
  · intro h a s' hx b s'' hf
    exact h b s'' (by rw [hx]; exact hf)
  · intro h b s'' hr
    rcases hx : x.run s with e | ⟨a, s'⟩
    · rw [hx] at hr; cases hr
    · rw [hx] at hr; exact h a s' hx b s'' hr

@[simp] lemma wp_pure (a : α) : Wp (pure a : Parse α) s P ↔ P a s := Wp.of_ok rfl

@[simp] lemma wp_map (f : α → β) (x : Parse α) (P : β → ParserState → Prop) :
    Wp (f <$> x) s P ↔ Wp x s fun a s' => P (f a) s' := by
  rw [map_eq_pure_bind, wp_bind]
  simp only [wp_pure]

@[simp] lemma wp_get (P : ParserState → ParserState → Prop) :
    Wp (get : Parse ParserState) s P ↔ P s s :=
  Wp.of_ok rfl

@[simp] lemma wp_modify (g : ParserState → ParserState) (P : Unit → ParserState → Prop) :
    Wp (modify g : Parse Unit) s P ↔ P () (g s) :=
  Wp.of_ok rfl

@[simp] lemma wp_throw (e : ParseError) : Wp (throw e : Parse α) s P := Wp.of_error rfl

@[simp] lemma wp_ite (p : Prop) [Decidable p] (x y : Parse α) :
    Wp (if p then x else y) s P ↔ (p → Wp x s P) ∧ (¬p → Wp y s P) := by
  by_cases hp : p <;> simp [hp]

@[simp] lemma wp_orM (x y : Parse Bool) (P : Bool → ParserState → Prop) :
    Wp (x <||> y) s P ↔ Wp x s fun b s' => (b = true → P true s') ∧ (b = false → Wp y s' P) := by
  simp only [orM, wp_bind]
  refine ⟨fun h => h.mono fun b s' hb => ?_, fun h => h.mono fun b s' hb => ?_⟩
  · cases b <;> simpa [toBool] using hb
  · cases b <;> simpa [toBool] using hb

end Rules

/-! ### The primitives of the parser -/

section Primitives

variable {s : ParserState}

@[simp] lemma wp_kindAt (off : Nat) (P : Token.Kind → ParserState → Prop) :
    Wp (kindAt off) s P ↔ P ((s.tokens[s.pos + off]?.map (·.kind)).getD .eof) s :=
  Wp.of_ok rfl

@[simp] lemma wp_kindBefore (back : Nat) (P : Token.Kind → ParserState → Prop) :
    Wp (kindBefore back) s P ↔
      P (if back ≤ s.pos then (s.tokens[s.pos - back]?.map (·.kind)).getD .eof else .eof) s := by
  by_cases h : back ≤ s.pos <;> simp only [kindBefore, wp_bind, wp_get, h, ↓reduceIte, wp_pure]

@[simp] lemma wp_spanAt (off : Int) (P : Span → ParserState → Prop) :
    Wp (spanAt off) s P ↔
      P ((s.tokens[if (s.pos : Int) + off < 0 then 0
        else min ((s.pos : Int) + off).toNat (s.tokens.size - 1)]?.map (·.span)).getD ⟨0, 0, 1⟩) s :=
  Wp.of_ok rfl

@[simp] lemma wp_failAt {α : Type} (f : ParseFault) (off : Int) (P : α → ParserState → Prop) :
    Wp (failAt f off) s P := by
  simp [failAt]

@[simp] lemma wp_fail {α : Type} (f : ParseFault) (P : α → ParserState → Prop) :
    Wp (fail f) s P := wp_failAt f 0 P

@[simp] lemma wp_peekAt (c : TokenClass) (off : Nat) (P : Bool → ParserState → Prop) :
    Wp (peekAt c off) s P ↔ P (c.test ((s.tokens[s.pos + off]?.map (·.kind)).getD .eof)) s :=
  Wp.of_ok rfl

@[simp] lemma wp_peekSeq (cs : List TokenClass) (P : Bool → ParserState → Prop) :
    Wp (peekSeq cs) s P ↔
      P (cs.zipIdx.all fun (c, i) => c.test ((s.tokens[s.pos + i]?.map (·.kind)).getD .eof)) s :=
  Wp.of_ok rfl

@[simp] lemma wp_advance (n : Nat) (P : Unit → ParserState → Prop) :
    Wp (advance n) s P ↔ P () { s with pos := s.pos + n } := Wp.of_ok rfl

@[simp] lemma wp_retreat (n : Nat) (P : Unit → ParserState → Prop) :
    Wp (retreat n) s P ↔ P () { s with pos := s.pos - n } := Wp.of_ok rfl

@[simp] lemma wp_accept (cs : List TokenClass) (P : Bool → ParserState → Prop) :
    Wp (accept cs) s P ↔
      ((cs.zipIdx.all fun (c, i) => c.test ((s.tokens[s.pos + i]?.map (·.kind)).getD .eof)) →
        P true { s with pos := s.pos + cs.length }) ∧
      (¬(cs.zipIdx.all fun (c, i) => c.test ((s.tokens[s.pos + i]?.map (·.kind)).getD .eof)) →
        P false s) := by
  simp [accept]

/-- Reading an identifier, a string or a builtin name before the position only moves
nothing; the value is whatever the token holds. -/
lemma wp_identBefore (back : Nat) (P : String → ParserState → Prop) (h : ∀ n, P n s) :
    Wp (identBefore back) s P := by
  simp only [identBefore, wp_bind, wp_kindBefore]
  split <;> simp [h]

lemma wp_identHere (P : String → ParserState → Prop) (h : ∀ n, P n s) : Wp identHere s P := by
  simp only [identHere, wp_bind, wp_kindAt]
  split <;> simp [h]

lemma wp_stringBefore (back : Nat) (P : String → ParserState → Prop) (h : ∀ n, P n s) :
    Wp (stringBefore back) s P := by
  simp only [stringBefore, wp_bind, wp_kindBefore]
  split <;> simp [h]

lemma wp_builtinBefore (P : Builtin → ParserState → Prop) (h : ∀ b, P b s) :
    Wp builtinBefore s P := by
  simp only [builtinBefore, wp_bind, wp_kindBefore]
  split <;> simp [h]

/-- Skipping semicolons only moves the position. -/
lemma wp_skipSemicolons (fuel : Nat) (P : Unit → ParserState → Prop)
    (h : ∀ n, P () { s with pos := s.pos + n }) : Wp (skipSemicolons fuel) s P := by
  induction fuel generalizing s with
  | zero => simpa [skipSemicolons] using h 0
  | succ fuel ih =>
    simp only [skipSemicolons, wp_bind, wp_accept, wp_ite, wp_pure]
    refine ⟨fun _ => ⟨fun _ => ih fun n => ?_, fun _ => by simpa using h 1⟩, fun _ => ?_⟩
    · simpa [Nat.add_assoc] using h (1 + n)
    · simpa using h 0

lemma wp_expectSemicolon (P : Unit → ParserState → Prop)
    (h : ∀ n, P () { s with pos := s.pos + n }) : Wp expectSemicolon s P := by
  simp only [expectSemicolon, wp_bind, wp_accept, wp_ite, wp_failAt, wp_get]
  refine ⟨fun _ => ⟨fun _ => wp_skipSemicolons _ _ fun n => ?_, fun h => absurd trivial h⟩,
    fun _ => ⟨fun h => absurd h Bool.false_ne_true, fun _ => trivial⟩⟩
  simpa [Nat.add_assoc] using h (1 + n)

lemma wp_namespacePath_more (acc : String) (fuel : Nat) (P : String → ParserState → Prop)
    (h : ∀ q n, P q { s with pos := s.pos + n }) : Wp (namespacePath.more acc fuel) s P := by
  induction fuel generalizing s acc with
  | zero => simpa [namespacePath.more] using h acc 0
  | succ fuel ih =>
    simp only [namespacePath.more, wp_bind, wp_accept, wp_ite, wp_pure]
    refine ⟨fun _ => ⟨fun _ => wp_identBefore _ _ fun x => ih _ fun q n => ?_,
      fun h => absurd trivial h⟩, fun _ => ⟨fun h => absurd h Bool.false_ne_true,
      fun _ => by simpa using h acc 0⟩⟩
    simpa [Nat.add_assoc] using h q (2 + n)

/-- A qualified name is read by moving the position only. -/
lemma wp_namespacePath (P : String → ParserState → Prop)
    (h : ∀ q n, P q { s with pos := s.pos + n }) : Wp namespacePath s P := by
  simp only [namespacePath, wp_bind, wp_accept, wp_ite, wp_fail, wp_get]
  refine ⟨fun _ => ⟨fun _ => wp_identBefore _ _ fun x => wp_namespacePath_more _ _ _ fun q n => ?_,
    fun h => absurd trivial h⟩, fun _ => ⟨fun h => absurd h Bool.false_ne_true, fun _ => trivial⟩⟩
  simpa [Nat.add_assoc] using h q (1 + n)

/-! ### The type registry -/

lemma mem_of_lookup_eq_some {l : List (String × TypeDecl)} {k : String} {d : TypeDecl}
    (h : l.lookup k = some d) : (k, d) ∈ l := by
  obtain ⟨l₁, l₂, rfl, -⟩ := List.lookup_eq_some_iff.mp h
  simp

lemma wp_resolveType? (name : String) (P : Option String → ParserState → Prop)
    (h : ∀ r, P r s) : Wp (resolveType? name) s P := by
  simp only [resolveType?, isKnownType, qualify, wp_bind, wp_get, wp_pure, wp_ite]
  exact ⟨fun _ => h _, fun _ => ⟨fun _ => h _, fun _ => h _⟩⟩

/-- Claiming a name records it as open, and changes nothing else. -/
lemma wp_openType (name : String) (off : Int) (P : String → ParserState → Prop)
    (h : ∀ q, P q { s with openTypes := s.openTypes ++ [q] }) : Wp (openType name off) s P := by
  simp only [openType, isKnownType, wp_bind, wp_get, wp_ite, wp_failAt, wp_modify, wp_pure]
  exact ⟨fun _ => trivial, fun _ => h _⟩

@[simp] lemma wp_finishType (d : TypeDecl) (P : Unit → ParserState → Prop) :
    Wp (finishType d) s P ↔
      P () { s with openTypes := s.openTypes.filter (· != d.name), types := s.types ++ [(d.name, d)] } :=
  Wp.of_ok rfl

@[simp] lemma wp_addTypeAttrs (name : String) (attrs : List Attribute)
    (P : Unit → ParserState → Prop) :
    Wp (addTypeAttrs name attrs) s P ↔
      P () { s with types := s.types.map fun (n, d) =>
        if n == name then (n, { d with attrs := d.attrs ++ attrs }) else (n, d) } :=
  Wp.of_ok rfl

/-- A base is a copy of a finished declaration. -/
lemma wp_instantiateFinished? (name : String) (P : Option TypeDecl → ParserState → Prop)
    (h : ∀ r, (∀ d, r = some d → ∃ q, (q, d) ∈ s.types) → P r s) :
    Wp (instantiateFinished? name) s P := by
  simp only [instantiateFinished?, wp_bind]
  refine wp_resolveType? name _ fun r => ?_
  split
  · exact (wp_pure _).mpr (h none (by simp))
  · simp only [wp_bind, wp_get, wp_pure]
    exact h _ fun d hd => ⟨_, mem_of_lookup_eq_some hd⟩

/-- A type use is a copy of a finished declaration, or a forward reference to one that is
still open. -/
lemma wp_instantiate? (name : String) (span : Span) (P : Option TypeDecl → ParserState → Prop)
    (h : ∀ r, (∀ d, r = some d → (∃ q, (q, d) ∈ s.types) ∨ ∃ q, d.body = .forward q) → P r s) :
    Wp (instantiate? name span) s P := by
  simp only [instantiate?, wp_bind]
  refine wp_resolveType? name _ fun r => ?_
  split
  · exact (wp_pure _).mpr (h none (by simp))
  · simp only [wp_bind, wp_get]
    split
    · rename_i hd
      refine (wp_pure _).mpr (h _ fun d' hd' => ?_)
      cases hd'
      exact .inl ⟨_, mem_of_lookup_eq_some hd⟩
    · exact (wp_pure _).mpr (h _ fun d' hd' => .inr ⟨_, by cases hd'; rfl⟩)

end Primitives

end Parse

end ByteLayout

import Mathlib
import ByteLayout.Proofs.Eval.Limits
import ByteLayout.Proofs.Syntax.Program

set_option autoImplicit false
-- Instance search builds one instance term per call of a `do` block, and the builders'
-- blocks have many calls once their branches are laid out.
set_option synthInstance.maxSize 10000000

/-!
# Faults out of place

Five faults of the evaluator report a program that puts something where it does not
belong: a statement of a function body among members (`functionOnly`), an array, a pointer
or padding in a function body (`declarationInFunction`), a definition in a function body
(`definitionInFunction`), a host variable that is not a plain variable of a builtin type
(`hostVariableType`), and a type name that names nothing (`unknownType`). The parser never
puts anything out of place (`parseTokens_wellFormed`), so a run of a parsed program ends
with none of them, except for a host variable declared at the top level with a type that is
no builtin, which the parser accepts and the evaluator refuses.

## Main definitions

* `EvalFault.isContextual` — the five faults.
* `Program.MistypedHost` — a top-level `in` or `out` variable of a type with no value.
* `Program.Allows` — the faults a run of a program may end with.
* `Eval.Avoids` — every failure of a computation in a context of a program is allowed.

## Main results

* `Eval.avoidsAt` — every function of the evaluator, on pieces of a well-formed program.
* `runProgram_allows` — a run of a well-formed program fails only with an allowed fault.

## Design

As for `Eval.LimitsOnlyCut`, `Avoids` is a class with an instance for each monad operation
and each primitive, so that instance search proves it of a whole `do` block. The faults a
primitive raises are constructors applied to values, and `EvalFault.isContextual` reduces on
them, so one instance over `IsFalse f.isContextual` covers all of them. The functions one
fuel below are only allowed on pieces of the program, so the specification of each function
at one fuel (`Eval.AvoidsAt`) takes the pieces it reads as hypotheses, and each body brings
the instances of its calls into scope before instance search runs. The pure functions that
may fail (conversions, operators, paths, templates and decoding) get the same treatment one
level down, through the class `Calm`.
-/

namespace ByteLayout

/-- A boolean that is `false`, as a class, so that instance search decides it by reduction. -/
class IsFalse (b : Bool) : Prop where
  eq_false : b = false

instance : IsFalse false := ⟨rfl⟩

/-- The faults that only something out of its place raises: a statement in a body that does
not admit it, a host variable whose type has no value, a type name that names nothing. -/
@[reducible] def EvalFault.isContextual : EvalFault → Bool
  | .functionOnly | .declarationInFunction | .definitionInFunction | .hostVariableType
  | .unknownType _ => true
  | _ => false

/-- A top-level `in` or `out` variable whose type is no builtin with a value: a declared
type, or `auto`. -/
def Program.MistypedHost (p : Program) : Prop :=
  ∃ n ty pl attrs sp, Stmt.var n ty pl attrs sp ∈ p.stmts ∧ (pl = .input ∨ pl = .output) ∧
    (ty.asBuiltin? = none ∨ ty.asBuiltin? = some .auto)

/-- The faults a run of `p` may end with: every fault that is not contextual, and the fault
of a host variable's type when `p` has a mistyped host variable. -/
def Program.Allows (p : Program) (f : EvalFault) : Prop :=
  f.isContextual = false ∨ (f = .hostVariableType ∧ p.MistypedHost)

lemma Program.allows_of_isFalse (p : Program) (f : EvalFault) [h : IsFalse f.isContextual] :
    p.Allows f :=
  .inl h.eq_false

namespace Program.Allows

variable {p : Program} {f : EvalFault}

/-- An allowed fault names no unknown type. -/
lemma ne_unknownType (h : p.Allows f) (q : String) : f ≠ .unknownType q := by
  rintro rfl
  rcases h with h | ⟨h, -⟩ <;> cases h

/-- An allowed fault is no statement out of its place, and a host variable's type only when
the program declares a mistyped host variable. -/
lemma in_place (h : p.Allows f) :
    f ≠ .functionOnly ∧ f ≠ .declarationInFunction ∧ f ≠ .definitionInFunction ∧
      (f = .hostVariableType → p.MistypedHost) := by
  rcases h with h | ⟨rfl, hm⟩
  · refine ⟨?_, ?_, ?_, ?_⟩ <;> rintro rfl <;> cases h
  · exact ⟨nofun, nofun, nofun, fun _ => hm⟩

end Program.Allows

/-! ### Pure computations -/

/-- A pure computation that never fails with a contextual fault. -/
class Calm {α : Type} (e : Except EvalFault α) : Prop where
  calm : ∀ f, e = .error f → f.isContextual = false

namespace Calm

variable {α β : Type}

instance ok (a : α) : Calm (.ok a : Except EvalFault α) := ⟨fun _ h => nomatch h⟩

instance pure (a : α) : Calm (Pure.pure a : Except EvalFault α) := ⟨fun _ h => nomatch h⟩

instance error (f : EvalFault) [h : IsFalse f.isContextual] :
    Calm (.error f : Except EvalFault α) :=
  ⟨fun _ he => by cases he; exact h.eq_false⟩

instance throw (f : EvalFault) [h : IsFalse f.isContextual] :
    Calm (MonadExcept.throw f : Except EvalFault α) :=
  ⟨fun _ he => by cases he; exact h.eq_false⟩

instance bind (x : Except EvalFault α) (g : α → Except EvalFault β) [hx : Calm x]
    [hg : ∀ a, Calm (g a)] : Calm (x >>= g) :=
  ⟨fun f he => by
    cases hxe : x with
    | error f' =>
      rw [hxe] at he
      cases he
      exact hx.calm _ hxe
    | ok a =>
      rw [hxe] at he
      exact (hg a).calm f he⟩

instance map (g : α → β) (x : Except EvalFault α) [Calm x] : Calm (g <$> x) := by
  rw [map_eq_pure_bind]
  infer_instance

instance ite (p : Prop) [Decidable p] (x y : Except EvalFault α) [Calm x] [Calm y] :
    Calm (if p then x else y) := by
  split <;> assumption

/-- A block that fails first fails alike whatever follows. -/
instance throw_bind (f : EvalFault) [h : IsFalse f.isContextual] (g : α → Except EvalFault β) :
    Calm (MonadExcept.throw f >>= g : Except EvalFault β) :=
  ⟨fun _ he => by cases he; exact h.eq_false⟩

instance exceptMap (g : α → β) (x : Except EvalFault α) [hx : Calm x] : Calm (x.map g) :=
  ⟨fun f he => by
    cases hxe : x with
    | error f' =>
      rw [hxe] at he
      cases he
      exact hx.calm _ hxe
    | ok a =>
      rw [hxe] at he
      cases he⟩

/-- Sequencing where the continuation's instances are proved by hand. -/
lemma bind_of {x : Except EvalFault α} {g : α → Except EvalFault β} (hx : Calm x)
    (hg : ∀ a, Calm (g a)) : Calm (x >>= g) :=
  inferInstance

/-- A fold whose every step is calm. -/
lemma foldlM {γ : Type} (l : List γ) {f : β → γ → Except EvalFault β} (hf : ∀ b a, Calm (f b a))
    (init : β) : Calm (l.foldlM f init) := by
  induction l generalizing init with
  | nil =>
    simp only [List.foldlM_nil]
    infer_instance
  | cons a l ih =>
    simp only [List.foldlM_cons]
    exact bind_of (hf init a) ih

instance foldlM_inst {γ : Type} (l : List γ) (f : β → γ → Except EvalFault β)
    [hf : ∀ b a, Calm (f b a)] (init : β) : Calm (l.foldlM f init) :=
  foldlM l hf init

end Calm

section Pure

instance calm_toUnsigned (v : Value) : Calm v.toUnsigned := by
  cases v <;> simp only [Value.toUnsigned] <;> infer_instance

instance calm_toSigned (v : Value) : Calm v.toSigned := by
  cases v <;> simp only [Value.toSigned] <;> infer_instance

instance calm_toFloat (v : Value) : Calm v.toFloat := by
  cases v <;> simp only [Value.toFloat] <;> infer_instance

instance calm_toBool (v : Value) : Calm v.toBool := by
  cases v <;> simp only [Value.toBool] <;> infer_instance

instance calm_toChar (v : Value) : Calm v.toChar := by
  cases v <;> simp only [Value.toChar] <;> infer_instance

instance calm_cast (v : Value) (ty : Builtin) (endian : Endian) : Calm (v.cast ty endian) := by
  cases ty <;> simp only [Value.cast] <;> infer_instance

/-- An integer operation fails only on a zero divisor. -/
lemma Word.intOp_calm {signed : Bool} {op : BinOp} {l r : Int} {f : EvalFault}
    (h : Word.intOp signed op l r = some (.error f)) : f.isContextual = false := by
  cases op <;> simp only [Word.intOp] at h <;> (try split at h) <;> cases h <;> rfl

instance isFalse_invalidOperands (op : BinOp) (l r : Value) :
    IsFalse (Value.invalidOperands op l r).isContextual := ⟨rfl⟩

instance calm_stringOp (op : BinOp) (l r : Value) : Calm (Value.stringOp op l r) := by
  simp only [Value.stringOp]
  split <;> infer_instance

instance calm_floatOp (op : BinOp) (l r : Value) : Calm (Value.floatOp op l r) := by
  simp only [Value.floatOp]
  refine Calm.bind_of inferInstance fun a => Calm.bind_of inferInstance fun b => ?_
  cases op <;> dsimp only <;> infer_instance

instance calm_binary (op : BinOp) (l r : Value) : Calm (Value.binary op l r) := by
  simp only [Value.binary]
  split
  · infer_instance
  split
  iterate 3 infer_instance
  split
  · infer_instance
  split
  · infer_instance
  -- the integer operations, on the signed or the unsigned reading of both operands
  split <;> refine Calm.bind_of inferInstance fun a => Calm.bind_of inferInstance fun b => ?_ <;>
    split
  all_goals first | infer_instance | exact ⟨fun _ h => by cases h; exact Word.intOp_calm ‹_›⟩

instance calm_unary (op : UnaryOp) (v : Value) : Calm (Value.unary op v) := by
  simp only [Value.unary]
  split <;> infer_instance

instance calm_parseColor (text : String) : Calm (parseColor text) := by
  unfold parseColor
  split
  · infer_instance
  · split
    · infer_instance
    · split <;> infer_instance

instance calm_dataRead (data : ByteArray) (offset size : Nat) :
    Calm (Data.read data offset size) := by
  unfold Data.read
  split <;> infer_instance

instance calm_readWord (n : Node) (data : ByteArray) (endian : Endian) :
    Calm (n.readWord data endian) := by
  unfold Node.readWord
  split <;> infer_instance

instance calm_readValue (n : Node) (data : ByteArray) (default : Endian) :
    Calm (n.readValue data default) := by
  unfold Node.readValue
  split <;> infer_instance

instance calm_formatted (n : Node) (data : ByteArray) (default : Endian) :
    Calm (n.formatted data default) := by
  unfold Node.formatted
  split <;> infer_instance

instance calm_placeholder (spec : String) (arg : Value) :
    Calm (Template.placeholder spec arg) := by
  unfold Template.placeholder
  split
  · infer_instance
  · split
    · infer_instance
    · -- the text to show and its prefix, by the kind of the placeholder, then the padding
      dsimp only
      split <;> simp only [pure_bind] <;> infer_instance
  · infer_instance

instance calm_renderChars (cs : List Char) (spec : Option (List Char)) (args : List Value)
    (out : String) : Calm (Template.renderChars cs spec args out) := by
  fun_induction Template.renderChars cs spec args out <;> infer_instance

instance calm_render (template : String) (args : List Value) :
    Calm (Template.render template args) := by
  unfold Template.render
  infer_instance

instance calm_compound (s : Scope) (levels : Nat) : Calm (s.compound levels) := by
  unfold Scope.compound
  split
  · infer_instance
  · split <;> infer_instance

instance calm_lookup (s : Scope) (name : String) : Calm (s.lookup name) := by
  unfold Scope.lookup
  split <;> infer_instance

instance calm_descend (st : Step) (seg : Seg) : Calm (st.descend seg) := by
  unfold Step.descend
  -- a pointer or a pattern value is walked through first
  dsimp only
  split <;> (try split) <;> (try split) <;> infer_instance

instance calm_resolve (s : Scope) (segs : List Seg) (cursor : Nat) :
    Calm (s.resolve segs cursor) := by
  unfold Scope.resolve
  -- the first step, by the first segment, then the walk of the rest
  dsimp only
  split <;> (try simp only [pure_bind]) <;> infer_instance

instance calm_assign (s : Scope) (name : String) (v : Value) : Calm (s.assign name v) := by
  unfold Scope.assign
  split
  · infer_instance
  · -- the value is cast to the variable's declared type, if it has one
    dsimp only
    split <;> infer_instance

end Pure

/-! ### Computations in a context of a program -/

/-- A context of a run of `p`: it holds `p`, and functions that `p` defines. -/
structure Context.Of (p : Program) (c : Context) : Prop where
  program : c.program = p
  functions : ∀ f ∈ c.functions, f ∈ collectFunctions p.stmts

lemma Context.of_program (p : Program) (data : ByteArray) (cfg : RunConfig) :
    (Context.of p data cfg).Of p :=
  ⟨rfl, fun _ hf => List.mem_reverse.mp hf⟩

/-- A function found by its name is one the program defines. -/
lemma Context.Of.mem_function {p : Program} {c : Context} (hc : c.Of p) {name : String}
    {f : FunctionDef} (h : c.function? name = some f) : f ∈ collectFunctions p.stmts :=
  hc.functions f (List.mem_of_find?_eq_some h)

namespace Eval

variable {α β γ δ : Type} {p : Program}

/-- In every context of a run of `p`, every failure of `x` is one that `p` allows. It is a
class so that instance search proves it of a whole `do` block from the instances of the
calls in it. -/
class Avoids (p : Program) (x : Eval α) : Prop where
  avoids : ∀ c, c.Of p → ∀ m e m', (x.run c).run m = .error e m' → p.Allows e.fault

/-- A continuation that avoids the faults `p` does not allow on every value it may receive. -/
class AvoidsFn (p : Program) (f : α → Eval β) : Prop where
  avoids : ∀ a, Avoids p (f a)

instance (priority := low) avoidsFn_of_forall (f : α → Eval β) [h : ∀ a, Avoids p (f a)] :
    AvoidsFn p f := ⟨h⟩

instance avoidsFn_option (f : Option γ → Eval β) [Avoids p (f none)]
    [∀ d, Avoids p (f (some d))] : AvoidsFn p f :=
  ⟨fun o => by cases o <;> infer_instance⟩

instance avoidsFn_prod (f : γ × δ → Eval β) [∀ a b, Avoids p (f (a, b))] : AvoidsFn p f :=
  ⟨fun ⟨_, _⟩ => inferInstance⟩

instance avoidsFn_flow (f : Flow → Eval β) [Avoids p (f .normal)] [∀ v, Avoids p (f (.ret v))]
    [Avoids p (f .brk)] [Avoids p (f .cont)] : AvoidsFn p f :=
  ⟨fun fl => by cases fl <;> infer_instance⟩

instance avoidsFn_resolved (f : Resolved → Eval β) [∀ v, Avoids p (f (.value v))]
    [∀ n, Avoids p (f (.node n))] : AvoidsFn p f :=
  ⟨fun r => by cases r <;> infer_instance⟩

/-- A computation that never fails. -/
lemma Avoids.of_ok {x : Eval α} (h : ∀ c m, ∃ a m', (x.run c).run m = .ok a m') :
    Avoids p x :=
  ⟨fun c _ m e _ he => by
    obtain ⟨a, m', hr⟩ := h c m
    rw [hr] at he
    cases he⟩

instance avoids_pure (a : α) : Avoids p (pure a : Eval α) := .of_ok fun _ _ => ⟨_, _, rfl⟩

instance avoids_get : Avoids p (get : Eval Machine) := .of_ok fun _ _ => ⟨_, _, rfl⟩

instance avoids_read : Avoids p (read : Eval Context) := .of_ok fun _ _ => ⟨_, _, rfl⟩

instance avoids_modify (g : Machine → Machine) : Avoids p (modify g : Eval PUnit) :=
  .of_ok fun _ _ => ⟨_, _, rfl⟩

/-- The value of a caught run that succeeded. -/
instance avoids_ofExcept_ok (a : α) :
    Avoids p (MonadExcept.ofExcept (.ok a : Except EvalError α) : Eval α) :=
  .of_ok fun _ _ => ⟨_, _, rfl⟩

/-- A fault that `p` allows. -/
lemma Avoids.allowed_fault {f : EvalFault} (hf : p.Allows f) : Avoids p (fault f : Eval α) :=
  ⟨fun _ _ _ e _ he => by
    rw [run_fault] at he
    cases he
    exact hf⟩

/-- A block that fails first with an allowed fault fails alike whatever follows. -/
lemma Avoids.allowed_fault_bind {f : EvalFault} (hf : p.Allows f) (k : α → Eval β) :
    Avoids p (fault f >>= k) :=
  ⟨fun c _ m e _ he => by
    rw [run_bind, run_fault] at he
    cases he
    exact hf⟩

instance avoids_fault (f : EvalFault) [IsFalse f.isContextual] : Avoids p (fault f : Eval α) :=
  .allowed_fault (p.allows_of_isFalse f)

instance avoids_fault_bind (f : EvalFault) [IsFalse f.isContextual] (k : α → Eval β) :
    Avoids p (fault f >>= k) :=
  .allowed_fault_bind (p.allows_of_isFalse f) k

instance avoids_bind (x : Eval α) (f : α → Eval β) [hx : Avoids p x] [hf : AvoidsFn p f] :
    Avoids p (x >>= f) := ⟨fun c hc m e m' he => by
  rw [run_bind] at he
  cases hxe : (x.run c).run m with
  | error e' m₁ =>
    rw [hxe] at he
    cases he
    exact hx.avoids c hc m _ _ hxe
  | ok a m₁ =>
    rw [hxe] at he
    exact (hf.avoids a).avoids c hc m₁ e m' he⟩

/-- Sequencing with a continuation whose instance is proved by hand. -/
lemma Avoids.bind (x : Eval α) [Avoids p x] {f : α → Eval β} (hf : ∀ a, Avoids p (f a)) :
    Avoids p (x >>= f) :=
  have : AvoidsFn p f := ⟨hf⟩
  inferInstance

/-- Sequencing after a computation whose instance is proved by hand. -/
lemma Avoids.bind_left {x : Eval α} (hx : Avoids p x) (f : α → Eval β) [AvoidsFn p f] :
    Avoids p (x >>= f) := inferInstance

/-- Sequencing where both instances are proved by hand. -/
lemma Avoids.bind_of {x : Eval α} {f : α → Eval β} (hx : Avoids p x)
    (hf : ∀ a, Avoids p (f a)) : Avoids p (x >>= f) :=
  Avoids.bind x hf

instance avoids_map (f : α → β) (x : Eval α) [Avoids p x] : Avoids p (f <$> x) := by
  rw [map_eq_pure_bind]
  infer_instance

instance avoids_ite (c : Prop) [Decidable c] (x y : Eval α) [Avoids p x] [Avoids p y] :
    Avoids p (if c then x else y) := by
  split <;> assumption

instance avoids_lift (e : Except EvalFault α) [h : Calm e] : Avoids p (lift e) := by
  cases e with
  | ok a => exact avoids_pure a
  | error f => exact .allowed_fault (.inl (h.calm f rfl))

/-- A handler that throws again with the same fault keeps the failure allowed. -/
lemma Avoids.rethrow (x : Eval α) [hx : Avoids p x] (g : EvalError → EvalError)
    (hg : ∀ e, (g e).fault = e.fault) : Avoids p (tryCatch x fun e => throw (g e)) :=
  ⟨fun c hc m e m' he => by
    rw [run_tryCatch] at he
    cases hxe : (x.run c).run m with
    | ok a m₁ =>
      rw [hxe] at he
      cases he
    | error e' m₁ =>
      rw [hxe] at he
      cases he
      rw [hg]
      exact hx.avoids c hc m e' _ hxe⟩

instance avoids_withLine (l : Nat) (x : Eval α) [Avoids p x] : Avoids p (withLine l x) :=
  Avoids.rethrow x _ fun e => e.fault_withLine l

instance avoids_withNode (n : String) (x : Eval α) [Avoids p x] : Avoids p (withNode n x) :=
  Avoids.rethrow x _ fun e => e.fault_withNode n

/-- A caught run whose failure the continuation throws again fails only as the run did, or
as the continuation does on the run's value. -/
lemma Avoids.attempt_bind (x : Eval α) [hx : Avoids p x] {k : Except EvalError α → Eval β}
    (hk : ∀ a, Avoids p (k (.ok a))) (hre : Rethrows k) : Avoids p (attempt x >>= k) :=
  ⟨fun c hc m e m' he => by
    rw [run_bind, run_attempt] at he
    cases hxe : (x.run c).run m with
    | ok a m₁ =>
      rw [hxe] at he
      exact (hk a).avoids c hc m₁ e m' he
    | error e₁ m₁ =>
      rw [hxe] at he
      -- the continuation fails with the run's own failure
      obtain ⟨m₂, hm₂⟩ := hre e₁ c m₁
      change ((k (.error e₁)).run c).run m₁ = _ at he
      rw [hm₂] at he
      cases he
      exact hx.avoids c hc m e m₁ hxe⟩

/-- A computation that reads the context, knowing that it is one of a run of `p`. -/
lemma Avoids.read_bind {f : Context → Eval α} (hf : ∀ c, c.Of p → Avoids p (f c)) :
    Avoids p (read >>= f) :=
  ⟨fun c hc m e m' he => (hf c hc).avoids c hc m e m' he⟩

/-- A pure computation that fails with an allowed fault or succeeds with a value the
continuation accepts. -/
lemma Avoids.lift_bind {e : Except EvalFault α} {k : α → Eval β} {P : α → Prop}
    (he : (∃ f, e = .error f ∧ p.Allows f) ∨ ∃ a, e = .ok a ∧ P a)
    (hk : ∀ a, P a → Avoids p (k a)) : Avoids p (lift e >>= k) := by
  rcases he with ⟨f, rfl, hf⟩ | ⟨a, rfl, ha⟩
  · exact .allowed_fault_bind hf k
  · exact hk a ha

/-- A loop whose every iteration avoids the faults `p` does not allow. -/
lemma Avoids.forM (l : List γ) {f : γ → Eval PUnit} (hf : ∀ a ∈ l, Avoids p (f a)) :
    Avoids p (l.forM f) := by
  induction l with
  | nil =>
    simp only [List.forM]
    infer_instance
  | cons a l ih =>
    simp only [List.forM]
    exact .bind_of (hf a List.mem_cons_self) fun _ =>
      ih fun b hb => hf b (List.mem_cons_of_mem a hb)

instance avoids_forM (l : List γ) (f : γ → Eval PUnit) [hf : AvoidsFn p f] :
    Avoids p (l.forM f) :=
  Avoids.forM l fun a _ => hf.avoids a

/-- A map whose every element's evaluation avoids the faults `p` does not allow. -/
lemma Avoids.mapM (l : List γ) {f : γ → Eval β} (hf : ∀ a ∈ l, Avoids p (f a)) :
    Avoids p (l.mapM f) := by
  induction l with
  | nil =>
    simp only [List.mapM_nil]
    infer_instance
  | cons a l ih =>
    have := hf a List.mem_cons_self
    have := ih fun b hb => hf b (List.mem_cons_of_mem a hb)
    simp only [List.mapM_cons]
    infer_instance

/-- A fold whose every step avoids the faults `p` does not allow. -/
lemma Avoids.foldlM (l : List γ) {f : β → γ → Eval β} (hf : ∀ b, ∀ a ∈ l, Avoids p (f b a))
    (init : β) : Avoids p (l.foldlM f init) := by
  induction l generalizing init with
  | nil =>
    simp only [List.foldlM_nil]
    infer_instance
  | cons a l ih =>
    simp only [List.foldlM_cons]
    exact .bind_of (hf init a List.mem_cons_self) fun b =>
      ih (fun b' a' ha' => hf b' a' (List.mem_cons_of_mem a ha')) b

instance avoids_foldlM (l : List γ) (f : β → γ → Eval β) [hf : ∀ b a, Avoids p (f b a)]
    (init : β) : Avoids p (l.foldlM f init) :=
  Avoids.foldlM l (fun b a _ => hf b a) init

/-! ### The primitives

Every primitive fails only with faults of the machine, the data or the limits. The one
exception is `place`, which refuses a host placement, and `declareHost`, which refuses a
type with no value: each takes the reason the fault does not arise, or is allowed. -/

section Primitives

instance avoids_tick : Avoids p tick := by
  unfold tick config
  infer_instance

instance avoids_countPattern : Avoids p countPattern := by
  unfold countPattern config
  infer_instance

instance avoids_enter : Avoids p enter := by
  unfold enter config
  infer_instance

instance avoids_leave : Avoids p leave := by
  unfold leave
  infer_instance

instance avoids_checkArrayLength (n : Nat) : Avoids p (checkArrayLength n) := by
  unfold checkArrayLength config
  infer_instance

instance avoids_defaultEndian : Avoids p defaultEndian := by
  unfold defaultEndian
  infer_instance

instance avoids_endianFor (d : Option Endian) : Avoids p (endianFor d) := by
  unfold endianFor
  infer_instance

instance avoids_cursor : Avoids p cursor := by
  unfold cursor
  infer_instance

instance avoids_setCursor (n : Nat) : Avoids p (setCursor n) := by
  unfold setCursor
  infer_instance

instance avoids_modifyScope (g : Scope → Scope) : Avoids p (modifyScope g) := by
  unfold modifyScope
  infer_instance

instance avoids_splice (N : Node) : Avoids p (splice N) := by
  unfold splice
  infer_instance

instance avoids_pushFrame (k : FrameKind) (tn : String) : Avoids p (pushFrame k tn) := by
  unfold pushFrame
  infer_instance

instance avoids_popFrame : Avoids p popFrame := by
  unfold popFrame
  infer_instance

instance avoids_checkRange (o s : Nat) : Avoids p (checkRange o s) := by
  unfold checkRange
  infer_instance

instance avoids_readBytes (o s : Nat) : Avoids p (readBytes o s) := by
  unfold readBytes
  infer_instance

instance avoids_newNode (name tn : String) (o s : Nat) (k : NodeKind) :
    Avoids p (newNode name tn o s k) := by
  unfold newNode
  infer_instance

instance avoids_nodeValue (n : Node) : Avoids p (nodeValue n) := by
  unfold nodeValue
  infer_instance

instance avoids_truth (v : Value) : Avoids p (truth v) := by
  unfold truth
  infer_instance

instance avoids_atOffset (o : Nat) (x : Eval α) [Avoids p x] : Avoids p (atOffset o x) := by
  unfold atOffset
  exact Avoids.bind _ fun _ => Avoids.bind _ fun _ =>
    Avoids.attempt_bind x (fun _ => inferInstance) fun _ _ _ => ⟨_, rfl⟩

instance avoids_toNode (op : String) (r : Resolved) : Avoids p (r.toNode op) := by
  cases r <;> simp only [Resolved.toNode] <;> infer_instance

instance avoids_declareLocal (name : String) (ty : TypeDecl) :
    Avoids p (declareLocal name ty) := by
  unfold declareLocal
  split <;> infer_instance

instance avoids_roleFunction (name role : String) : Avoids p (roleFunction name role) := by
  unfold roleFunction
  refine Avoids.bind _ fun _ => ?_
  split <;> infer_instance

instance avoids_applyAttribute (node : Node) (attr : Attribute) :
    Avoids p (applyAttribute node attr) := by
  simp only [applyAttribute]
  split
  · infer_instance
  · -- the value, present exactly when the attribute takes one, then the effect its name
    -- picks; `pointer_base` looks at the node's kind too
    split <;> refine Avoids.bind _ fun value => ?_ <;> split <;>
      first | infer_instance | (split <;> infer_instance)

instance avoids_applyAttributes (node : Node) (attrs : List Attribute) :
    Avoids p (applyAttributes node attrs) := by
  simp only [applyAttributes]
  infer_instance

instance avoids_emit (node : Node) (inline : Bool) (attrs : List Attribute) :
    Avoids p (emit node inline attrs) := by
  unfold emit
  infer_instance

instance avoids_buildBuiltin (b : Builtin) (name tn : String) :
    Avoids p (buildBuiltin b name tn) := by
  unfold buildBuiltin
  split <;> infer_instance

/-- `place` refuses a host placement only: at the cursor it builds. -/
instance avoids_place_cursor (address : Expr → Eval Value) (build : Eval α) [Avoids p build] :
    Avoids p (place address .cursor build) := by
  simp only [place]
  infer_instance

/-- At an address, `place` evaluates it first. -/
instance avoids_place_atOffset (address : Expr → Eval Value) (e : Expr) [Avoids p (address e)]
    (build : Eval α) [Avoids p build] : Avoids p (place address (.atOffset e) build) := by
  simp only [place]
  infer_instance

/-- A host variable of a builtin type with a value, or one that `p` declares with a type
that has none. -/
lemma avoids_declareHost {name : String} {ty : TypeDecl} (input : Bool)
    (hty : ty.asBuiltin? = none ∨ ty.asBuiltin? = some .auto → p.MistypedHost) :
    Avoids p (declareHost name ty input) := by
  simp only [declareHost]
  split
  · exact .allowed_fault_bind (.inr ⟨rfl, hty (.inr ‹_›)⟩) _
  · exact .allowed_fault_bind (.inr ⟨rfl, hty (.inl ‹_›)⟩) _
  · refine Avoids.bind _ fun t => ?_
    split
    · -- the value supplied for an `in` variable is looked up in the state
      exact Avoids.bind _ fun m => by split <;> infer_instance
    · infer_instance

end Primitives

/-! ### Built-in functions -/

section Intrinsics

instance avoids_checkArity (name : String) (a : Intrinsic.Arity) (args : List Value) :
    Avoids p (Intrinsic.checkArity name a args) := by
  unfold Intrinsic.checkArity
  infer_instance

instance avoids_renderArgs (args : List Value) : Avoids p (Intrinsic.renderArgs args) := by
  unfold Intrinsic.renderArgs
  split <;> infer_instance

instance avoids_print (args : List Value) : Avoids p (Intrinsic.print args) := by
  unfold Intrinsic.print
  infer_instance

instance avoids_format (args : List Value) : Avoids p (Intrinsic.format args) := by
  unfold Intrinsic.format
  infer_instance

instance avoids_check (args : List Value) : Avoids p (Intrinsic.check args) := by
  simp only [Intrinsic.check]
  refine Avoids.bind _ fun _ => ?_
  split <;> infer_instance

instance avoids_memSize (args : List Value) : Avoids p (Intrinsic.memSize args) := by
  unfold Intrinsic.memSize
  infer_instance

instance avoids_memEof (args : List Value) : Avoids p (Intrinsic.memEof args) := by
  unfold Intrinsic.memEof
  infer_instance

instance avoids_readRaw (name : String) (args : List Value) :
    Avoids p (Intrinsic.readRaw name args) := by
  simp only [Intrinsic.readRaw]
  refine Avoids.bind _ fun _ => ?_
  refine Avoids.bind _ fun offset => ?_
  split
  · infer_instance
  · refine Avoids.bind _ fun size => ?_
    split
    · infer_instance
    · -- the byte order selector: absent or the third argument, then one of three orders
      split <;> exact Avoids.bind _ fun selector => by split <;> infer_instance

instance avoids_readUnsigned (args : List Value) : Avoids p (Intrinsic.readUnsigned args) := by
  unfold Intrinsic.readUnsigned
  infer_instance

instance avoids_readSigned (args : List Value) : Avoids p (Intrinsic.readSigned args) := by
  unfold Intrinsic.readSigned
  infer_instance

/-- Every built-in function: they print, format, check and read the data. -/
lemma Intrinsic.avoids {name : String} {g : List Value → Eval (Option Value)}
    (h : Intrinsic.lookup? name = some g) (args : List Value) : Avoids p (g args) := by
  have hmem := Intrinsic.mem_table h
  simp only [Intrinsic.table, List.mem_cons, Prod.mk.injEq, List.not_mem_nil, or_false] at hmem
  rcases hmem with ⟨-, rfl⟩ | ⟨-, rfl⟩ | ⟨-, rfl⟩ | ⟨-, rfl⟩ | ⟨-, rfl⟩ | ⟨-, rfl⟩ | ⟨-, rfl⟩ <;>
    infer_instance

end Intrinsics

end Eval

end ByteLayout

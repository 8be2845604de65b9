import Mathlib
import ByteLayout.Proofs.Layout.Build

set_option autoImplicit false

/-!
# Runs that do not run out of fuel

Every function of the evaluator takes a fuel argument and fails with `outOfFuel` at zero;
nothing else raises that fault. A run that ends in any other way, with a value or with a
fault of the program, went as the unbounded recursion it stands for goes, and came to an
end. `Eval.Shallow x c m post` says that of the run of `x` from `m` under `c`, and that a
run that succeeds ends with a value and a state satisfying `post`.

The rules below take `Shallow` through the monad operations and the primitives of the
machine, as `Eval.Wp` does for the successful runs alone; they are `simp` lemmas, so
`simp only` walks a `do` block and leaves one goal for each recursive call. The operations
on values, scopes and data, the attributes, the declarations of variables and the built-in
functions call no function of the evaluator, and their faults are those of the program.

## Main definitions

* `FuelFree` — a computation that fails, if at all, with a fault other than `outOfFuel`.
* `Eval.Shallow` — a run that does not stop for want of fuel, with a postcondition for the
  runs that succeed.

## Main results

* `Eval.shallow_bind`, `Eval.shallow_lift`, `Eval.shallow_tick`, … — the rules of the monad
  and of the primitives.
* `Value.binary_fuelFree`, `Scope.resolve_fuelFree`, `Node.readValue_fuelFree`, … — the
  operations that may fault outside the evaluation monad.
* `Eval.shallow_emit`, `Eval.shallow_declareHost`, `Intrinsic.shallow`, … — the computations
  of the evaluation monad that call no function of the evaluator; none of them counts a step.
-/

namespace ByteLayout

/-- `x` fails, if at all, with a fault other than running out of fuel. -/
def FuelFree {α : Type} (x : Except EvalFault α) : Prop :=
  ∀ f, x = .error f → f ≠ .outOfFuel

namespace FuelFree

variable {α β : Type}

@[simp] lemma ok (a : α) : FuelFree (.ok a : Except EvalFault α) := fun _ h => by cases h

@[simp] lemma pure (a : α) : FuelFree (Pure.pure a : Except EvalFault α) := ok a

@[simp] lemma error_iff (f : EvalFault) :
    FuelFree (.error f : Except EvalFault α) ↔ f ≠ .outOfFuel :=
  ⟨fun h => h f rfl, fun h _ hg => by cases hg; exact h⟩

@[simp] lemma throw_iff (f : EvalFault) :
    FuelFree (throw f : Except EvalFault α) ↔ f ≠ .outOfFuel :=
  error_iff f

@[simp] lemma bind_iff (x : Except EvalFault α) (g : α → Except EvalFault β) :
    FuelFree (x >>= g) ↔ FuelFree x ∧ ∀ a, x = .ok a → FuelFree (g a) := by
  cases x with
  | error e =>
    rw [show (Except.error e >>= g) = Except.error e from rfl, error_iff, error_iff]
    exact ⟨fun h => ⟨h, fun _ h' => by cases h'⟩, And.left⟩
  | ok a =>
    rw [show (Except.ok a >>= g) = g a from rfl]
    exact ⟨fun h => ⟨ok a, fun b hb => by cases hb; exact h⟩, fun h => h.2 a rfl⟩

@[simp] lemma map_iff (x : Except EvalFault α) (g : α → β) : FuelFree (g <$> x) ↔ FuelFree x := by
  cases x <;> simp [Functor.map, Except.map, FuelFree]

@[simp] lemma exceptMap_iff (x : Except EvalFault α) (g : α → β) :
    FuelFree (Except.map g x) ↔ FuelFree x :=
  map_iff x g

@[simp] lemma ite_iff (p : Prop) [Decidable p] (x y : Except EvalFault α) :
    FuelFree (if p then x else y) ↔ (p → FuelFree x) ∧ (¬p → FuelFree y) := by
  by_cases hp : p <;> simp [hp]

/-- A fold whose every step never runs out of fuel. -/
lemma foldlM {γ : Type} (l : List γ) (g : β → γ → Except EvalFault β)
    (hg : ∀ b a, FuelFree (g b a)) : ∀ b, FuelFree (l.foldlM g b) := by
  induction l with
  | nil => intro b; simp
  | cons a l ih =>
    intro b
    simp only [List.foldlM_cons, bind_iff]
    exact ⟨hg b a, fun b' _ => ih b'⟩

end FuelFree

/-! ### Values, scopes and data -/

section Values

namespace Value

@[simp] lemma toUnsigned_fuelFree (v : Value) : FuelFree v.toUnsigned := by
  cases v <;> simp [toUnsigned]

@[simp] lemma toSigned_fuelFree (v : Value) : FuelFree v.toSigned := by
  cases v <;> simp [toSigned]

@[simp] lemma toFloat_fuelFree (v : Value) : FuelFree v.toFloat := by
  cases v <;> simp [toFloat]

@[simp] lemma toBool_fuelFree (v : Value) : FuelFree v.toBool := by
  cases v <;> simp [toBool]

@[simp] lemma stringOp_fuelFree (op : BinOp) (l r : Value) : FuelFree (stringOp op l r) := by
  unfold stringOp
  split <;> simp_all [invalidOperands]

@[simp] lemma floatOp_fuelFree (op : BinOp) (l r : Value) : FuelFree (floatOp op l r) := by
  unfold floatOp
  simp only [FuelFree.bind_iff, toFloat_fuelFree, true_and]
  intro _ _ _ _
  split <;> simp [invalidOperands]

end Value

/-- The integer operations fail only on a zero divisor. -/
lemma Word.intOp_error_ne {signed : Bool} {op : BinOp} {a b : Int} {f : EvalFault}
    (h : Word.intOp signed op a b = some (.error f)) : f ≠ .outOfFuel := by
  cases op <;> simp only [Word.intOp, Option.some.injEq, reduceCtorEq] at h <;>
    (try split at h) <;> cases h <;> simp

namespace Value

@[simp] lemma binary_fuelFree (op : BinOp) (l r : Value) : FuelFree (binary op l r) := by
  unfold binary
  simp only [FuelFree.bind_iff, FuelFree.ite_iff, FuelFree.throw_iff]
  refine ⟨fun _ => ⟨by simp [invalidOperands], fun _ h => by cases h⟩, fun _ => ?_⟩
  -- past the node check: the logical operators, then strings, doubles and integers
  split
  case h_1 | h_2 | h_3 => simp
  simp only [FuelFree.ite_iff]
  refine ⟨fun _ => stringOp_fuelFree _ _ _, fun _ => ⟨fun _ => floatOp_fuelFree _ _ _, fun _ => ?_⟩⟩
  -- both operands read as integers of one domain, then the operation
  split <;> simp
  all_goals
    refine ⟨fun _ a _ b _ => ?_, fun _ _ a _ b _ => ?_⟩
  all_goals
    split
    case h_3 f hf => exact (FuelFree.throw_iff f).mpr (Word.intOp_error_ne hf)
    all_goals simp [invalidOperands]

@[simp] lemma unary_fuelFree (op : UnaryOp) (v : Value) : FuelFree (unary op v) := by
  unfold unary
  split <;> simp

@[simp] lemma cast_fuelFree (v : Value) (ty : Builtin) (endian : Endian) :
    FuelFree (v.cast ty endian) := by
  unfold cast
  split <;> simp

end Value

@[simp] lemma Data.read_fuelFree (data : ByteArray) (offset size : Nat) :
    FuelFree (Data.read data offset size) := by
  unfold Data.read
  split <;> simp

namespace Node

@[simp] lemma readWord_fuelFree (n : Node) (data : ByteArray) (endian : Endian) :
    FuelFree (n.readWord data endian) := by
  unfold readWord
  split <;> simp

@[simp] lemma readValue_fuelFree (n : Node) (data : ByteArray) (default : Endian) :
    FuelFree (n.readValue data default) := by
  unfold readValue
  split <;> simp

end Node

namespace Scope

@[simp] lemma assign_fuelFree (s : Scope) (name : String) (v : Value) :
    FuelFree (s.assign name v) := by
  unfold assign
  split
  · simp
  · split <;> simp

@[simp] lemma compound_fuelFree (s : Scope) (levels : Nat) : FuelFree (s.compound levels) := by
  unfold compound
  split
  · simp
  · simp only [FuelFree.error_iff]
    split <;> simp

@[simp] lemma lookup_fuelFree (s : Scope) (name : String) : FuelFree (s.lookup name) := by
  unfold lookup
  split <;> simp

end Scope

@[simp] lemma Step.descend_fuelFree (st : Step) (seg : Seg) : FuelFree (st.descend seg) := by
  unfold Step.descend
  -- a pointer or a pattern value is walked through first
  dsimp only
  split <;> (try split) <;> (try split) <;> simp

@[simp] lemma Step.foldlM_descend_fuelFree (segs : List Seg) (st : Step) :
    FuelFree (segs.foldlM Step.descend st) :=
  FuelFree.foldlM _ _ (fun _ _ => Step.descend_fuelFree _ _) _

@[simp] lemma Scope.resolve_fuelFree (s : Scope) (segs : List Seg) (cursor : Nat) :
    FuelFree (s.resolve segs cursor) := by
  unfold Scope.resolve
  -- the first step, by the first segment, then the walk of the rest
  dsimp only
  split <;> simp

end Values

/-! ### Texts -/

section Texts

@[simp] lemma parseColor_fuelFree (text : String) : FuelFree (parseColor text) := by
  unfold parseColor
  split
  · simp
  · simp only [FuelFree.ite_iff]
    simp

namespace Template

@[simp] lemma placeholder_fuelFree (spec : String) (arg : Value) :
    FuelFree (placeholder spec arg) := by
  unfold placeholder
  split
  · simp
  · split
    · simp
    · -- the text to show and its prefix, by the kind of the placeholder, then the padding
      dsimp only
      split <;> simp
  · simp

lemma renderChars_fuelFree (cs : List Char) (spec : Option (List Char)) (args : List Value)
    (out : String) : FuelFree (renderChars cs spec args out) := by
  induction cs, spec, args, out using renderChars.induct <;> (rw [renderChars.eq_def]; simp_all)

@[simp] lemma render_fuelFree (template : String) (args : List Value) :
    FuelFree (render template args) :=
  renderChars_fuelFree _ _ _ _

end Template

end Texts

namespace Eval

variable {α β γ : Type}

/-- The run of `x` from `m` under `c` does not stop for want of fuel, and if it succeeds, its
value and final state satisfy `post`. -/
def Shallow (x : Eval α) (c : Context) (m : Machine) (post : α → Machine → Prop) : Prop :=
  WpAll x c m post fun e _ => e.fault ≠ .outOfFuel

/-! ### The rules of the monad -/

section Rules

variable {c : Context} {m : Machine} {P Q : α → Machine → Prop}

lemma Shallow.mono {x : Eval α} (h : Shallow x c m P) (hPQ : ∀ a m', P a m' → Q a m') :
    Shallow x c m Q :=
  WpAll.mono h hPQ fun _ _ h => h

lemma Shallow.of_ok {x : Eval α} {a : α} {m' : Machine} (hx : (x.run c).run m = .ok a m') :
    Shallow x c m P ↔ P a m' :=
  ⟨fun h => (Wp.of_ok hx).mp h.1, fun h => ⟨(Wp.of_ok hx).mpr h, WpFail.of_ok hx⟩⟩

lemma Shallow.of_error {x : Eval α} {e : EvalError} {m' : Machine}
    (hx : (x.run c).run m = .error e m') : Shallow x c m P ↔ e.fault ≠ .outOfFuel :=
  ⟨fun h => (WpFail.of_error hx).mp h.2, fun h => ⟨Wp.of_error hx, (WpFail.of_error hx).mpr h⟩⟩

@[simp] lemma shallow_bind (x : Eval α) (f : α → Eval β) (P : β → Machine → Prop) :
    Shallow (x >>= f) c m P ↔ Shallow x c m fun a m' => Shallow (f a) c m' P :=
  wpAll_bind x f P _

@[simp] lemma shallow_pure (a : α) : Shallow (pure a : Eval α) c m P ↔ P a m := Shallow.of_ok rfl

@[simp] lemma shallow_map (f : α → β) (x : Eval α) (P : β → Machine → Prop) :
    Shallow (f <$> x) c m P ↔ Shallow x c m fun a m' => P (f a) m' := by
  rw [map_eq_pure_bind, shallow_bind]
  simp only [shallow_pure]

@[simp] lemma shallow_get (P : Machine → Machine → Prop) :
    Shallow (get : Eval Machine) c m P ↔ P m m :=
  Shallow.of_ok rfl

@[simp] lemma shallow_read (P : Context → Machine → Prop) :
    Shallow (read : Eval Context) c m P ↔ P c m :=
  Shallow.of_ok rfl

@[simp] lemma shallow_modify (g : Machine → Machine) (P : Unit → Machine → Prop) :
    Shallow (modify g : Eval Unit) c m P ↔ P () (g m) :=
  Shallow.of_ok rfl

@[simp] lemma shallow_throw (e : EvalError) : Shallow (throw e : Eval α) c m P ↔ e.fault ≠ .outOfFuel :=
  Shallow.of_error rfl

@[simp] lemma shallow_ite (p : Prop) [Decidable p] (x y : Eval α) :
    Shallow (if p then x else y) c m P ↔ (p → Shallow x c m P) ∧ (¬p → Shallow y c m P) := by
  by_cases hp : p <;> simp [hp]

/-- A handler that rethrows with the same fault leaves the runs as they were. -/
lemma shallow_tryCatch_rethrow (x : Eval α) (g : EvalError → EvalError)
    (hg : ∀ e, (g e).fault = e.fault) :
    Shallow (tryCatch x fun e => throw (g e)) c m P ↔ Shallow x c m P := by
  unfold Shallow WpAll
  rw [wp_tryCatch_rethrow, wpFail_tryCatch_rethrow]
  simp only [hg]

@[simp] lemma shallow_withLine (l : Nat) (x : Eval α) :
    Shallow (withLine l x) c m P ↔ Shallow x c m P :=
  shallow_tryCatch_rethrow x _ fun e => by unfold EvalError.withLine; split <;> rfl

@[simp] lemma shallow_withNode (n : String) (x : Eval α) :
    Shallow (withNode n x) c m P ↔ Shallow x c m P :=
  shallow_tryCatch_rethrow x _ fun e => by unfold EvalError.withNode; split <;> rfl

@[simp] lemma shallow_fault (f : EvalFault) : Shallow (fault f : Eval α) c m P ↔ f ≠ .outOfFuel :=
  shallow_throw _

@[simp] lemma shallow_lift (e : Except EvalFault α) :
    Shallow (lift e) c m P ↔ FuelFree e ∧ ∀ a, e = .ok a → P a m := by
  cases e <;> simp [lift]

/-- A caught run: its value goes on, and so does its failure, which did not come from want
of fuel. -/
lemma Shallow.attempt {x : Eval α} {P : Except EvalError α → Machine → Prop}
    (h : Shallow x c m Q) (hok : ∀ a m', Q a m' → P (.ok a) m')
    (herr : ∀ e m', e.fault ≠ .outOfFuel → P (.error e) m') : Shallow (attempt x) c m P :=
  ⟨(wp_attempt x P).mpr ⟨h.1.mono hok, h.2.mono herr⟩, wpFail_attempt x⟩

@[simp] lemma shallow_ofExcept_ok (a : α) :
    Shallow (MonadExcept.ofExcept (.ok a : Except EvalError α) : Eval α) c m P ↔ P a m :=
  Shallow.of_ok rfl

@[simp] lemma shallow_ofExcept_error (e : EvalError) :
    Shallow (MonadExcept.ofExcept (.error e : Except EvalError α) : Eval α) c m P ↔
      e.fault ≠ .outOfFuel :=
  Shallow.of_error rfl

end Rules

/-! ### Loops over lists -/

section Loops

variable {c : Context}

/-- A state invariant kept by every iteration is kept by the loop. -/
lemma shallow_forM (l : List γ) (f : γ → Eval PUnit) (I : Machine → Prop)
    (hf : ∀ a ∈ l, ∀ m, I m → Shallow (f a) c m fun _ m' => I m') :
    ∀ m, I m → Shallow (l.forM f) c m fun _ m' => I m' := by
  induction l with
  | nil => intro m hm; simpa using hm
  | cons a l ih =>
    intro m hm
    simp only [List.forM, shallow_bind]
    exact (hf a (by simp) m hm).mono fun _ m' hm' =>
      ih (fun b hb => hf b (by simp [hb])) m' hm'

/-- A state invariant kept by every element's evaluation is kept by the whole map. -/
lemma shallow_mapM (l : List γ) (f : γ → Eval β) (I : Machine → Prop)
    (hf : ∀ a ∈ l, ∀ m, I m → Shallow (f a) c m fun _ m' => I m') :
    ∀ m, I m → Shallow (l.mapM f) c m fun _ m' => I m' := by
  induction l with
  | nil => intro m hm; simpa using hm
  | cons a l ih =>
    intro m hm
    simp only [List.mapM_cons, shallow_bind, shallow_pure]
    exact (hf a (by simp) m hm).mono fun _ m' hm' =>
      ih (fun b hb => hf b (by simp [hb])) m' hm'

/-- An invariant of the accumulator and the state kept by every step is kept by the fold. -/
lemma shallow_foldlM (l : List γ) (f : β → γ → Eval β) (I : β → Machine → Prop)
    (hf : ∀ a ∈ l, ∀ b m, I b m → Shallow (f b a) c m I) :
    ∀ b m, I b m → Shallow (l.foldlM f b) c m I := by
  induction l with
  | nil => intro b m hm; simpa using hm
  | cons a l ih =>
    intro b m hm
    simp only [List.foldlM_cons, shallow_bind]
    exact (hf a (by simp) b m hm).mono fun b' m' hm' =>
      ih (fun a' ha' => hf a' (by simp [ha'])) b' m' hm'

end Loops

/-! ### The primitives of the machine -/

section Primitives

variable {c : Context} {m : Machine}

@[simp] lemma shallow_cursor (P : Nat → Machine → Prop) : Shallow cursor c m P ↔ P m.cursor m := by
  simp [cursor]

@[simp] lemma shallow_setCursor (n : Nat) (P : Unit → Machine → Prop) :
    Shallow (setCursor n) c m P ↔ P () { m with cursor := n } := by
  simp [setCursor]

@[simp] lemma shallow_modifyScope (g : Scope → Scope) (P : Unit → Machine → Prop) :
    Shallow (modifyScope g) c m P ↔ P () { m with scope := g m.scope } := by
  simp [modifyScope]

@[simp] lemma shallow_splice (N : Node) (P : Unit → Machine → Prop) :
    Shallow (splice N) c m P ↔
      P () { m with scope := m.scope.extendMembers N.children, spliced := m.spliced + 1 } := by
  simp [splice]

@[simp] lemma shallow_pushFrame (k : FrameKind) (tn : String) (P : Unit → Machine → Prop) :
    Shallow (pushFrame k tn) c m P ↔ P () { m with scope := m.scope.push k m.cursor tn } := by
  simp [pushFrame]

@[simp] lemma shallow_popFrame (P : Frame → Machine → Prop) :
    Shallow popFrame c m P ↔ P m.scope.pop.1 { m with scope := m.scope.pop.2 } := by
  simp [popFrame]

@[simp] lemma shallow_defaultEndian (P : Endian → Machine → Prop) :
    Shallow defaultEndian c m P ↔ P c.config.defaultEndian m := by
  simp [defaultEndian]

@[simp] lemma shallow_endianFor (d : Option Endian) (P : Endian → Machine → Prop) :
    Shallow (endianFor d) c m P ↔ P ((d <|> m.endian).getD c.config.defaultEndian) m := by
  simp [endianFor]

@[simp] lemma shallow_tick (P : Unit → Machine → Prop) :
    Shallow tick c m P ↔
      (¬(0 < c.config.maxSteps ∧ c.config.maxSteps < m.steps + 1) →
        P () { m with steps := m.steps + 1 }) := by
  simp [tick, config]

@[simp] lemma shallow_countPattern (P : Unit → Machine → Prop) :
    Shallow countPattern c m P ↔
      (¬(0 < c.config.maxPatterns ∧ c.config.maxPatterns < m.patterns + 1) →
        P () { m with patterns := m.patterns + 1 }) := by
  simp [countPattern, config]

@[simp] lemma shallow_enter (P : Unit → Machine → Prop) :
    Shallow enter c m P ↔
      (¬(0 < c.config.maxRecursionDepth ∧ c.config.maxRecursionDepth ≤ m.depth) →
        P () { m with depth := m.depth + 1 }) := by
  simp [enter, config]

@[simp] lemma shallow_leave (P : Unit → Machine → Prop) :
    Shallow leave c m P ↔ P () { m with depth := m.depth - 1 } := by
  simp [leave]

@[simp] lemma shallow_checkRange (o s : Nat) (P : Unit → Machine → Prop) :
    Shallow (checkRange o s) c m P ↔ (o + s ≤ c.data.size → P () m) := by
  simp [checkRange]

@[simp] lemma shallow_readBytes (o s : Nat) (P : List Nat → Machine → Prop) :
    Shallow (readBytes o s) c m P ↔ ∀ bs, Data.read c.data o s = .ok bs → P bs m := by
  simp [readBytes]

@[simp] lemma shallow_checkArrayLength (n : Nat) (P : Unit → Machine → Prop) :
    Shallow (checkArrayLength n) c m P ↔
      (¬(0 < c.config.maxArrayLength ∧ c.config.maxArrayLength < n) → P () m) := by
  simp [checkArrayLength, config]

@[simp] lemma shallow_newNode (name tn : String) (o s : Nat) (k : NodeKind)
    (P : Node → Machine → Prop) :
    Shallow (newNode name tn o s k) c m P ↔
      (¬(0 < c.config.maxPatterns ∧ c.config.maxPatterns < m.patterns + 1) →
        P { Node.fresh name tn o s k with endian := m.endian }
          { m with patterns := m.patterns + 1 }) := by
  simp [newNode]

@[simp] lemma shallow_truth (v : Value) (P : Bool → Machine → Prop) :
    Shallow (truth v) c m P ↔ ∀ b, v.toBool = .ok b → P b m := by
  simp [truth]

@[simp] lemma shallow_atOffset (o : Nat) (x : Eval α) (P : α → Machine → Prop) :
    Shallow (atOffset o x) c m P ↔
      Shallow x c { m with cursor := o } fun a m' => P a { m' with cursor := m.cursor } :=
  wpAll_atOffset o x P

@[simp] lemma shallow_nodeValue (n : Node) (P : Value → Machine → Prop) :
    Shallow (nodeValue n) c m P ↔
      (n.isCompound = true → P (.pattern n) m) ∧
      (n.isCompound = false →
        ∀ v, n.readValue c.data c.config.defaultEndian = .ok v → P v m) := by
  cases h : n.isCompound <;> simp [nodeValue, h]

@[simp] lemma shallow_toNode (op : String) (r : Resolved) (P : Node → Machine → Prop) :
    Shallow (r.toNode op) c m P ↔ ∀ n, r = .node n → P n m := by
  cases r <;> simp [Resolved.toNode]

end Primitives

/-! ### Computations that call no function of the evaluator

Each of them leaves the step counter as it found it. -/

section Leaves

variable {c : Context} {m : Machine}

lemma shallow_roleFunction (name role : String) {P : FunctionDef → Machine → Prop}
    (h : ∀ f, c.function? name = some f → P f m) : Shallow (roleFunction name role) c m P := by
  unfold roleFunction
  simp only [shallow_bind, shallow_read]
  split
  · simp
  · rename_i f hf
    simp only [shallow_ite, shallow_pure, shallow_fault, ne_eq, reduceCtorEq, not_false_eq_true,
      implies_true, and_true]
    exact fun _ => h f hf

lemma shallow_applyAttribute (node : Node) (attr : Attribute) :
    Shallow (applyAttribute node attr) c m fun _ m' => m' = m := by
  refine ⟨(wp_applyAttribute node attr).mono fun _ _ h => h.1, fun e m' he => ?_⟩
  revert he
  refine (?_ : Shallow (applyAttribute node attr) c m fun _ _ => True).2 e m'
  unfold applyAttribute
  split
  · simp
  · -- the tail is shared as a join point; a value is given exactly when the attribute
    -- takes one
    dsimp only
    split
    all_goals first
      | simp only [shallow_fault, ne_eq, reduceCtorEq, not_false_eq_true]
      | split <;> simp only [shallow_bind, shallow_lift, shallow_pure, shallow_ite, shallow_fault,
          parseColor_fuelFree, ne_eq, reduceCtorEq, not_false_eq_true, implies_true, and_self]
    -- what is left asks for a function by its role
    all_goals first
      | exact shallow_roleFunction _ _ fun _ _ => trivial
      | (split <;> simp only [shallow_bind, shallow_pure, shallow_fault, ne_eq, reduceCtorEq,
          not_false_eq_true]
         exact shallow_roleFunction _ _ fun _ _ => trivial)

lemma shallow_applyAttributes (node : Node) (attrs : List Attribute) :
    Shallow (applyAttributes node attrs) c m fun _ m' => m' = m := by
  refine ⟨(wp_applyAttributes node attrs).mono fun _ _ h => h.1, fun e m' he => ?_⟩
  revert he
  refine (?_ : Shallow (applyAttributes node attrs) c m fun _ _ => True).2 e m'
  unfold applyAttributes
  simp only [shallow_bind, shallow_cursor]
  refine shallow_foldlM attrs _ (fun _ _ => True) (fun attr _ _ m' _ => ?_) _ m trivial
  simp only [shallow_bind, shallow_withLine]
  exact (shallow_applyAttribute _ attr).mono fun _ _ _ => by simp

/-- Emitting a node leaves the step counter alone. -/
lemma shallow_emit (node : Node) (inline : Bool) (attrs : List Attribute) :
    Shallow (emit node inline attrs) c m fun _ m' => m'.steps = m.steps := by
  unfold emit
  simp only [shallow_bind]
  refine (shallow_applyAttributes node attrs).mono fun r m₁ h₁ => ?_
  subst h₁
  split <;> simp

lemma shallow_declareLocal (name : String) (ty : TypeDecl) :
    Shallow (declareLocal name ty) c m fun _ m' => m'.steps = m.steps := by
  unfold declareLocal
  split <;> simp

lemma shallow_declareHost (name : String) (ty : TypeDecl) (input : Bool) :
    Shallow (declareHost name ty input) c m fun _ m' => m'.steps = m.steps := by
  unfold declareHost
  dsimp only
  split
  · simp
  · simp
  · cases input
    · simp
    · -- an input variable takes its supplied value cast to its type, or zero
      simp only [shallow_bind, shallow_pure, shallow_get, ↓reduceIte]
      split <;> simp

lemma shallow_buildBuiltin (b : Builtin) (name typeName : String) :
    Shallow (buildBuiltin b name typeName) c m fun _ m' => m'.steps = m.steps := by
  unfold buildBuiltin
  dsimp only
  split
  · simp
  · split <;> simp

lemma shallow_checkArity (name : String) (a : Intrinsic.Arity) (args : List Value) :
    Shallow (Intrinsic.checkArity name a args) c m fun _ m' => m' = m := by
  unfold Intrinsic.checkArity
  split <;> simp

lemma shallow_renderArgs (args : List Value) :
    Shallow (Intrinsic.renderArgs args) c m fun _ m' => m' = m := by
  unfold Intrinsic.renderArgs
  split <;> simp

lemma shallow_readRaw (name : String) (args : List Value) :
    Shallow (Intrinsic.readRaw name args) c m fun _ m' => m' = m := by
  simp only [Intrinsic.readRaw, shallow_bind]
  refine (shallow_checkArity _ _ _).mono fun _ m₁ h₁ => ?_
  subst h₁
  simp only [shallow_lift, shallow_ite, shallow_fault, shallow_bind, Value.toUnsigned_fuelFree,
    true_and, ne_eq, reduceCtorEq, not_false_eq_true, implies_true]
  intro offset _ _ size _ _
  -- the byte order selector: absent, or given as the third argument
  rcases args[2]? with _ | v
  · simp
  · simp only [shallow_bind, shallow_lift, Value.toUnsigned_fuelFree, true_and]
    intro sel _
    rcases sel with _ | _ | _ | n <;> simp

end Leaves

end Eval

/-- Every built-in function: they print, format, check and read the data, and count no
step. -/
lemma Intrinsic.shallow {name : String} {g : List Value → Eval (Option Value)}
    (h : Intrinsic.lookup? name = some g) (args : List Value) (c : Context) (m : Machine) :
    Eval.Shallow (g args) c m fun _ m' => m'.steps = m.steps := by
  have hmem := Intrinsic.mem_table h
  simp only [Intrinsic.table, List.mem_cons, Prod.mk.injEq, List.not_mem_nil, or_false] at hmem
  rcases hmem with ⟨-, rfl⟩ | ⟨-, rfl⟩ | ⟨-, rfl⟩ | ⟨-, rfl⟩ | ⟨-, rfl⟩ | ⟨-, rfl⟩ | ⟨-, rfl⟩
  · simp only [Intrinsic.print, Eval.shallow_bind]
    refine (Eval.shallow_checkArity _ _ _).mono fun _ m₁ h₁ => ?_
    subst h₁
    exact (Eval.shallow_renderArgs args).mono fun _ m₂ h₂ => by simp [h₂]
  · simp only [Intrinsic.format, Eval.shallow_bind]
    refine (Eval.shallow_checkArity _ _ _).mono fun _ m₁ h₁ => ?_
    subst h₁
    exact (Eval.shallow_renderArgs args).mono fun _ m₂ h₂ => by simp [h₂]
  · simp only [Intrinsic.check, Eval.shallow_bind]
    refine (Eval.shallow_checkArity _ _ _).mono fun _ m₁ h₁ => ?_
    subst h₁
    split <;> simp
  · simp only [Intrinsic.memSize, Eval.shallow_bind]
    exact (Eval.shallow_checkArity _ _ _).mono fun _ m₁ h₁ => by simp [h₁]
  · simp only [Intrinsic.memEof, Eval.shallow_bind]
    exact (Eval.shallow_checkArity _ _ _).mono fun _ m₁ h₁ => by simp [h₁]
  · simp only [Intrinsic.readUnsigned, Eval.shallow_bind]
    exact (Eval.shallow_readRaw _ _).mono fun _ m₁ h₁ => by simp [h₁]
  · simp only [Intrinsic.readSigned, Eval.shallow_bind]
    exact (Eval.shallow_readRaw _ _).mono fun _ m₁ h₁ => by simp [h₁]

end ByteLayout

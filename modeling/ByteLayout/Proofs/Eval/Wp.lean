import Mathlib
import ByteLayout.Eval.Interp

/-!
# Reasoning about evaluations

An evaluation `x : Eval α` reads a context and a machine state and either fails or returns
a value, in either case with the state it ends in. `Eval.Wp x c m post` says that every
successful run of `x` from `m` under `c` ends in a value and a state satisfying `post`;
`Eval.WpFail x c m post` says the same of the error and the state of every failed run.
A caller that puts back what it changed before it passes a failure on (`Eval.attempt`) is
reasoned about with both.

The rules below take `Wp` through the monad operations and through the primitives of the
evaluation machine. They are `simp` lemmas, so `simp only` walks through a `do` block and
leaves one goal for each call it cannot see into: a recursive call, which the caller then
closes by its induction hypothesis.

## Main definitions

* `Eval.Wp` — the postcondition of the successful runs.
* `Eval.WpFail` — the postcondition of the failed runs.
* `Eval.WpAll` — both, for properties of every run however it ends.

## Main results

* `Eval.wp_bind`, `Eval.wp_pure`, `Eval.wp_ite`, … — the rules of the monad.
* `Eval.wp_tick`, `Eval.wp_newNode`, `Eval.wp_atOffset`, … — the primitives of the machine.
* `Eval.wp_forM`, `Eval.wp_mapM`, `Eval.wp_foldlM` — loops over lists, by an invariant.
* `Eval.wpAll_bind`, `Eval.wpAll_attempt`, `Eval.wpAll_atOffset`, … — the same rules for
  `WpAll`: a caught failure continues with the state it left, and a run at an address puts
  the cursor back however it ends.
-/

namespace ByteLayout

/-- A read succeeds only inside the data. -/
lemma Data.le_of_read {D : ByteArray} {o n : Nat} {b : List Nat} (h : Data.read D o n = .ok b) :
    o + n ≤ D.size := by
  unfold Data.read at h
  split at h
  · assumption
  · cases h

namespace Eval

variable {α β γ : Type}

/-- Every successful run of `x` from `m` under `c` ends in a value and a state satisfying
`post`. -/
def Wp (x : Eval α) (c : Context) (m : Machine) (post : α → Machine → Prop) : Prop :=
  ∀ a m', (x.run c).run m = .ok a m' → post a m'

/-- Every failed run of `x` from `m` under `c` raises an error, and leaves a state, satisfying
`post`. -/
def WpFail (x : Eval α) (c : Context) (m : Machine) (post : EvalError → Machine → Prop) : Prop :=
  ∀ e m', (x.run c).run m = .error e m' → post e m'

/-! ### The rules of the monad -/

section Rules

variable {c : Context} {m : Machine} {P Q : α → Machine → Prop}
  {E F : EvalError → Machine → Prop}

lemma Wp.mono {x : Eval α} (h : Wp x c m P) (hPQ : ∀ a m', P a m' → Q a m') :
    Wp x c m Q :=
  fun a m' hx => hPQ a m' (h a m' hx)

lemma Wp.and {x : Eval α} (hP : Wp x c m P) (hQ : Wp x c m Q) :
    Wp x c m fun a m' => P a m' ∧ Q a m' :=
  fun a m' hx => ⟨hP a m' hx, hQ a m' hx⟩

/-- A postcondition may name the value and the state a run reaches. -/
lemma wp_ran (x : Eval α) (c : Context) (m : Machine) :
    Wp x c m fun a m' => (x.run c).run m = .ok a m' :=
  fun _ _ hx => hx

lemma WpFail.mono {x : Eval α} (h : WpFail x c m E) (hEF : ∀ e m', E e m' → F e m') :
    WpFail x c m F :=
  fun e m' hx => hEF e m' (h e m' hx)

lemma WpFail.and {x : Eval α} (hE : WpFail x c m E) (hF : WpFail x c m F) :
    WpFail x c m fun e m' => E e m' ∧ F e m' :=
  fun e m' hx => ⟨hE e m' hx, hF e m' hx⟩

lemma Wp.of_ok {x : Eval α} {a : α} {m' : Machine} (hx : (x.run c).run m = .ok a m') :
    Wp x c m P ↔ P a m' :=
  ⟨fun h => h a m' hx, fun h b m'' hb => by rw [hx] at hb; cases hb; exact h⟩

lemma Wp.of_error {x : Eval α} {e : EvalError} {m' : Machine}
    (hx : (x.run c).run m = .error e m') : Wp x c m P :=
  fun _ _ h => by rw [hx] at h; cases h

lemma WpFail.of_ok {x : Eval α} {a : α} {m' : Machine} (hx : (x.run c).run m = .ok a m') :
    WpFail x c m E :=
  fun _ _ h => by rw [hx] at h; cases h

lemma WpFail.of_error {x : Eval α} {e : EvalError} {m' : Machine}
    (hx : (x.run c).run m = .error e m') : WpFail x c m E ↔ E e m' :=
  ⟨fun h => h e m' hx, fun h e' m'' he => by rw [hx] at he; cases he; exact h⟩

lemma run_bind (x : Eval α) (f : α → Eval β) :
    ((x >>= f).run c).run m =
      match (x.run c).run m with
      | .ok a m' => ((f a).run c).run m'
      | .error e m' => .error e m' := by
  change EStateM.bind (x c) (fun a => f a c) m = _
  simp only [EStateM.bind, ReaderT.run, EStateM.run]
  rcases x c m with ⟨a, m'⟩ | ⟨e, m'⟩ <;> rfl

lemma run_tryCatch (x : Eval α) (h : EvalError → Eval α) :
    ((tryCatch x h).run c).run m =
      match (x.run c).run m with
      | .ok a m' => .ok a m'
      | .error e m' => ((h e).run c).run m' := by
  change EStateM.tryCatch (x c) (fun e => h e c) m = _
  simp only [EStateM.tryCatch, ReaderT.run, EStateM.run]
  rcases x c m with ⟨a, m'⟩ | ⟨e, m'⟩ <;> rfl

/-- An outcome is a failure exactly when the run fails, in whatever state it leaves. -/
lemma outcome_eq_error {x : Eval α} {e : EvalError} :
    x.outcome c m = .error e ↔ ∃ m', (x.run c).run m = .error e m' := by
  unfold Eval.outcome
  rcases (x.run c).run m with ⟨a, m'⟩ | ⟨e', m'⟩ <;> simp

@[simp] lemma wp_bind (x : Eval α) (f : α → Eval β) (P : β → Machine → Prop) :
    Wp (x >>= f) c m P ↔ Wp x c m fun a m' => Wp (f a) c m' P := by
  unfold Wp
  rw [run_bind]
  constructor
  · intro h a m' hx b m'' hf
    exact h b m'' (by rw [hx]; exact hf)
  · intro h b m'' hr
    rcases hx : (x.run c).run m with ⟨a, m'⟩ | ⟨e, m'⟩
    · rw [hx] at hr; exact h a m' hx b m'' hr
    · rw [hx] at hr; cases hr

/-- A failure of `x >>= f` is a failure of `x`, or of `f` after a success of `x`. -/
@[simp] lemma wpFail_bind (x : Eval α) (f : α → Eval β) (E : EvalError → Machine → Prop) :
    WpFail (x >>= f) c m E ↔ WpFail x c m E ∧ Wp x c m fun a m' => WpFail (f a) c m' E := by
  unfold WpFail Wp
  rw [run_bind]
  constructor
  · intro h
    refine ⟨fun e m' hx => h e m' (by rw [hx]), fun a m' hx e m'' hf => h e m'' ?_⟩
    rw [hx]
    exact hf
  · rintro ⟨h₁, h₂⟩ e m'' hr
    rcases hx : (x.run c).run m with ⟨a, m'⟩ | ⟨e', m'⟩
    · rw [hx] at hr; exact h₂ a m' hx e m'' hr
    · rw [hx] at hr; cases hr; exact h₁ _ _ hx

@[simp] lemma wp_pure (a : α) : Wp (pure a : Eval α) c m P ↔ P a m := Wp.of_ok rfl

@[simp] lemma wpFail_pure (a : α) : WpFail (pure a : Eval α) c m E := WpFail.of_ok rfl

@[simp] lemma wp_map (f : α → β) (x : Eval α) (P : β → Machine → Prop) :
    Wp (f <$> x) c m P ↔ Wp x c m fun a m' => P (f a) m' := by
  rw [map_eq_pure_bind, wp_bind]
  simp only [wp_pure]

@[simp] lemma wpFail_map (f : α → β) (x : Eval α) :
    WpFail (f <$> x) c m E ↔ WpFail x c m E := by
  rw [map_eq_pure_bind, wpFail_bind]
  simp only [wpFail_pure, and_iff_left_iff_imp]
  exact fun _ _ _ _ => trivial

@[simp] lemma wp_get (P : Machine → Machine → Prop) : Wp (get : Eval Machine) c m P ↔ P m m :=
  Wp.of_ok rfl

@[simp] lemma wpFail_get : WpFail (get : Eval Machine) c m E := WpFail.of_ok rfl

@[simp] lemma wp_read (P : Context → Machine → Prop) :
    Wp (read : Eval Context) c m P ↔ P c m :=
  Wp.of_ok rfl

@[simp] lemma wpFail_read : WpFail (read : Eval Context) c m E := WpFail.of_ok rfl

@[simp] lemma wp_modify (g : Machine → Machine) (P : Unit → Machine → Prop) :
    Wp (modify g : Eval Unit) c m P ↔ P () (g m) :=
  Wp.of_ok rfl

@[simp] lemma wpFail_modify (g : Machine → Machine) : WpFail (modify g : Eval Unit) c m E :=
  WpFail.of_ok rfl

@[simp] lemma wp_throw (e : EvalError) : Wp (throw e : Eval α) c m P := Wp.of_error rfl

@[simp] lemma wpFail_throw (e : EvalError) : WpFail (throw e : Eval α) c m E ↔ E e m :=
  WpFail.of_error rfl

@[simp] lemma wp_ite (p : Prop) [Decidable p] (x y : Eval α) :
    Wp (if p then x else y) c m P ↔ (p → Wp x c m P) ∧ (¬p → Wp y c m P) := by
  by_cases hp : p <;> simp [hp]

@[simp] lemma wpFail_ite (p : Prop) [Decidable p] (x y : Eval α) :
    WpFail (if p then x else y) c m E ↔ (p → WpFail x c m E) ∧ (¬p → WpFail y c m E) := by
  by_cases hp : p <;> simp [hp]

/-- A handler that only rethrows leaves the successful runs as they were. -/
lemma wp_tryCatch_rethrow (x : Eval α) (g : EvalError → EvalError) :
    Wp (tryCatch x fun e => throw (g e)) c m P ↔ Wp x c m P := by
  unfold Wp
  rw [run_tryCatch]
  rcases (x.run c).run m with ⟨a, m'⟩ | ⟨e, m'⟩
  · rfl
  · constructor <;> intro _ _ _ h <;> exact absurd h (by rintro ⟨⟩)

/-- A handler that only rethrows changes the error and keeps the state it failed in. -/
lemma wpFail_tryCatch_rethrow (x : Eval α) (g : EvalError → EvalError) :
    WpFail (tryCatch x fun e => throw (g e)) c m E ↔ WpFail x c m fun e m' => E (g e) m' := by
  unfold WpFail
  rw [run_tryCatch]
  rcases (x.run c).run m with ⟨a, m'⟩ | ⟨e, m'⟩
  · constructor <;> intro _ _ _ h <;> exact absurd h (by rintro ⟨⟩)
  · constructor
    · intro h e' m'' he
      cases he
      exact h _ _ rfl
    · intro h e' m'' he
      cases he
      exact h _ _ rfl

@[simp] lemma wp_withLine (l : Nat) (x : Eval α) : Wp (withLine l x) c m P ↔ Wp x c m P :=
  wp_tryCatch_rethrow x _

@[simp] lemma wpFail_withLine (l : Nat) (x : Eval α) :
    WpFail (withLine l x) c m E ↔ WpFail x c m fun e m' => E (e.withLine l) m' :=
  wpFail_tryCatch_rethrow x _

@[simp] lemma wp_withNode (n : String) (x : Eval α) : Wp (withNode n x) c m P ↔ Wp x c m P :=
  wp_tryCatch_rethrow x _

@[simp] lemma wpFail_withNode (n : String) (x : Eval α) :
    WpFail (withNode n x) c m E ↔ WpFail x c m fun e m' => E (e.withNode n) m' :=
  wpFail_tryCatch_rethrow x _

@[simp] lemma wp_fault (f : EvalFault) : Wp (fault f : Eval α) c m P := Wp.of_error rfl

@[simp] lemma wpFail_fault (f : EvalFault) :
    WpFail (fault f : Eval α) c m E ↔ E (.ofFault f) m :=
  WpFail.of_error rfl

@[simp] lemma wp_lift (e : Except EvalFault α) :
    Wp (lift e) c m P ↔ ∀ a, e = .ok a → P a m := by
  cases e <;> simp [lift]

@[simp] lemma wpFail_lift (e : Except EvalFault α) :
    WpFail (lift e) c m E ↔ ∀ f, e = .error f → E (.ofFault f) m := by
  cases e <;> simp [lift]

/-- The postcondition that asks nothing. -/
@[simp] lemma wp_true (x : Eval α) : Wp x c m fun _ _ => True := fun _ _ _ => trivial

@[simp] lemma wpFail_true (x : Eval α) : WpFail x c m fun _ _ => True := fun _ _ _ => trivial

/-- A caught outcome: the value of a success, or the error of a failure, each with the state
the run of `x` left. -/
@[simp] lemma wp_attempt (x : Eval α) (P : Except EvalError α → Machine → Prop) :
    Wp (attempt x) c m P ↔
      Wp x c m (fun a m' => P (.ok a) m') ∧ WpFail x c m fun e m' => P (.error e) m' := by
  unfold attempt Wp WpFail
  rw [run_tryCatch, map_eq_pure_bind, run_bind]
  rcases (x.run c).run m with ⟨a, m'⟩ | ⟨e, m'⟩
  · constructor
    · intro h
      exact ⟨fun b m'' hb => by cases hb; exact h _ _ rfl, fun _ _ he => (by cases he)⟩
    · rintro ⟨h, -⟩ r m'' hr
      cases hr
      exact h _ _ rfl
  · constructor
    · intro h
      exact ⟨fun _ _ hb => (by cases hb), fun e' m'' he => by cases he; exact h _ _ rfl⟩
    · rintro ⟨-, h⟩ r m'' hr
      cases hr
      exact h _ _ rfl

/-- Catching never fails. -/
@[simp] lemma wpFail_attempt (x : Eval α) : WpFail (attempt x) c m E := by
  unfold attempt WpFail
  rw [run_tryCatch, map_eq_pure_bind, run_bind]
  rcases (x.run c).run m with ⟨a, m'⟩ | ⟨e, m'⟩ <;> rintro _ _ ⟨⟩

@[simp] lemma wp_ofExcept_ok (a : α) :
    Wp (MonadExcept.ofExcept (.ok a : Except EvalError α) : Eval α) c m P ↔ P a m :=
  Wp.of_ok rfl

/-- A caught failure thrown again. -/
@[simp] lemma wp_ofExcept_error (e : EvalError) :
    Wp (MonadExcept.ofExcept (.error e : Except EvalError α) : Eval α) c m P :=
  Wp.of_error rfl

@[simp] lemma wpFail_ofExcept_ok (a : α) :
    WpFail (MonadExcept.ofExcept (.ok a : Except EvalError α) : Eval α) c m E :=
  WpFail.of_ok rfl

@[simp] lemma wpFail_ofExcept_error (e : EvalError) :
    WpFail (MonadExcept.ofExcept (.error e : Except EvalError α) : Eval α) c m E ↔ E e m :=
  WpFail.of_error rfl

end Rules

/-! ### Both outcomes -/

/-- Every run of `x` from `m` under `c` ends in a value and a state satisfying `ok` when it
succeeds, and in an error and a state satisfying `err` when it fails. -/
def WpAll (x : Eval α) (c : Context) (m : Machine) (ok : α → Machine → Prop)
    (err : EvalError → Machine → Prop) : Prop :=
  Wp x c m ok ∧ WpFail x c m err

section RulesAll

variable {c : Context} {m : Machine} {P Q : α → Machine → Prop}
  {E F : EvalError → Machine → Prop}

lemma WpAll.mono {x : Eval α} (h : WpAll x c m P E) (hP : ∀ a m', P a m' → Q a m')
    (hE : ∀ e m', E e m' → F e m') : WpAll x c m Q F :=
  ⟨h.1.mono hP, h.2.mono hE⟩

@[simp] lemma wpAll_bind (x : Eval α) (f : α → Eval β) (P : β → Machine → Prop)
    (E : EvalError → Machine → Prop) :
    WpAll (x >>= f) c m P E ↔ WpAll x c m (fun a m' => WpAll (f a) c m' P E) E := by
  simp only [WpAll, wp_bind, wpFail_bind]
  constructor
  · rintro ⟨h₁, h₂, h₃⟩
    exact ⟨h₁.and h₃, h₂⟩
  · rintro ⟨h₁, h₂⟩
    exact ⟨h₁.mono fun _ _ h => h.1, h₂, h₁.mono fun _ _ h => h.2⟩

@[simp] lemma wpAll_pure (a : α) : WpAll (pure a : Eval α) c m P E ↔ P a m := by
  simp [WpAll]

@[simp] lemma wpAll_map (f : α → β) (x : Eval α) (P : β → Machine → Prop) :
    WpAll (f <$> x) c m P E ↔ WpAll x c m (fun a m' => P (f a) m') E := by
  simp [WpAll]

@[simp] lemma wpAll_get (P : Machine → Machine → Prop) :
    WpAll (get : Eval Machine) c m P E ↔ P m m := by
  simp [WpAll]

@[simp] lemma wpAll_read (P : Context → Machine → Prop) :
    WpAll (read : Eval Context) c m P E ↔ P c m := by
  simp [WpAll]

@[simp] lemma wpAll_modify (g : Machine → Machine) (P : Unit → Machine → Prop) :
    WpAll (modify g : Eval Unit) c m P E ↔ P () (g m) := by
  simp [WpAll]

@[simp] lemma wpAll_throw (e : EvalError) : WpAll (throw e : Eval α) c m P E ↔ E e m := by
  simp [WpAll]

@[simp] lemma wpAll_ite (p : Prop) [Decidable p] (x y : Eval α) :
    WpAll (if p then x else y) c m P E ↔ (p → WpAll x c m P E) ∧ (¬p → WpAll y c m P E) := by
  by_cases hp : p <;> simp [hp]

@[simp] lemma wpAll_withLine (l : Nat) (x : Eval α) :
    WpAll (withLine l x) c m P E ↔ WpAll x c m P fun e m' => E (e.withLine l) m' := by
  simp [WpAll]

@[simp] lemma wpAll_withNode (n : String) (x : Eval α) :
    WpAll (withNode n x) c m P E ↔ WpAll x c m P fun e m' => E (e.withNode n) m' := by
  simp [WpAll]

@[simp] lemma wpAll_fault (f : EvalFault) :
    WpAll (fault f : Eval α) c m P E ↔ E (.ofFault f) m := by
  simp [WpAll]

@[simp] lemma wpAll_lift (e : Except EvalFault α) :
    WpAll (lift e) c m P E ↔ (∀ a, e = .ok a → P a m) ∧ ∀ f, e = .error f → E (.ofFault f) m := by
  simp [WpAll]

/-- A caught run: its value or its error, each with the state the run of `x` left. -/
@[simp] lemma wpAll_attempt (x : Eval α) (P : Except EvalError α → Machine → Prop) :
    WpAll (attempt x) c m P E ↔ WpAll x c m (fun a m' => P (.ok a) m') fun e m' => P (.error e) m' := by
  simp [WpAll]

@[simp] lemma wpAll_ofExcept_ok (a : α) :
    WpAll (MonadExcept.ofExcept (.ok a : Except EvalError α) : Eval α) c m P E ↔ P a m := by
  simp [WpAll]

@[simp] lemma wpAll_ofExcept_error (e : EvalError) :
    WpAll (MonadExcept.ofExcept (.error e : Except EvalError α) : Eval α) c m P E ↔ E e m := by
  simp [WpAll]

end RulesAll

/-! ### Computations that change no state -/

/-- A computation that only reads the context and may fail: it ends in the state it started
in, however it ends. -/
class StateFree (x : Eval α) : Prop where
  same : ∀ c m, WpAll x c m (fun _ m' => m' = m) fun _ m' => m' = m

instance stateFree_pure (a : α) : StateFree (pure a : Eval α) := ⟨fun _ _ => by simp⟩

instance stateFree_read : StateFree (read : Eval Context) := ⟨fun _ _ => by simp⟩

instance stateFree_fault (f : EvalFault) : StateFree (fault f : Eval α) := ⟨fun _ _ => by simp⟩

instance stateFree_lift (e : Except EvalFault α) : StateFree (lift e) := ⟨fun _ _ => by simp⟩

instance stateFree_bind (x : Eval α) (f : α → Eval β) [hx : StateFree x]
    [hf : ∀ a, StateFree (f a)] : StateFree (x >>= f) := ⟨fun c m => by
  rw [wpAll_bind]
  refine (hx.same c m).mono (fun a m' h => ?_) fun _ _ h => h
  subst h
  exact (hf a).same c m'⟩

instance stateFree_ite (p : Prop) [Decidable p] (x y : Eval α) [StateFree x] [StateFree y] :
    StateFree (if p then x else y) := by
  split <;> infer_instance

/-- Sequencing with a continuation whose instances are proved by hand. -/
lemma StateFree.bind (x : Eval α) [StateFree x] {f : α → Eval β} (hf : ∀ a, StateFree (f a)) :
    StateFree (x >>= f) := inferInstance

/-! ### Loops over lists -/

section Loops

variable {c : Context}

/-- A state invariant kept by every iteration is kept by the loop. -/
lemma wp_forM (l : List γ) (f : γ → Eval PUnit) (I : Machine → Prop)
    (hf : ∀ a ∈ l, ∀ m, I m → Wp (f a) c m fun _ m' => I m') :
    ∀ m, I m → Wp (l.forM f) c m fun _ m' => I m' := by
  induction l with
  | nil => intro m hm; simpa using hm
  | cons a l ih =>
    intro m hm
    simp only [List.forM, wp_bind]
    exact (hf a (by simp) m hm).mono fun _ m' hm' =>
      ih (fun b hb => hf b (by simp [hb])) m' hm'

/-- A state invariant kept by every element's evaluation is kept by the whole map. -/
lemma wp_mapM (l : List γ) (f : γ → Eval β) (I : Machine → Prop)
    (hf : ∀ a ∈ l, ∀ m, I m → Wp (f a) c m fun _ m' => I m') :
    ∀ m, I m → Wp (l.mapM f) c m fun _ m' => I m' := by
  induction l with
  | nil => intro m hm; simpa using hm
  | cons a l ih =>
    intro m hm
    simp only [List.mapM_cons, wp_bind, wp_pure]
    exact (hf a (by simp) m hm).mono fun _ m' hm' =>
      ih (fun b hb => hf b (by simp [hb])) m' hm'

/-- An invariant of the accumulator and the state kept by every step is kept by the fold. -/
lemma wp_foldlM (l : List γ) (f : β → γ → Eval β) (I : β → Machine → Prop)
    (hf : ∀ a ∈ l, ∀ b m, I b m → Wp (f b a) c m I) :
    ∀ b m, I b m → Wp (l.foldlM f b) c m I := by
  induction l with
  | nil => intro b m hm; simpa using hm
  | cons a l ih =>
    intro b m hm
    simp only [List.foldlM_cons, wp_bind]
    exact (hf a (by simp) b m hm).mono fun b' m' hm' =>
      ih (fun a' ha' => hf a' (by simp [ha'])) b' m' hm'

/-- A fold whose invariant also reads the elements processed so far. -/
lemma wp_foldlM_invariant (l : List γ) (f : β → γ → Eval β) (I : List γ → β → Machine → Prop)
    (hf : ∀ pre a, pre ++ [a] <+: l → ∀ b m, I pre b m → Wp (f b a) c m (I (pre ++ [a]))) :
    ∀ b m, I [] b m → Wp (l.foldlM f b) c m (I l) := by
  induction l generalizing I with
  | nil => intro b m hm; simpa using hm
  | cons a l ih =>
    intro b m hm
    simp only [List.foldlM_cons, wp_bind]
    -- after the first element, the invariant of the rest is read with `a` in front
    refine (hf [] a (by simp) b m hm).mono fun b' m' hm' => ?_
    refine ih (fun pre => I (a :: pre)) (fun pre x hx b'' m'' h => ?_) b' m' hm'
    exact hf (a :: pre) x (by simpa using List.prefix_cons_inj a |>.mpr hx) b'' m'' h

/-- A state invariant kept by every iteration, and holding where an iteration fails, holds
wherever the loop ends. -/
lemma wpAll_forM (l : List γ) (f : γ → Eval PUnit) (I : Machine → Prop)
    (E : EvalError → Machine → Prop)
    (hf : ∀ a ∈ l, ∀ m, I m → WpAll (f a) c m (fun _ m' => I m') E) :
    ∀ m, I m → WpAll (l.forM f) c m (fun _ m' => I m') E := by
  induction l with
  | nil => intro m hm; simpa using hm
  | cons a l ih =>
    intro m hm
    simp only [List.forM, wpAll_bind]
    exact (hf a (by simp) m hm).mono (fun _ m' hm' =>
      ih (fun b hb => hf b (by simp [hb])) m' hm') fun _ _ h => h

/-- The same for a map. -/
lemma wpAll_mapM (l : List γ) (f : γ → Eval β) (I : Machine → Prop)
    (E : EvalError → Machine → Prop)
    (hf : ∀ a ∈ l, ∀ m, I m → WpAll (f a) c m (fun _ m' => I m') E) :
    ∀ m, I m → WpAll (l.mapM f) c m (fun _ m' => I m') E := by
  induction l with
  | nil => intro m hm; simpa using hm
  | cons a l ih =>
    intro m hm
    simp only [List.mapM_cons, wpAll_bind, wpAll_pure]
    exact (hf a (by simp) m hm).mono (fun _ m' hm' =>
      ih (fun b hb => hf b (by simp [hb])) m' hm') fun _ _ h => h

/-- The same for a fold, whose invariant also reads the accumulator. -/
lemma wpAll_foldlM (l : List γ) (f : β → γ → Eval β) (I : β → Machine → Prop)
    (E : EvalError → Machine → Prop)
    (hf : ∀ a ∈ l, ∀ b m, I b m → WpAll (f b a) c m I E) :
    ∀ b m, I b m → WpAll (l.foldlM f b) c m I E := by
  induction l with
  | nil => intro b m hm; simpa using hm
  | cons a l ih =>
    intro b m hm
    simp only [List.foldlM_cons, wpAll_bind]
    exact (hf a (by simp) b m hm).mono (fun b' m' hm' =>
      ih (fun a' ha' => hf a' (by simp [ha'])) b' m' hm') fun _ _ h => h

end Loops

/-! ### The primitives of the machine -/

section Primitives

variable {c : Context} {m : Machine}

@[simp] lemma wp_cursor (P : Nat → Machine → Prop) : Wp cursor c m P ↔ P m.cursor m := by
  simp [cursor]

@[simp] lemma wp_setCursor (n : Nat) (P : Unit → Machine → Prop) :
    Wp (setCursor n) c m P ↔ P () { m with cursor := n } := by
  simp [setCursor]

@[simp] lemma wp_modifyScope (g : Scope → Scope) (P : Unit → Machine → Prop) :
    Wp (modifyScope g) c m P ↔ P () { m with scope := g m.scope } := by
  simp [modifyScope]

@[simp] lemma wp_splice (N : Node) (P : Unit → Machine → Prop) :
    Wp (splice N) c m P ↔
      P () { m with scope := m.scope.extendMembers N.children, spliced := m.spliced + 1 } := by
  simp [splice]

@[simp] lemma wp_pushFrame (k : FrameKind) (tn : String) (P : Unit → Machine → Prop) :
    Wp (pushFrame k tn) c m P ↔ P () { m with scope := m.scope.push k m.cursor tn } := by
  simp [pushFrame]

@[simp] lemma wp_popFrame (P : Frame → Machine → Prop) :
    Wp popFrame c m P ↔ P m.scope.pop.1 { m with scope := m.scope.pop.2 } := by
  simp [popFrame]

@[simp] lemma wp_config (P : RunConfig → Machine → Prop) :
    Wp config c m P ↔ P c.config m := by
  simp [config]

@[simp] lemma wp_defaultEndian (P : Endian → Machine → Prop) :
    Wp defaultEndian c m P ↔ P c.config.defaultEndian m := by
  simp [defaultEndian]

@[simp] lemma wp_endianFor (d : Option Endian) (P : Endian → Machine → Prop) :
    Wp (endianFor d) c m P ↔ P ((d <|> m.endian).getD c.config.defaultEndian) m := by
  simp [endianFor]

@[simp] lemma wp_tick (P : Unit → Machine → Prop) :
    Wp tick c m P ↔
      (¬(0 < c.config.maxSteps ∧ c.config.maxSteps < m.steps + 1) →
        P () { m with steps := m.steps + 1 }) := by
  simp [tick]

@[simp] lemma wp_countPattern (P : Unit → Machine → Prop) :
    Wp countPattern c m P ↔
      (¬(0 < c.config.maxPatterns ∧ c.config.maxPatterns < m.patterns + 1) →
        P () { m with patterns := m.patterns + 1 }) := by
  simp [countPattern]

@[simp] lemma wp_enter (P : Unit → Machine → Prop) :
    Wp enter c m P ↔
      (¬(0 < c.config.maxRecursionDepth ∧ c.config.maxRecursionDepth ≤ m.depth) →
        P () { m with depth := m.depth + 1 }) := by
  simp [enter]

@[simp] lemma wp_leave (P : Unit → Machine → Prop) :
    Wp leave c m P ↔ P () { m with depth := m.depth - 1 } := by
  simp [leave]

@[simp] lemma wp_checkRange (o s : Nat) (P : Unit → Machine → Prop) :
    Wp (checkRange o s) c m P ↔ (o + s ≤ c.data.size → P () m) := by
  simp [checkRange]

@[simp] lemma wp_readBytes (o s : Nat) (P : List Nat → Machine → Prop) :
    Wp (readBytes o s) c m P ↔ ∀ bs, Data.read c.data o s = .ok bs → P bs m := by
  simp [readBytes]

@[simp] lemma wp_checkArrayLength (n : Nat) (P : Unit → Machine → Prop) :
    Wp (checkArrayLength n) c m P ↔
      (¬(0 < c.config.maxArrayLength ∧ c.config.maxArrayLength < n) → P () m) := by
  simp [checkArrayLength]

@[simp] lemma wp_newNode (name tn : String) (o s : Nat) (k : NodeKind)
    (P : Node → Machine → Prop) :
    Wp (newNode name tn o s k) c m P ↔
      (¬(0 < c.config.maxPatterns ∧ c.config.maxPatterns < m.patterns + 1) →
        P { Node.fresh name tn o s k with endian := m.endian }
          { m with patterns := m.patterns + 1 }) := by
  simp [newNode]

@[simp] lemma wp_truth (v : Value) (P : Bool → Machine → Prop) :
    Wp (truth v) c m P ↔ ∀ b, v.toBool = .ok b → P b m := by
  simp [truth]

@[simp] lemma wp_atOffset (o : Nat) (x : Eval α) (P : α → Machine → Prop) :
    Wp (atOffset o x) c m P ↔
      Wp x c { m with cursor := o } fun a m' => P a { m' with cursor := m.cursor } := by
  simp [atOffset]

@[simp] lemma wp_nodeValue (n : Node) (P : Value → Machine → Prop) :
    Wp (nodeValue n) c m P ↔
      (n.isCompound = true → P (.pattern n) m) ∧
      (n.isCompound = false →
        ∀ v, n.readValue c.data c.config.defaultEndian = .ok v → P v m) := by
  cases h : n.isCompound <;> simp [nodeValue, h]

@[simp] lemma wp_toNode (op : String) (r : Resolved) (P : Node → Machine → Prop) :
    Wp (r.toNode op) c m P ↔ ∀ n, r = .node n → P n m := by
  cases r <;> simp [Resolved.toNode]

end Primitives

/-! ### The primitives, on both outcomes -/

section PrimitivesAll

variable {c : Context} {m : Machine} {E : EvalError → Machine → Prop}

@[simp] lemma wpAll_cursor (P : Nat → Machine → Prop) : WpAll cursor c m P E ↔ P m.cursor m := by
  simp [cursor]

@[simp] lemma wpAll_setCursor (n : Nat) (P : Unit → Machine → Prop) :
    WpAll (setCursor n) c m P E ↔ P () { m with cursor := n } := by
  simp [setCursor]

@[simp] lemma wpAll_modifyScope (g : Scope → Scope) (P : Unit → Machine → Prop) :
    WpAll (modifyScope g) c m P E ↔ P () { m with scope := g m.scope } := by
  simp [modifyScope]

@[simp] lemma wpAll_splice (N : Node) (P : Unit → Machine → Prop) :
    WpAll (splice N) c m P E ↔
      P () { m with scope := m.scope.extendMembers N.children, spliced := m.spliced + 1 } := by
  simp [splice]

@[simp] lemma wpAll_pushFrame (k : FrameKind) (tn : String) (P : Unit → Machine → Prop) :
    WpAll (pushFrame k tn) c m P E ↔ P () { m with scope := m.scope.push k m.cursor tn } := by
  simp [pushFrame]

@[simp] lemma wpAll_popFrame (P : Frame → Machine → Prop) :
    WpAll popFrame c m P E ↔ P m.scope.pop.1 { m with scope := m.scope.pop.2 } := by
  simp [popFrame]

@[simp] lemma wpAll_config (P : RunConfig → Machine → Prop) :
    WpAll config c m P E ↔ P c.config m := by
  simp [config]

@[simp] lemma wpAll_defaultEndian (P : Endian → Machine → Prop) :
    WpAll defaultEndian c m P E ↔ P c.config.defaultEndian m := by
  simp [defaultEndian]

@[simp] lemma wpAll_endianFor (d : Option Endian) (P : Endian → Machine → Prop) :
    WpAll (endianFor d) c m P E ↔ P ((d <|> m.endian).getD c.config.defaultEndian) m := by
  simp [endianFor]

@[simp] lemma wpAll_tick (P : Unit → Machine → Prop) :
    WpAll tick c m P E ↔
      (0 < c.config.maxSteps ∧ c.config.maxSteps < m.steps + 1 →
        E (.ofFault (.stepLimit c.config.maxSteps)) { m with steps := m.steps + 1 }) ∧
      (¬(0 < c.config.maxSteps ∧ c.config.maxSteps < m.steps + 1) →
        P () { m with steps := m.steps + 1 }) := by
  simp only [tick, wpAll_bind, wpAll_modify, wpAll_config, wpAll_get, wpAll_ite, wpAll_fault,
    wpAll_pure, Bool.and_eq_true, decide_eq_true_eq, gt_iff_lt]

@[simp] lemma wpAll_countPattern (P : Unit → Machine → Prop) :
    WpAll countPattern c m P E ↔
      (0 < c.config.maxPatterns ∧ c.config.maxPatterns < m.patterns + 1 →
        E (.ofFault (.patternLimit c.config.maxPatterns)) { m with patterns := m.patterns + 1 }) ∧
      (¬(0 < c.config.maxPatterns ∧ c.config.maxPatterns < m.patterns + 1) →
        P () { m with patterns := m.patterns + 1 }) := by
  simp only [countPattern, wpAll_bind, wpAll_modify, wpAll_config, wpAll_get, wpAll_ite,
    wpAll_fault, wpAll_pure, Bool.and_eq_true, decide_eq_true_eq, gt_iff_lt]

@[simp] lemma wpAll_enter (P : Unit → Machine → Prop) :
    WpAll enter c m P E ↔
      (0 < c.config.maxRecursionDepth ∧ c.config.maxRecursionDepth ≤ m.depth →
        E (.ofFault (.recursionLimit c.config.maxRecursionDepth)) m) ∧
      (¬(0 < c.config.maxRecursionDepth ∧ c.config.maxRecursionDepth ≤ m.depth) →
        P () { m with depth := m.depth + 1 }) := by
  simp only [enter, wpAll_bind, wpAll_modify, wpAll_config, wpAll_get, wpAll_ite, wpAll_fault,
    Bool.and_eq_true, decide_eq_true_eq, gt_iff_lt, ge_iff_le]

@[simp] lemma wpAll_leave (P : Unit → Machine → Prop) :
    WpAll leave c m P E ↔ P () { m with depth := m.depth - 1 } := by
  simp [leave]

@[simp] lemma wpAll_checkRange (o s : Nat) (P : Unit → Machine → Prop) :
    WpAll (checkRange o s) c m P E ↔
      (c.data.size < o + s → E (.ofFault (.outOfBounds o s c.data.size)) m) ∧
      (o + s ≤ c.data.size → P () m) := by
  simp only [checkRange, wpAll_bind, wpAll_read, wpAll_ite, wpAll_fault, wpAll_pure, gt_iff_lt,
    not_lt]

@[simp] lemma wpAll_readBytes (o s : Nat) (P : List Nat → Machine → Prop) :
    WpAll (readBytes o s) c m P E ↔
      (∀ bs, Data.read c.data o s = .ok bs → P bs m) ∧
      ∀ f, Data.read c.data o s = .error f → E (.ofFault f) m := by
  simp [readBytes]

@[simp] lemma wpAll_checkArrayLength (n : Nat) (P : Unit → Machine → Prop) :
    WpAll (checkArrayLength n) c m P E ↔
      (0 < c.config.maxArrayLength ∧ c.config.maxArrayLength < n →
        E (.ofFault (.arrayLimit c.config.maxArrayLength)) m) ∧
      (¬(0 < c.config.maxArrayLength ∧ c.config.maxArrayLength < n) → P () m) := by
  simp only [checkArrayLength, wpAll_bind, wpAll_config, wpAll_ite, wpAll_fault, wpAll_pure,
    Bool.and_eq_true, decide_eq_true_eq, gt_iff_lt]

@[simp] lemma wpAll_newNode (name tn : String) (o s : Nat) (k : NodeKind)
    (P : Node → Machine → Prop) :
    WpAll (newNode name tn o s k) c m P E ↔
      (0 < c.config.maxPatterns ∧ c.config.maxPatterns < m.patterns + 1 →
        E (.ofFault (.patternLimit c.config.maxPatterns)) { m with patterns := m.patterns + 1 }) ∧
      (¬(0 < c.config.maxPatterns ∧ c.config.maxPatterns < m.patterns + 1) →
        P { Node.fresh name tn o s k with endian := m.endian }
          { m with patterns := m.patterns + 1 }) := by
  simp only [newNode, wpAll_bind, wpAll_countPattern, wpAll_get, wpAll_pure]

@[simp] lemma wpAll_truth (v : Value) (P : Bool → Machine → Prop) :
    WpAll (truth v) c m P E ↔
      (∀ b, v.toBool = .ok b → P b m) ∧ ∀ f, v.toBool = .error f → E (.ofFault f) m := by
  simp [truth]

/-- A run at an address puts the cursor back however it ends. -/
@[simp] lemma wpAll_atOffset (o : Nat) (x : Eval α) (P : α → Machine → Prop) :
    WpAll (atOffset o x) c m P E ↔
      WpAll x c { m with cursor := o } (fun a m' => P a { m' with cursor := m.cursor })
        fun e m' => E e { m' with cursor := m.cursor } := by
  simp [atOffset]

@[simp] lemma wpAll_nodeValue (n : Node) (P : Value → Machine → Prop) :
    WpAll (nodeValue n) c m P E ↔
      (n.isCompound = true → P (.pattern n) m) ∧
      (n.isCompound = false →
        (∀ v, n.readValue c.data c.config.defaultEndian = .ok v → P v m) ∧
        ∀ f, n.readValue c.data c.config.defaultEndian = .error f → E (.ofFault f) m) := by
  cases h : n.isCompound <;> simp [nodeValue, h]

@[simp] lemma wpAll_toNode (op : String) (r : Resolved) (P : Node → Machine → Prop) :
    WpAll (r.toNode op) c m P E ↔
      (∀ n, r = .node n → P n m) ∧ ∀ v, r = .value v → E (.ofFault (.patternOnly op)) m := by
  cases r <;> simp [Resolved.toNode]

end PrimitivesAll

/-! ### Types, built in their own byte order -/

section Types

variable {c : Context} {m : Machine}

/-- A type is built one level deeper, in its own byte order if it names one; the inherited
byte order is put back and the level left before its attributes are applied. -/
lemma wp_buildType (fuel : Nat) (ty : TypeDecl) (name : String) (P : Built → Machine → Prop) :
    Wp (buildType (fuel + 1) ty name) c m P ↔
      (¬(0 < c.config.maxRecursionDepth ∧ c.config.maxRecursionDepth ≤ m.depth) →
        Wp (buildBody fuel ty name) c
          { m with depth := m.depth + 1, endian := ty.endian.or m.endian } fun b m₁ =>
          Wp (applyAttributes b.node ty.attrs) c
            { m₁ with endian := m.endian, depth := m₁.depth - 1 } fun r m₂ =>
            P ⟨r.1, b.inline || r.2⟩ m₂) := by
  simp only [buildType, wp_bind, wp_enter, wp_get]
  -- the type's own byte order, if it names one, replaces the inherited one
  cases ty.endian <;> simp

/-- The same for every run: a failed body fails with the byte order put back and the level
left too. -/
lemma wpAll_buildType (fuel : Nat) (ty : TypeDecl) (name : String) (P : Built → Machine → Prop)
    (E : EvalError → Machine → Prop) :
    WpAll (buildType (fuel + 1) ty name) c m P E ↔
      (0 < c.config.maxRecursionDepth ∧ c.config.maxRecursionDepth ≤ m.depth →
        E (.ofFault (.recursionLimit c.config.maxRecursionDepth)) m) ∧
      (¬(0 < c.config.maxRecursionDepth ∧ c.config.maxRecursionDepth ≤ m.depth) →
        WpAll (buildBody fuel ty name) c
          { m with depth := m.depth + 1, endian := ty.endian.or m.endian } (fun b m₁ =>
          WpAll (applyAttributes b.node ty.attrs) c
            { m₁ with endian := m.endian, depth := m₁.depth - 1 } (fun r m₂ =>
            P ⟨r.1, b.inline || r.2⟩ m₂) E)
          fun e m₁ => E e { m₁ with endian := m.endian, depth := m₁.depth - 1 }) := by
  simp only [buildType, wpAll_bind, wpAll_enter, wpAll_get]
  cases ty.endian <;> simp

end Types

end Eval

end ByteLayout

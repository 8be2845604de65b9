import ByteLayout.Proofs.Eval.Footprint
import ByteLayout.Eval.Run

set_option autoImplicit false
-- Instance search builds one instance term per call of a `do` block, and the builders'
-- blocks have many calls once their branches are laid out.
set_option synthInstance.maxSize 10000000

/-!
# Limits only cut runs short

The four limits of a run (steps, recursion depth, array length and node count) are checks
and nothing more: each lets the run go on unchanged or ends it with its own fault, and no
fault is ever caught for good, since a handler only records the line or the declaration
and throws again. So a run under looser limits takes the same steps as the run under
tighter ones for as long as that one goes on. It ends the same way, unless the tighter run
was stopped by a limit.

## Main definitions

* `RunConfig.Loosens` — a configuration with the same default byte order whose limits are
  each switched off or no lower.
* `Eval.LimitCut` — one outcome is the other, unless the first is a failure on a limit.
* `Eval.LimitsOnlyCut` — under looser limits, a computation ends as it did, unless it
  failed on a limit.
* `Eval.LimitsOnlyCutAt` — that property for every function of the evaluator at one fuel.

## Main results

* `Eval.limitsOnlyCutAt` — every function of the evaluator, at every fuel.
* `runProgram_limits_cut_short` — a run that succeeds succeeds with the same evaluation
  under looser limits, and a run that fails where the looser one succeeds failed on a limit.

## Design

As for the frame lemmas of the parser, `LimitsOnlyCut` is a class with an instance for each
monad operation and each primitive, so that instance search proves it of a whole `do`
block, and the functions one fuel below are found through the class `LimitsOnlyCutAt`.
The context is read for the configuration only by the four checks and by the default byte
order, which looser limits keep. Everywhere else it is read for the program, the data or
the functions, which do not depend on the limits (`LimitsOnlyCut.read_bind`).
-/

namespace ByteLayout

namespace RunConfig

/-- A limit `l'` no tighter than the limit `l`: switched off, or switched on no lower than
`l`, which is then switched on too. -/
def LimitLoosens (l l' : Nat) : Prop := l' = 0 ∨ (0 < l ∧ l ≤ l')

instance (l l' : Nat) : Decidable (LimitLoosens l l') :=
  inferInstanceAs (Decidable (_ ∨ _))

namespace LimitLoosens

variable {l l' : Nat}

/-- Where the looser limit is switched on, the tighter one is switched on below it. -/
lemma of_pos (h : LimitLoosens l l') (hl' : 0 < l') : 0 < l ∧ l ≤ l' := by
  rcases h with rfl | h
  · exact absurd hl' (Nat.lt_irrefl 0)
  · exact h

/-- A count past the looser limit is past the tighter one. -/
lemma trips_lt (h : LimitLoosens l l') {n : Nat} :
    (decide (l' > 0) && decide (n > l')) = true → (decide (l > 0) && decide (n > l)) = true := by
  simp only [Bool.and_eq_true, decide_eq_true_eq]
  rintro ⟨hl', hn⟩
  have := h.of_pos hl'
  omega

/-- A depth at the looser limit is at the tighter one or past it. -/
lemma trips_le (h : LimitLoosens l l') {n : Nat} :
    (decide (l' > 0) && decide (n ≥ l')) = true → (decide (l > 0) && decide (n ≥ l)) = true := by
  simp only [Bool.and_eq_true, decide_eq_true_eq]
  rintro ⟨hl', hn⟩
  have := h.of_pos hl'
  omega

end LimitLoosens

/-- The configuration `cfg'` reads declarations in the default byte order of `cfg` and
loosens each of its limits. -/
structure Loosens (cfg cfg' : RunConfig) : Prop where
  steps : LimitLoosens cfg.maxSteps cfg'.maxSteps
  recursion : LimitLoosens cfg.maxRecursionDepth cfg'.maxRecursionDepth
  arrays : LimitLoosens cfg.maxArrayLength cfg'.maxArrayLength
  patterns : LimitLoosens cfg.maxPatterns cfg'.maxPatterns
  endian : cfg'.defaultEndian = cfg.defaultEndian

instance (cfg cfg' : RunConfig) : Decidable (Loosens cfg cfg') :=
  decidable_of_iff (LimitLoosens cfg.maxSteps cfg'.maxSteps ∧
      LimitLoosens cfg.maxRecursionDepth cfg'.maxRecursionDepth ∧
      LimitLoosens cfg.maxArrayLength cfg'.maxArrayLength ∧
      LimitLoosens cfg.maxPatterns cfg'.maxPatterns ∧ cfg'.defaultEndian = cfg.defaultEndian)
    ⟨fun ⟨h₁, h₂, h₃, h₄, h₅⟩ => ⟨h₁, h₂, h₃, h₄, h₅⟩,
      fun ⟨h₁, h₂, h₃, h₄, h₅⟩ => ⟨h₁, h₂, h₃, h₄, h₅⟩⟩

example : standard.Loosens { standard with maxSteps := 0, maxPatterns := 1000000 } := by
  decide

end RunConfig

/-- Recording a line keeps the fault. -/
@[simp] lemma EvalError.fault_withLine (e : EvalError) (l : Nat) :
    (e.withLine l).fault = e.fault := by
  unfold EvalError.withLine
  split <;> rfl

/-- Recording a declaration keeps the fault. -/
@[simp] lemma EvalError.fault_withNode (e : EvalError) (n : String) :
    (e.withNode n).fault = e.fault := by
  unfold EvalError.withNode
  split <;> rfl

namespace Eval

variable {α β γ δ : Type}

/-! ### Outcomes cut short -/

/-- The outcome `r'` is the outcome `r`, unless `r` is a failure on a limit. -/
def LimitCut (r r' : Except EvalError α) : Prop :=
  (∃ e, r = .error e ∧ e.fault.isLimit = true) ∨ r = r'

namespace LimitCut

lemma refl (r : Except EvalError α) : LimitCut r r := .inr rfl

/-- A success is kept. -/
lemma eq_of_ok {a : α} {r' : Except EvalError α} (h : LimitCut (.ok a) r') : r' = .ok a := by
  rcases h with ⟨e, he, -⟩ | h
  · cases he
  · exact h.symm

/-- A failure where the other outcome is a success is a failure on a limit. -/
lemma isLimit_of_ok {e : EvalError} {a : α} (h : LimitCut (.error e) (.ok a)) :
    e.fault.isLimit = true := by
  rcases h with ⟨e', he, hl⟩ | h
  · cases he
    exact hl
  · cases h

/-- Both outcomes go on the same way. -/
lemma bind {r r' : Except EvalError α} (h : LimitCut r r') (g : α → Except EvalError β) :
    LimitCut (r >>= g) (r' >>= g) := by
  rcases h with ⟨e, rfl, hl⟩ | rfl
  · exact .inl ⟨e, rfl, hl⟩
  · exact refl _

end LimitCut

/-- The run `r'` is the run `r`, state included, unless `r` is a failure on a limit. -/
def RunCut (r r' : EStateM.Result EvalError Machine α) : Prop :=
  (∃ e m, r = .error e m ∧ e.fault.isLimit = true) ∨ r = r'

namespace RunCut

lemma refl (r : EStateM.Result EvalError Machine α) : RunCut r r := .inr rfl

/-- A check that trips under the looser limit trips under the tighter one. -/
lemma check {p p' : Prop} [Decidable p] [Decidable p'] (hp : p' → p) {e e' : EvalError}
    (he : e.fault.isLimit = true) {m : Machine} (r : EStateM.Result EvalError Machine α) :
    RunCut (if p then .error e m else r) (if p' then .error e' m else r) := by
  by_cases h : p
  · exact .inl ⟨e, m, if_pos h, he⟩
  · rw [if_neg h, if_neg (mt hp h)]
    exact refl r

/-- The outcomes of two runs, with the state of a failure dropped. -/
lemma outcome {x : Eval α} {c c' : Context} {m : Machine}
    (h : RunCut ((x.run c).run m) ((x.run c').run m)) :
    LimitCut (x.outcome c m) (x.outcome c' m) := by
  unfold Eval.outcome
  rcases h with ⟨e, m', he, hl⟩ | he
  · rw [he]
    exact .inl ⟨e, rfl, hl⟩
  · rw [he]
    exact LimitCut.refl _

end RunCut

/-! ### Runs of the primitives -/

section Run

variable {c : Context} {m : Machine}

lemma run_pure (a : α) : ((pure a : Eval α).run c).run m = .ok a m := rfl

lemma run_get : ((get : Eval Machine).run c).run m = .ok m m := rfl

lemma run_read : ((read : Eval Context).run c).run m = .ok c m := rfl

lemma run_modify (g : Machine → Machine) :
    ((modify g : Eval PUnit).run c).run m = .ok () (g m) := rfl

lemma run_fault (f : EvalFault) :
    ((fault f : Eval α).run c).run m = .error (EvalError.ofFault f) m := rfl

lemma run_ite (p : Prop) [Decidable p] (x y : Eval α) :
    ((if p then x else y).run c).run m = if p then (x.run c).run m else (y.run c).run m := by
  split <;> rfl

lemma run_lift (x : Except EvalFault α) :
    ((lift x).run c).run m = match x with
      | .ok a => .ok a m
      | .error f => .error (EvalError.ofFault f) m := by
  cases x <;> rfl

/-- A run of a `bind` that succeeds is a run of each half that succeeds. -/
lemma run_bind_eq_ok {x : Eval α} {f : α → Eval β} {b : β} {m' : Machine} :
    ((x >>= f).run c).run m = .ok b m' ↔
      ∃ a m₁, (x.run c).run m = .ok a m₁ ∧ ((f a).run c).run m₁ = .ok b m' := by
  rw [run_bind]
  rcases hx : (x.run c).run m with ⟨a, m₁⟩ | ⟨e, m₁⟩
  · simp
  · simp

lemma run_withLine (l : Nat) (x : Eval α) :
    ((withLine l x).run c).run m = match (x.run c).run m with
      | .ok a m' => .ok a m'
      | .error e m' => .error (e.withLine l) m' := by
  rw [withLine, run_tryCatch]
  rcases (x.run c).run m with ⟨a, m'⟩ | ⟨e, m'⟩ <;> rfl

lemma run_withLine_eq_ok {x : Eval α} {a : α} {m' : Machine} (l : Nat) :
    ((withLine l x).run c).run m = .ok a m' ↔ (x.run c).run m = .ok a m' := by
  rw [run_withLine]
  rcases (x.run c).run m with ⟨b, m''⟩ | ⟨e, m''⟩ <;> simp

lemma run_withLine_of_ok {x : Eval α} {a : α} {m' : Machine} (l : Nat)
    (h : (x.run c).run m = .ok a m') : ((withLine l x).run c).run m = .ok a m' :=
  (run_withLine_eq_ok l).mpr h

lemma run_withNode_of_ok {x : Eval α} {a : α} {m' : Machine} (n : String)
    (h : (x.run c).run m = .ok a m') : ((withNode n x).run c).run m = .ok a m' := by
  rw [withNode, run_tryCatch, h]

/-- A caught run ends where the run ends, with its value or its failure as the value. -/
lemma run_attempt (x : Eval α) :
    ((attempt x).run c).run m = match (x.run c).run m with
      | .ok a m' => .ok (.ok a) m'
      | .error e m' => .ok (.error e) m' := by
  unfold attempt
  rw [run_tryCatch, map_eq_pure_bind, run_bind]
  rcases (x.run c).run m with ⟨a, m'⟩ | ⟨e, m'⟩ <;> rfl

end Run

/-! ### Limits only cut computations short, compositionally -/

/-- Under looser limits, every run of `x` ends as it did, unless it failed on a limit. It
is a class so that instance search proves it of a whole `do` block from the instances of
the calls in it. -/
class LimitsOnlyCut (x : Eval α) : Prop where
  cut : ∀ (c : Context) (cfg : RunConfig), c.config.Loosens cfg → ∀ m,
    RunCut ((x.run c).run m) ((x.run { c with config := cfg }).run m)

/-- A continuation whose runs limits only cut short, on every value it may receive.
Instance search proves it by cases on the value when the continuation matches on it. -/
class LimitsOnlyCutFn (f : α → Eval β) : Prop where
  cut : ∀ a, LimitsOnlyCut (f a)

instance (priority := low) limitsOnlyCutFn_of_forall (f : α → Eval β)
    [h : ∀ a, LimitsOnlyCut (f a)] : LimitsOnlyCutFn f := ⟨h⟩

instance limitsOnlyCutFn_option (f : Option γ → Eval β) [LimitsOnlyCut (f none)]
    [∀ d, LimitsOnlyCut (f (some d))] : LimitsOnlyCutFn f :=
  ⟨fun o => by cases o <;> infer_instance⟩

instance limitsOnlyCutFn_prod (f : γ × δ → Eval β) [∀ a b, LimitsOnlyCut (f (a, b))] :
    LimitsOnlyCutFn f :=
  ⟨fun ⟨_, _⟩ => inferInstance⟩

instance limitsOnlyCutFn_flow (f : Flow → Eval β) [LimitsOnlyCut (f .normal)]
    [∀ v, LimitsOnlyCut (f (.ret v))] [LimitsOnlyCut (f .brk)] [LimitsOnlyCut (f .cont)] :
    LimitsOnlyCutFn f :=
  ⟨fun fl => by cases fl <;> infer_instance⟩

instance limitsOnlyCutFn_resolved (f : Resolved → Eval β) [∀ v, LimitsOnlyCut (f (.value v))]
    [∀ n, LimitsOnlyCut (f (.node n))] : LimitsOnlyCutFn f :=
  ⟨fun r => by cases r <;> infer_instance⟩

instance limitsOnlyCut_pure (a : α) : LimitsOnlyCut (pure a : Eval α) :=
  ⟨fun _ _ _ _ => .refl _⟩

instance limitsOnlyCut_bind (x : Eval α) (f : α → Eval β) [hx : LimitsOnlyCut x]
    [hf : LimitsOnlyCutFn f] : LimitsOnlyCut (x >>= f) := ⟨fun c cfg h m => by
  rw [run_bind, run_bind]
  rcases hx.cut c cfg h m with ⟨e, m', he, hl⟩ | he
  · exact .inl ⟨e, m', by rw [he], hl⟩
  · -- both runs of `x` end alike, and the continuation starts from the same state
    rw [← he]
    cases (x.run c).run m with
    | error e m' => exact .refl _
    | ok a m' => exact (hf.cut a).cut c cfg h m'⟩

/-- Sequencing with a continuation whose instance is proved by hand. -/
lemma LimitsOnlyCut.bind (x : Eval α) [LimitsOnlyCut x] {f : α → Eval β}
    (hf : ∀ a, LimitsOnlyCut (f a)) : LimitsOnlyCut (x >>= f) := inferInstance

/-- Sequencing after a computation whose instance is proved by hand. -/
lemma LimitsOnlyCut.bind_left {x : Eval α} (hx : LimitsOnlyCut x) (f : α → Eval β)
    [LimitsOnlyCutFn f] : LimitsOnlyCut (x >>= f) := inferInstance

/-- Sequencing where both instances are proved by hand. -/
lemma LimitsOnlyCut.bind_of {x : Eval α} {f : α → Eval β} (hx : LimitsOnlyCut x)
    (hf : ∀ a, LimitsOnlyCut (f a)) : LimitsOnlyCut (x >>= f) := inferInstance

instance limitsOnlyCut_map (f : α → β) (x : Eval α) [LimitsOnlyCut x] :
    LimitsOnlyCut (f <$> x) := by
  rw [map_eq_pure_bind]
  infer_instance

instance limitsOnlyCut_ite (p : Prop) [Decidable p] (x y : Eval α) [LimitsOnlyCut x]
    [LimitsOnlyCut y] : LimitsOnlyCut (if p then x else y) := by
  split <;> assumption

instance limitsOnlyCut_get : LimitsOnlyCut (get : Eval Machine) := ⟨fun _ _ _ _ => .refl _⟩

instance limitsOnlyCut_modify (g : Machine → Machine) : LimitsOnlyCut (modify g : Eval PUnit) :=
  ⟨fun _ _ _ _ => .refl _⟩

instance limitsOnlyCut_throw (e : EvalError) : LimitsOnlyCut (throw e : Eval α) :=
  ⟨fun _ _ _ _ => .refl _⟩

instance limitsOnlyCut_fault (f : EvalFault) : LimitsOnlyCut (fault f : Eval α) :=
  ⟨fun _ _ _ _ => .refl _⟩

/-- A block that fails first fails alike whatever follows: `unless c do fault f` leaves the
rest of the block behind the failure. -/
instance limitsOnlyCut_fault_bind (f : EvalFault) (k : α → Eval β) :
    LimitsOnlyCut (fault f >>= k) := ⟨fun _ _ _ _ => .refl _⟩

instance limitsOnlyCut_lift (e : Except EvalFault α) : LimitsOnlyCut (lift e) := by
  cases e <;> simp only [lift] <;> infer_instance

/-- A handler that throws again with the same fault keeps a failure on a limit one. -/
lemma LimitsOnlyCut.rethrow (x : Eval α) [hx : LimitsOnlyCut x] (g : EvalError → EvalError)
    (hg : ∀ e, (g e).fault = e.fault) : LimitsOnlyCut (tryCatch x fun e => throw (g e)) :=
  ⟨fun c cfg h m => by
    rw [run_tryCatch, run_tryCatch]
    rcases hx.cut c cfg h m with ⟨e, m', he, hl⟩ | he
    · exact .inl ⟨g e, m', by rw [he]; rfl, by rw [hg]; exact hl⟩
    · rw [← he]
      exact .refl _⟩

instance limitsOnlyCut_withLine (l : Nat) (x : Eval α) [LimitsOnlyCut x] :
    LimitsOnlyCut (withLine l x) :=
  LimitsOnlyCut.rethrow x _ fun e => e.fault_withLine l

instance limitsOnlyCut_withNode (n : String) (x : Eval α) [LimitsOnlyCut x] :
    LimitsOnlyCut (withNode n x) :=
  LimitsOnlyCut.rethrow x _ fun e => e.fault_withNode n

instance limitsOnlyCut_ofExcept (r : Except EvalError α) :
    LimitsOnlyCut (MonadExcept.ofExcept r : Eval α) := by
  cases r <;> simp only [MonadExcept.ofExcept] <;> infer_instance

/-- A continuation that, given a failure, fails with it again, after whatever it puts back. -/
def Rethrows (k : Except EvalError α → Eval β) : Prop :=
  ∀ e c m, ∃ m', ((k (.error e)).run c).run m = .error e m'

/-- A caught run whose failure is thrown again: a failure on a limit stays one, and runs
that end alike go on alike. -/
lemma LimitsOnlyCut.attempt_bind (x : Eval α) [hx : LimitsOnlyCut x]
    {k : Except EvalError α → Eval β} [hk : LimitsOnlyCutFn k] (hre : Rethrows k) :
    LimitsOnlyCut (attempt x >>= k) := ⟨fun c cfg h m => by
  rw [run_bind, run_bind, run_attempt, run_attempt]
  rcases hx.cut c cfg h m with ⟨e, m', he, hl⟩ | he
  · -- the tighter run failed on a limit, and the continuation throws that failure again
    rw [he]
    obtain ⟨m'', hm''⟩ := hre e c m'
    exact .inl ⟨e, m'', hm'', hl⟩
  · rw [← he]
    cases (x.run c).run m with
    | ok a m' => exact (hk.cut _).cut c cfg h m'
    | error e m' => exact (hk.cut _).cut c cfg h m'⟩

/-- A computation that reads the context for what looser limits leave as it is: the
program, the data, the functions or the default byte order. -/
lemma LimitsOnlyCut.read_bind {f : Context → Eval α} (hf : ∀ c, LimitsOnlyCut (f c))
    (hsame : ∀ c cfg, c.config.Loosens cfg → f { c with config := cfg } = f c) :
    LimitsOnlyCut (read >>= f) :=
  ⟨fun c cfg h m => by
    change RunCut (((f c).run c).run m) (((f { c with config := cfg }).run _).run m)
    rw [hsame c cfg h]
    exact (hf c).cut c cfg h m⟩

instance limitsOnlyCut_forM (l : List γ) (f : γ → Eval PUnit) [hf : LimitsOnlyCutFn f] :
    LimitsOnlyCut (l.forM f) := by
  induction l with
  | nil =>
    simp only [List.forM]
    infer_instance
  | cons a l ih =>
    have := hf.cut a
    simp only [List.forM]
    infer_instance

/-- A loop whose every iteration limits only cut short. -/
lemma LimitsOnlyCut.forM (l : List γ) {f : γ → Eval PUnit} (hf : ∀ a, LimitsOnlyCut (f a)) :
    LimitsOnlyCut (l.forM f) :=
  have : LimitsOnlyCutFn f := ⟨hf⟩
  inferInstance

instance limitsOnlyCut_mapM (l : List γ) (f : γ → Eval β) [hf : LimitsOnlyCutFn f] :
    LimitsOnlyCut (l.mapM f) := by
  induction l with
  | nil =>
    simp only [List.mapM_nil]
    infer_instance
  | cons a l ih =>
    have := hf.cut a
    simp only [List.mapM_cons]
    infer_instance

/-- A map whose every element's evaluation limits only cut short. -/
lemma LimitsOnlyCut.mapM (l : List γ) {f : γ → Eval β} (hf : ∀ a, LimitsOnlyCut (f a)) :
    LimitsOnlyCut (l.mapM f) :=
  have : LimitsOnlyCutFn f := ⟨hf⟩
  inferInstance

/-- A fold whose every step limits only cut short. -/
lemma LimitsOnlyCut.foldlM (l : List γ) {f : β → γ → Eval β}
    (hf : ∀ b a, LimitsOnlyCut (f b a)) (init : β) : LimitsOnlyCut (l.foldlM f init) := by
  induction l generalizing init with
  | nil =>
    simp only [List.foldlM_nil]
    infer_instance
  | cons a l ih =>
    simp only [List.foldlM_cons]
    exact LimitsOnlyCut.bind _ fun b => ih b

instance limitsOnlyCut_foldlM (l : List γ) (f : β → γ → Eval β)
    [hf : ∀ b a, LimitsOnlyCut (f b a)] (init : β) : LimitsOnlyCut (l.foldlM f init) :=
  LimitsOnlyCut.foldlM l hf init

/-! ### The checks and the other primitives -/

section Primitives

instance limitsOnlyCut_tick : LimitsOnlyCut tick := ⟨fun c cfg h m => by
  simp only [tick, config, run_bind, run_modify, run_read, run_get, run_ite, run_fault, run_pure]
  exact RunCut.check h.steps.trips_lt rfl _⟩

instance limitsOnlyCut_countPattern : LimitsOnlyCut countPattern := ⟨fun c cfg h m => by
  simp only [countPattern, config, run_bind, run_modify, run_read, run_get, run_ite, run_fault,
    run_pure]
  exact RunCut.check h.patterns.trips_lt rfl _⟩

instance limitsOnlyCut_enter : LimitsOnlyCut enter := ⟨fun c cfg h m => by
  simp only [enter, config, run_bind, run_modify, run_read, run_get, run_ite, run_fault,
    run_pure]
  exact RunCut.check h.recursion.trips_le rfl _⟩

instance limitsOnlyCut_checkArrayLength (n : Nat) : LimitsOnlyCut (checkArrayLength n) :=
  ⟨fun c cfg h m => by
    simp only [checkArrayLength, config, run_bind, run_read, run_ite, run_fault, run_pure]
    exact RunCut.check h.arrays.trips_lt rfl _⟩

instance limitsOnlyCut_defaultEndian : LimitsOnlyCut defaultEndian :=
  LimitsOnlyCut.read_bind (fun _ => inferInstance) fun _ _ h => by
    simp only [h.endian]

instance limitsOnlyCut_endianFor (d : Option Endian) : LimitsOnlyCut (endianFor d) := by
  unfold endianFor
  infer_instance

instance limitsOnlyCut_cursor : LimitsOnlyCut cursor := by
  unfold cursor
  infer_instance

instance limitsOnlyCut_setCursor (n : Nat) : LimitsOnlyCut (setCursor n) := by
  unfold setCursor
  infer_instance

instance limitsOnlyCut_modifyScope (g : Scope → Scope) : LimitsOnlyCut (modifyScope g) := by
  unfold modifyScope
  infer_instance

instance limitsOnlyCut_splice (N : Node) : LimitsOnlyCut (splice N) := by
  unfold splice
  infer_instance

instance limitsOnlyCut_pushFrame (k : FrameKind) (tn : String) :
    LimitsOnlyCut (pushFrame k tn) := by
  unfold pushFrame
  infer_instance

instance limitsOnlyCut_popFrame : LimitsOnlyCut popFrame := by
  unfold popFrame
  infer_instance

instance limitsOnlyCut_leave : LimitsOnlyCut leave := by
  unfold leave
  infer_instance

instance limitsOnlyCut_checkRange (o s : Nat) : LimitsOnlyCut (checkRange o s) :=
  LimitsOnlyCut.read_bind (fun _ => inferInstance) fun _ _ _ => rfl

instance limitsOnlyCut_readBytes (o s : Nat) : LimitsOnlyCut (readBytes o s) :=
  LimitsOnlyCut.read_bind (fun _ => inferInstance) fun _ _ _ => rfl

instance limitsOnlyCut_newNode (name tn : String) (o s : Nat) (k : NodeKind) :
    LimitsOnlyCut (newNode name tn o s k) := by
  unfold newNode
  infer_instance

instance limitsOnlyCut_nodeValue (n : Node) : LimitsOnlyCut (nodeValue n) := by
  unfold nodeValue
  split
  · infer_instance
  · exact LimitsOnlyCut.read_bind (fun _ => inferInstance) fun _ _ _ => rfl

instance limitsOnlyCut_truth (v : Value) : LimitsOnlyCut (truth v) := by
  unfold truth
  infer_instance

instance limitsOnlyCut_atOffset (o : Nat) (x : Eval α) [LimitsOnlyCut x] :
    LimitsOnlyCut (atOffset o x) := by
  unfold atOffset
  exact LimitsOnlyCut.bind _ fun _ => LimitsOnlyCut.bind _ fun _ =>
    LimitsOnlyCut.attempt_bind x fun _ _ _ => ⟨_, rfl⟩

instance limitsOnlyCut_place (address : Expr → Eval Value) [∀ e, LimitsOnlyCut (address e)]
    (placement : Placement) (build : Eval α) [LimitsOnlyCut build] :
    LimitsOnlyCut (place address placement build) := by
  cases placement <;> simp only [place] <;> infer_instance

instance limitsOnlyCut_toNode (op : String) (r : Resolved) : LimitsOnlyCut (r.toNode op) := by
  cases r <;> simp only [Resolved.toNode] <;> infer_instance

instance limitsOnlyCut_declareLocal (name : String) (ty : TypeDecl) :
    LimitsOnlyCut (declareLocal name ty) := by
  unfold declareLocal
  split <;> infer_instance

instance limitsOnlyCut_declareHost (name : String) (ty : TypeDecl) (input : Bool) :
    LimitsOnlyCut (declareHost name ty input) := by
  -- the join points of the `do` block are inlined, so that instance search sees the calls
  simp only [declareHost]
  split
  · infer_instance
  · infer_instance
  · refine LimitsOnlyCut.bind _ fun t => ?_
    split
    · -- the value supplied for an `in` variable is looked up in the state
      exact LimitsOnlyCut.bind _ fun m => by split <;> infer_instance
    · infer_instance

instance limitsOnlyCut_roleFunction (name role : String) :
    LimitsOnlyCut (roleFunction name role) := by
  unfold roleFunction
  refine LimitsOnlyCut.read_bind (fun _ => ?_) fun _ _ _ => rfl
  split <;> infer_instance

instance limitsOnlyCut_applyAttribute (node : Node) (attr : Attribute) :
    LimitsOnlyCut (applyAttribute node attr) := by
  simp only [applyAttribute]
  split
  · infer_instance
  · -- the value, present exactly when the attribute takes one, then the effect its name
    -- picks; `pointer_base` looks at the node's kind too
    split <;> refine LimitsOnlyCut.bind _ fun value => ?_ <;> split <;>
      first | infer_instance | (split <;> infer_instance)

instance limitsOnlyCut_applyAttributes (node : Node) (attrs : List Attribute) :
    LimitsOnlyCut (applyAttributes node attrs) := by
  simp only [applyAttributes]
  infer_instance

instance limitsOnlyCut_emit (node : Node) (inline : Bool) (attrs : List Attribute) :
    LimitsOnlyCut (emit node inline attrs) := by
  unfold emit
  infer_instance

instance limitsOnlyCut_buildBuiltin (b : Builtin) (name tn : String) :
    LimitsOnlyCut (buildBuiltin b name tn) := by
  unfold buildBuiltin
  split <;> infer_instance

end Primitives

/-! ### Built-in functions -/

section Intrinsics

instance limitsOnlyCut_checkArity (name : String) (a : Intrinsic.Arity) (args : List Value) :
    LimitsOnlyCut (Intrinsic.checkArity name a args) := by
  unfold Intrinsic.checkArity
  infer_instance

instance limitsOnlyCut_renderArgs (args : List Value) :
    LimitsOnlyCut (Intrinsic.renderArgs args) := by
  unfold Intrinsic.renderArgs
  split <;> infer_instance

instance limitsOnlyCut_print (args : List Value) : LimitsOnlyCut (Intrinsic.print args) := by
  unfold Intrinsic.print
  infer_instance

instance limitsOnlyCut_format (args : List Value) : LimitsOnlyCut (Intrinsic.format args) := by
  unfold Intrinsic.format
  infer_instance

instance limitsOnlyCut_check (args : List Value) : LimitsOnlyCut (Intrinsic.check args) := by
  simp only [Intrinsic.check]
  refine LimitsOnlyCut.bind _ fun _ => ?_
  split <;> infer_instance

instance limitsOnlyCut_memSize (args : List Value) : LimitsOnlyCut (Intrinsic.memSize args) := by
  unfold Intrinsic.memSize
  exact LimitsOnlyCut.bind _ fun _ =>
    LimitsOnlyCut.read_bind (fun _ => inferInstance) fun _ _ _ => rfl

instance limitsOnlyCut_memEof (args : List Value) : LimitsOnlyCut (Intrinsic.memEof args) := by
  unfold Intrinsic.memEof
  exact LimitsOnlyCut.bind _ fun _ => LimitsOnlyCut.bind _ fun _ =>
    LimitsOnlyCut.read_bind (fun _ => inferInstance) fun _ _ _ => rfl

instance limitsOnlyCut_readRaw (name : String) (args : List Value) :
    LimitsOnlyCut (Intrinsic.readRaw name args) := by
  simp only [Intrinsic.readRaw]
  refine LimitsOnlyCut.bind _ fun _ => ?_
  refine LimitsOnlyCut.bind _ fun offset => ?_
  split
  · infer_instance
  · refine LimitsOnlyCut.bind _ fun size => ?_
    split
    · infer_instance
    · -- the byte order selector: absent or the third argument, then one of three orders
      split <;> exact LimitsOnlyCut.bind _ fun selector => by split <;> infer_instance

instance limitsOnlyCut_readUnsigned (args : List Value) :
    LimitsOnlyCut (Intrinsic.readUnsigned args) := by
  unfold Intrinsic.readUnsigned
  infer_instance

instance limitsOnlyCut_readSigned (args : List Value) :
    LimitsOnlyCut (Intrinsic.readSigned args) := by
  unfold Intrinsic.readSigned
  infer_instance

/-- Every built-in function: they print, format, check and read the data. -/
lemma Intrinsic.limitsOnlyCut {name : String} {g : List Value → Eval (Option Value)}
    (h : Intrinsic.lookup? name = some g) (args : List Value) : LimitsOnlyCut (g args) := by
  have hmem := Intrinsic.mem_table h
  simp only [Intrinsic.table, List.mem_cons, Prod.mk.injEq, List.not_mem_nil, or_false] at hmem
  rcases hmem with ⟨-, rfl⟩ | ⟨-, rfl⟩ | ⟨-, rfl⟩ | ⟨-, rfl⟩ | ⟨-, rfl⟩ | ⟨-, rfl⟩ | ⟨-, rfl⟩ <;>
    infer_instance

/-- A built-in found by its name as written or qualified by the namespace. -/
lemma Intrinsic.exists_lookup_of_or {name : String} {qualified : Option String}
    {g : List Value → Eval (Option Value)}
    (h : (Intrinsic.lookup? name).or (qualified.bind Intrinsic.lookup?) = some g) :
    ∃ q, Intrinsic.lookup? q = some g := by
  rcases Option.or_eq_some_iff.mp h with h | ⟨-, h⟩
  · exact ⟨_, h⟩
  · obtain ⟨q, -, hq⟩ := Option.bind_eq_some_iff.mp h
    exact ⟨q, hq⟩

end Intrinsics

/-! ### The evaluator, one function at a time -/

/-- Limits only cut the runs of every function of the evaluator at one fuel. It is a class
whose fields are instances, so that instance search finds the calls one fuel below in every
body. -/
class LimitsOnlyCutAt (fuel : Nat) : Prop where
  evalExpr : ∀ e, LimitsOnlyCut (evalExpr fuel e)
  resolvePath : ∀ segs, LimitsOnlyCut (resolvePath fuel segs)
  scopeMember : ∀ ty member, LimitsOnlyCut (scopeMember fuel ty member)
  enumEntries : ∀ u es, LimitsOnlyCut (enumEntries fuel u es)
  callFunction : ∀ name ns args, LimitsOnlyCut (callFunction fuel name ns args)
  callUser : ∀ f args, LimitsOnlyCut (callUser fuel f args)
  execBlock : ∀ ss, LimitsOnlyCut (execBlock fuel ss)
  execStmt : ∀ s, LimitsOnlyCut (execStmt fuel s)
  runLoop : ∀ cnd body post, LimitsOnlyCut (runLoop fuel cnd body post)
  execExprStmt : ∀ e, LimitsOnlyCut (execExprStmt fuel e)
  buildMember : ∀ s, LimitsOnlyCut (buildMember fuel s)
  buildVar : ∀ name ty placement attrs, LimitsOnlyCut (buildVar fuel name ty placement attrs)
  buildType : ∀ ty name, LimitsOnlyCut (buildType fuel ty name)
  buildBody : ∀ ty name, LimitsOnlyCut (buildBody fuel ty name)
  buildStruct : ∀ bases members name tn, LimitsOnlyCut (buildStruct fuel bases members name tn)
  buildUnion : ∀ members name tn, LimitsOnlyCut (buildUnion fuel members name tn)
  buildEnum : ∀ u es name tn, LimitsOnlyCut (buildEnum fuel u es name tn)
  buildBitfield : ∀ es name tn, LimitsOnlyCut (buildBitfield fuel es name tn)
  buildArray : ∀ name ty size, LimitsOnlyCut (buildArray fuel name ty size)
  buildElement : ∀ ty i, LimitsOnlyCut (buildElement fuel ty i)
  fixedElements : ∀ ty i n acc, LimitsOnlyCut (fixedElements fuel ty i n acc)
  whileElements : ∀ ty cnd count acc, LimitsOnlyCut (whileElements fuel ty cnd count acc)
  unsizedElements : ∀ ty count acc, LimitsOnlyCut (unsizedElements fuel ty count acc)
  buildString : ∀ name ty size unit, LimitsOnlyCut (buildString fuel name ty size unit)
  whileChars : ∀ cnd start unit, LimitsOnlyCut (whileChars fuel cnd start unit)
  unsizedChars : ∀ unit, LimitsOnlyCut (unsizedChars fuel unit)
  buildPointer : ∀ name target addrType addrEndian attrs,
    LimitsOnlyCut (buildPointer fuel name target addrType addrEndian attrs)

attribute [instance] LimitsOnlyCutAt.evalExpr LimitsOnlyCutAt.resolvePath
  LimitsOnlyCutAt.scopeMember LimitsOnlyCutAt.enumEntries LimitsOnlyCutAt.callFunction
  LimitsOnlyCutAt.callUser LimitsOnlyCutAt.execBlock LimitsOnlyCutAt.execStmt
  LimitsOnlyCutAt.runLoop LimitsOnlyCutAt.execExprStmt LimitsOnlyCutAt.buildMember
  LimitsOnlyCutAt.buildVar LimitsOnlyCutAt.buildType LimitsOnlyCutAt.buildBody
  LimitsOnlyCutAt.buildStruct LimitsOnlyCutAt.buildUnion LimitsOnlyCutAt.buildEnum
  LimitsOnlyCutAt.buildBitfield LimitsOnlyCutAt.buildArray LimitsOnlyCutAt.buildElement
  LimitsOnlyCutAt.fixedElements LimitsOnlyCutAt.whileElements LimitsOnlyCutAt.unsizedElements
  LimitsOnlyCutAt.buildString LimitsOnlyCutAt.whileChars LimitsOnlyCutAt.unsizedChars
  LimitsOnlyCutAt.buildPointer

section Step

variable {fuel : Nat} [LimitsOnlyCutAt fuel]

lemma evalExpr_limitsOnlyCut (e : Expr) : LimitsOnlyCut (evalExpr (fuel + 1) e) := by
  simp only [evalExpr]
  -- `sizeof` of a type matches on its size
  split <;> first | infer_instance | (split <;> infer_instance)

lemma resolvePath_limitsOnlyCut (segs : List PathSeg) :
    LimitsOnlyCut (resolvePath (fuel + 1) segs) := by
  simp only [resolvePath]
  exact LimitsOnlyCut.bind_left (LimitsOnlyCut.mapM segs fun seg => by
    cases seg <;> infer_instance) _

lemma scopeMember_limitsOnlyCut (ty : TypeDecl) (member : String) :
    LimitsOnlyCut (scopeMember (fuel + 1) ty member) := by
  simp only [scopeMember]
  refine LimitsOnlyCut.read_bind (fun _ => LimitsOnlyCut.bind _ fun decl => ?_) fun _ _ _ => rfl
  split
  · exact LimitsOnlyCut.bind _ fun table => by split <;> infer_instance
  · infer_instance

lemma enumEntries_limitsOnlyCut (u : Builtin) (es : List EnumEntry) :
    LimitsOnlyCut (enumEntries (fuel + 1) u es) := by
  simp only [enumEntries]
  infer_instance

lemma callFunction_limitsOnlyCut (name ns : String) (args : List Expr) :
    LimitsOnlyCut (callFunction (fuel + 1) name ns args) := by
  simp only [callFunction]
  refine LimitsOnlyCut.bind _ fun values =>
    LimitsOnlyCut.read_bind (fun ctx => ?_) fun _ _ _ => rfl
  split
  · infer_instance
  · split
    · rename_i g hg
      obtain ⟨q, hq⟩ := Intrinsic.exists_lookup_of_or hg
      exact Intrinsic.limitsOnlyCut hq values
    · infer_instance

lemma callUser_limitsOnlyCut (f : FunctionDef) (args : List Value) :
    LimitsOnlyCut (callUser (fuel + 1) f args) := by
  simp only [callUser]
  split
  · infer_instance
  · refine LimitsOnlyCut.bind _ fun _ => ?_
    refine LimitsOnlyCut.bind _ fun _ => ?_
    refine @LimitsOnlyCut.attempt_bind _ _ _ ?_ _ _ fun _ _ _ => ⟨_, rfl⟩
    -- each parameter is cast to its builtin type, if it has one
    exact LimitsOnlyCut.bind_left (LimitsOnlyCut.forM _ fun pv => by split <;> infer_instance) _

lemma execBlock_limitsOnlyCut (ss : List Stmt) : LimitsOnlyCut (execBlock (fuel + 1) ss) := by
  cases ss <;> simp only [execBlock] <;> infer_instance

lemma execStmt_limitsOnlyCut (s : Stmt) : LimitsOnlyCut (execStmt (fuel + 1) s) := by
  cases s
  case returnWith v _ => cases v <;> simp only [execStmt] <;> infer_instance
  all_goals
    simp only [execStmt]
    infer_instance

lemma runLoop_limitsOnlyCut (cnd : Expr) (body : List Stmt) (post : Option Stmt) :
    LimitsOnlyCut (runLoop (fuel + 1) cnd body post) := by
  cases post <;> simp only [runLoop] <;> infer_instance

lemma execExprStmt_limitsOnlyCut (e : Expr) : LimitsOnlyCut (execExprStmt (fuel + 1) e) := by
  simp only [execExprStmt]
  split <;> infer_instance

lemma buildMember_limitsOnlyCut (s : Stmt) : LimitsOnlyCut (buildMember (fuel + 1) s) := by
  cases s <;> simp only [buildMember] <;> infer_instance

lemma buildVar_limitsOnlyCut (name : String) (ty : TypeDecl) (placement : Placement)
    (attrs : List Attribute) : LimitsOnlyCut (buildVar (fuel + 1) name ty placement attrs) := by
  cases placement <;> simp only [buildVar] <;> infer_instance

lemma buildType_limitsOnlyCut (ty : TypeDecl) (name : String) :
    LimitsOnlyCut (buildType (fuel + 1) ty name) := by
  simp only [buildType]
  refine LimitsOnlyCut.bind _ fun _ => LimitsOnlyCut.bind _ fun _ => ?_
  -- the type's own byte order, if it has one, then the body, caught
  split
  · exact LimitsOnlyCut.bind _ fun _ => LimitsOnlyCut.attempt_bind _ fun _ _ _ => ⟨_, rfl⟩
  · exact LimitsOnlyCut.attempt_bind _ fun _ _ _ => ⟨_, rfl⟩

lemma buildBody_limitsOnlyCut (ty : TypeDecl) (name : String) :
    LimitsOnlyCut (buildBody (fuel + 1) ty name) := by
  simp only [buildBody]
  split
  case h_3 q =>
    -- a forward reference is looked up in the program's registry
    refine LimitsOnlyCut.read_bind (fun _ => ?_) fun _ _ _ => rfl
    split <;> infer_instance
  all_goals infer_instance

lemma buildStruct_limitsOnlyCut (bases : List TypeDecl) (members : List Stmt) (name tn : String) :
    LimitsOnlyCut (buildStruct (fuel + 1) bases members name tn) := by
  simp only [buildStruct]
  exact LimitsOnlyCut.bind _ fun _ => LimitsOnlyCut.bind _ fun _ =>
    LimitsOnlyCut.attempt_bind _ fun _ _ _ => ⟨_, rfl⟩

lemma buildUnion_limitsOnlyCut (members : List Stmt) (name tn : String) :
    LimitsOnlyCut (buildUnion (fuel + 1) members name tn) := by
  simp only [buildUnion]
  exact LimitsOnlyCut.bind _ fun _ => LimitsOnlyCut.bind _ fun _ =>
    LimitsOnlyCut.attempt_bind _ fun _ _ _ => ⟨_, rfl⟩

lemma buildEnum_limitsOnlyCut (u : Builtin) (es : List EnumEntry) (name tn : String) :
    LimitsOnlyCut (buildEnum (fuel + 1) u es name tn) := by
  simp only [buildEnum]
  split <;> infer_instance

lemma buildBitfield_limitsOnlyCut (es : List BitfieldEntry) (name tn : String) :
    LimitsOnlyCut (buildBitfield (fuel + 1) es name tn) := by
  simp only [buildBitfield]
  -- the fold's accumulator is the next bit offset and the fields so far
  exact LimitsOnlyCut.bind _ fun _ =>
    LimitsOnlyCut.bind_left (LimitsOnlyCut.foldlM _ (fun r _ => by cases r; infer_instance) _) _

lemma buildArray_limitsOnlyCut (name : String) (ty : TypeDecl) (size : ArraySize) :
    LimitsOnlyCut (buildArray (fuel + 1) name ty size) := by
  cases size <;> simp only [buildArray] <;> split <;> infer_instance

lemma buildElement_limitsOnlyCut (ty : TypeDecl) (i : Nat) :
    LimitsOnlyCut (buildElement (fuel + 1) ty i) := by
  simp only [buildElement]
  infer_instance

lemma fixedElements_limitsOnlyCut (ty : TypeDecl) (i n : Nat) (acc : List Node) :
    LimitsOnlyCut (fixedElements (fuel + 1) ty i n acc) := by
  simp only [fixedElements]
  infer_instance

lemma whileElements_limitsOnlyCut (ty : TypeDecl) (cnd : Expr) (count : Nat) (acc : List Node) :
    LimitsOnlyCut (whileElements (fuel + 1) ty cnd count acc) := by
  simp only [whileElements]
  infer_instance

lemma unsizedElements_limitsOnlyCut (ty : TypeDecl) (count : Nat) (acc : List Node) :
    LimitsOnlyCut (unsizedElements (fuel + 1) ty count acc) := by
  simp only [unsizedElements]
  -- the elements go on while the cursor is inside the data
  exact LimitsOnlyCut.bind _ fun _ =>
    LimitsOnlyCut.read_bind (fun _ => inferInstance) fun _ _ _ => rfl

lemma buildString_limitsOnlyCut (name : String) (ty : TypeDecl) (size : ArraySize) (unit : Nat) :
    LimitsOnlyCut (buildString (fuel + 1) name ty size unit) := by
  cases size <;> simp only [buildString] <;> infer_instance

lemma whileChars_limitsOnlyCut (cnd : Expr) (start unit : Nat) :
    LimitsOnlyCut (whileChars (fuel + 1) cnd start unit) := by
  simp only [whileChars]
  infer_instance

lemma unsizedChars_limitsOnlyCut (unit : Nat) :
    LimitsOnlyCut (unsizedChars (fuel + 1) unit) := by
  simp only [unsizedChars]
  refine LimitsOnlyCut.bind _ fun _ => ?_
  -- the sum past 64 bits, then the characters while whole ones are left
  split
  · infer_instance
  · exact LimitsOnlyCut.read_bind (fun _ => inferInstance) fun _ _ _ => rfl

lemma buildPointer_limitsOnlyCut (name : String) (target : TypeDecl) (addrType : Builtin)
    (addrEndian : Option Endian) (attrs : List Attribute) :
    LimitsOnlyCut (buildPointer (fuel + 1) name target addrType addrEndian attrs) := by
  simp only [buildPointer]
  split
  · refine LimitsOnlyCut.bind _ fun _ => ?_
    refine LimitsOnlyCut.bind _ fun _ => ?_
    refine LimitsOnlyCut.bind _ fun _ => ?_
    refine LimitsOnlyCut.bind _ fun _ => ?_
    refine LimitsOnlyCut.bind _ fun _ => ?_
    -- the address, plus the result of a `pointer_base` function if one is named
    split
    · infer_instance
    · refine LimitsOnlyCut.bind_left ?_ _
      refine @limitsOnlyCut_withLine _ _ _ ?_
      split <;> infer_instance
  · infer_instance

end Step

/-- **Limits only cut every function of the evaluator short**, at every fuel: under looser
limits each one ends as it did, unless it failed on a limit.

**Proof sketch.** Induction on the fuel. At zero every function fails alike. One fuel more,
each function is a `do` block over the functions one fuel below and the primitives, whose
instances compose. -/
theorem limitsOnlyCutAt (fuel : Nat) : LimitsOnlyCutAt fuel := by
  induction fuel with
  | zero =>
    constructor <;> intros <;>
      simp only [evalExpr, resolvePath, scopeMember, enumEntries, callFunction, callUser,
        execBlock, execStmt, runLoop, execExprStmt, buildMember, buildVar, buildType, buildBody,
        buildStruct, buildUnion, buildEnum, buildBitfield, buildArray, buildElement,
        fixedElements, whileElements, unsizedElements, buildString, whileChars, unsizedChars,
        buildPointer] <;>
      infer_instance
  | succ fuel ih =>
    exact ⟨evalExpr_limitsOnlyCut, resolvePath_limitsOnlyCut, scopeMember_limitsOnlyCut,
      enumEntries_limitsOnlyCut, callFunction_limitsOnlyCut, callUser_limitsOnlyCut,
      execBlock_limitsOnlyCut, execStmt_limitsOnlyCut, runLoop_limitsOnlyCut,
      execExprStmt_limitsOnlyCut, buildMember_limitsOnlyCut, buildVar_limitsOnlyCut,
      buildType_limitsOnlyCut, buildBody_limitsOnlyCut, buildStruct_limitsOnlyCut,
      buildUnion_limitsOnlyCut, buildEnum_limitsOnlyCut, buildBitfield_limitsOnlyCut,
      buildArray_limitsOnlyCut, buildElement_limitsOnlyCut, fixedElements_limitsOnlyCut,
      whileElements_limitsOnlyCut, unsizedElements_limitsOnlyCut, buildString_limitsOnlyCut,
      whileChars_limitsOnlyCut, unsizedChars_limitsOnlyCut, buildPointer_limitsOnlyCut⟩

instance (fuel : Nat) : LimitsOnlyCutAt fuel := limitsOnlyCutAt fuel

end Eval

open Eval

instance limitsOnlyCut_buildProgram (fuel : Nat) (p : Program) :
    LimitsOnlyCut (buildProgram fuel p) := by
  unfold buildProgram
  infer_instance

/-- A run under looser limits ends as the run does, unless that one failed on a limit. -/
lemma runProgram_limitCut (p : Program) (data : ByteArray) (inputs : List (String × Value))
    {cfg cfg' : RunConfig} (h : cfg.Loosens cfg') :
    LimitCut (runProgram p data cfg inputs) (runProgram p data cfg' inputs) :=
  ((limitsOnlyCut_buildProgram Eval.fuel p).cut (Context.of p data cfg) cfg' h
    (Machine.initial inputs)).outcome.bind _

/-- **Limits only cut runs short.** Loosening the limits of a run (each switched off, or
raised, from a limit that was switched on), with the default byte order kept: a run that
succeeds succeeds with the same evaluation (nodes, `out` values, printed lines and
counts), and a run that fails where the looser one succeeds failed on a limit. -/
theorem runProgram_limits_cut_short (p : Program) (data : ByteArray)
    (inputs : List (String × Value)) {cfg cfg' : RunConfig} (h : cfg.Loosens cfg') :
    (∀ ev, runProgram p data cfg inputs = .ok ev → runProgram p data cfg' inputs = .ok ev) ∧
    (∀ e ev', runProgram p data cfg inputs = .error e → runProgram p data cfg' inputs = .ok ev' →
      e.fault.isLimit = true) := by
  have hcut := runProgram_limitCut p data inputs h
  refine ⟨fun ev hev => ?_, fun e ev' he hev' => ?_⟩
  · rw [hev] at hcut
    exact hcut.eq_of_ok
  · rw [he, hev'] at hcut
    exact hcut.isLimit_of_ok

/-- Two bytes, `u8 a; u8 b;`. -/
def twoBytes : Program :=
  ⟨[.var "a" (TypeDecl.ofBuiltin (.unsigned .w8) none default) .cursor [] default,
    .var "b" (TypeDecl.ofBuiltin (.unsigned .w8) none default) .cursor [] default], []⟩

/-- Two bytes read with a budget of one step, which stops the run, and with the standard
budget. -/
theorem runProgram_limits_cut_short_two_bytes :
    RunConfig.Loosens { RunConfig.standard with maxSteps := 1 } RunConfig.standard ∧
    (∀ ev, runProgram twoBytes (ByteArray.mk #[1, 2]) { RunConfig.standard with maxSteps := 1 }
        [] = .ok ev → runProgram twoBytes (ByteArray.mk #[1, 2]) RunConfig.standard [] = .ok ev) ∧
    (∀ e ev', runProgram twoBytes (ByteArray.mk #[1, 2]) { RunConfig.standard with maxSteps := 1 }
        [] = .error e → runProgram twoBytes (ByteArray.mk #[1, 2]) RunConfig.standard [] = .ok ev' →
      e.fault.isLimit = true) :=
  ⟨by decide, runProgram_limits_cut_short _ _ _ (by decide)⟩

end ByteLayout

import ByteLayout.Proofs.Eval.Limits

set_option autoImplicit false
-- Instance search builds one instance term per call of a `do` block.
set_option synthInstance.maxSize 10000000

/-!
# Evaluation does not see the node count

A state counts the nodes made so far, and only making a node reads or changes that count.
Expressions, calls and function bodies make no node, so an evaluation run from a state with
another count takes the same steps, gives the same value or fails alike, and ends with that
other count. Builders that evaluate expressions between the nodes they make (the condition
of a `while` array, say) therefore see the same values whatever they made before.

## Main definitions

* `Machine.withPatterns` — a state with another node count.
* `Eval.CountBlind` — a computation that ends alike from states that differ in their node
  count alone, keeping the count it started with.
* `Eval.CountBlindAt` — that property for every function of the expression evaluator at one
  fuel.

## Main results

* `Eval.countBlindAt` — every function of the expression evaluator, at every fuel.

## Design

As for `Eval.LimitsOnlyCut`, `CountBlind` is a class with an instance for each monad
operation and each primitive, and instance search proves it of a whole `do` block. A read of
the state passes only when what follows uses the state for something other than the count
(`CountBlind.get_bind`), and a change of the state only when it leaves the count alone
(`CountBlind.modify`); both are applied by hand where a body reads or changes the state
itself.
-/

namespace ByteLayout

/-- The state with another node count. -/
def Machine.withPatterns (m : Machine) (p : Nat) : Machine := { m with patterns := p }

@[simp] lemma Machine.withPatterns_cursor (m : Machine) (p : Nat) :
    (m.withPatterns p).cursor = m.cursor := rfl

@[simp] lemma Machine.withPatterns_self (m : Machine) : m.withPatterns m.patterns = m := rfl

namespace Eval

variable {α β γ δ : Type}

/-- A run's outcome with the node count `p` in the state it ends in. -/
def countedAs (r : EStateM.Result EvalError Machine α) (p : Nat) :
    EStateM.Result EvalError Machine α :=
  match r with
  | .ok a m => .ok a (m.withPatterns p)
  | .error e m => .error e (m.withPatterns p)

/-! ### Computations blind to the node count, compositionally -/

/-- Every run of `x` from a state with the node count `p` ends as the run from the same
state with its own count, successfully or not, but with the count `p`. -/
class CountBlind (x : Eval α) : Prop where
  blind : ∀ (c : Context) (m : Machine) (p : Nat),
    (x.run c).run (m.withPatterns p) = countedAs ((x.run c).run m) p

/-- A continuation blind to the node count on every value it may receive. -/
class CountBlindFn (f : α → Eval β) : Prop where
  blind : ∀ a, CountBlind (f a)

instance (priority := low) countBlindFn_of_forall (f : α → Eval β) [h : ∀ a, CountBlind (f a)] :
    CountBlindFn f :=
  ⟨h⟩

instance countBlindFn_option (f : Option γ → Eval β) [CountBlind (f none)]
    [∀ d, CountBlind (f (some d))] : CountBlindFn f :=
  ⟨fun o => by cases o <;> infer_instance⟩

instance countBlindFn_prod (f : γ × δ → Eval β) [∀ a b, CountBlind (f (a, b))] :
    CountBlindFn f :=
  ⟨fun ⟨_, _⟩ => inferInstance⟩

instance countBlindFn_flow (f : Flow → Eval β) [CountBlind (f .normal)]
    [∀ v, CountBlind (f (.ret v))] [CountBlind (f .brk)] [CountBlind (f .cont)] :
    CountBlindFn f :=
  ⟨fun fl => by cases fl <;> infer_instance⟩

instance countBlindFn_resolved (f : Resolved → Eval β) [∀ v, CountBlind (f (.value v))]
    [∀ n, CountBlind (f (.node n))] : CountBlindFn f :=
  ⟨fun r => by cases r <;> infer_instance⟩

instance countBlind_pure (a : α) : CountBlind (pure a : Eval α) := ⟨fun _ _ _ => rfl⟩

instance countBlind_bind (x : Eval α) (f : α → Eval β) [hx : CountBlind x]
    [hf : CountBlindFn f] : CountBlind (x >>= f) := ⟨fun c m p => by
  rw [run_bind, run_bind, hx.blind]
  cases (x.run c).run m with
  | error e m' => rfl
  | ok a m' => exact (hf.blind a).blind c m' p⟩

/-- Sequencing with a continuation whose instance is proved by hand. -/
lemma CountBlind.bind (x : Eval α) [CountBlind x] {f : α → Eval β}
    (hf : ∀ a, CountBlind (f a)) : CountBlind (x >>= f) := inferInstance

/-- Sequencing after a computation whose instance is proved by hand. -/
lemma CountBlind.bind_left {x : Eval α} (hx : CountBlind x) (f : α → Eval β)
    [CountBlindFn f] : CountBlind (x >>= f) := inferInstance

/-- Sequencing where both instances are proved by hand. -/
lemma CountBlind.bind_of {x : Eval α} {f : α → Eval β} (hx : CountBlind x)
    (hf : ∀ a, CountBlind (f a)) : CountBlind (x >>= f) := inferInstance

instance countBlind_map (f : α → β) (x : Eval α) [CountBlind x] : CountBlind (f <$> x) := by
  rw [map_eq_pure_bind]
  infer_instance

instance countBlind_ite (p : Prop) [Decidable p] (x y : Eval α) [CountBlind x]
    [CountBlind y] : CountBlind (if p then x else y) := by
  split <;> assumption

instance countBlind_read : CountBlind (read : Eval Context) := ⟨fun _ _ _ => rfl⟩

instance countBlind_throw (e : EvalError) : CountBlind (throw e : Eval α) :=
  ⟨fun _ _ _ => rfl⟩

instance countBlind_fault (f : EvalFault) : CountBlind (fault f : Eval α) :=
  ⟨fun _ _ _ => rfl⟩

/-- A block that fails first fails alike whatever follows: `unless c do fault f` leaves the
rest of the block behind the failure. -/
instance countBlind_fault_bind (f : EvalFault) (k : α → Eval β) :
    CountBlind (fault f >>= k) := ⟨fun _ _ _ => rfl⟩

instance countBlind_lift (e : Except EvalFault α) : CountBlind (lift e) := by
  cases e <;> simp only [lift] <;> infer_instance

/-- A read of the state that the rest uses for something other than the node count. -/
lemma CountBlind.get_bind {f : Machine → Eval β} (hf : ∀ m, CountBlind (f m))
    (hsame : ∀ m p, f (m.withPatterns p) = f m) : CountBlind (get >>= f) :=
  ⟨fun c m p => by
    change ((f (m.withPatterns p)).run c).run (m.withPatterns p) = _
    rw [hsame m p]
    exact (hf m).blind c m p⟩

/-- A change of the state that leaves the node count alone. -/
lemma CountBlind.modify {g : Machine → Machine}
    (hg : ∀ m p, g (m.withPatterns p) = (g m).withPatterns p) :
    CountBlind (modify g : Eval PUnit) :=
  ⟨fun c m p => by
    change EStateM.Result.ok () (g (m.withPatterns p)) = _
    rw [hg m p]
    rfl⟩

/-- A handler that only throws again leaves a failure as it was. -/
lemma CountBlind.rethrow (x : Eval α) [hx : CountBlind x] (g : EvalError → EvalError) :
    CountBlind (tryCatch x fun e => throw (g e)) :=
  ⟨fun c m p => by
    rw [run_tryCatch, run_tryCatch, hx.blind]
    cases (x.run c).run m <;> rfl⟩

instance countBlind_withLine (l : Nat) (x : Eval α) [CountBlind x] :
    CountBlind (withLine l x) :=
  CountBlind.rethrow x _

/-- A caught run ends as the run does, its failure as its value. -/
instance countBlind_attempt (x : Eval α) [hx : CountBlind x] : CountBlind (attempt x) :=
  ⟨fun c m p => by
    rw [run_attempt, run_attempt, hx.blind]
    cases (x.run c).run m <;> rfl⟩

instance countBlind_ofExcept (r : Except EvalError α) :
    CountBlind (MonadExcept.ofExcept r : Eval α) := by
  cases r <;> simp only [MonadExcept.ofExcept] <;> infer_instance

instance countBlind_forM (l : List γ) (f : γ → Eval PUnit) [hf : CountBlindFn f] :
    CountBlind (l.forM f) := by
  induction l with
  | nil =>
    simp only [List.forM]
    infer_instance
  | cons a l ih =>
    have := hf.blind a
    simp only [List.forM]
    infer_instance

/-- A loop whose every iteration is blind to the node count. -/
lemma CountBlind.forM (l : List γ) {f : γ → Eval PUnit} (hf : ∀ a, CountBlind (f a)) :
    CountBlind (l.forM f) :=
  have : CountBlindFn f := ⟨hf⟩
  inferInstance

instance countBlind_mapM (l : List γ) (f : γ → Eval β) [hf : CountBlindFn f] :
    CountBlind (l.mapM f) := by
  induction l with
  | nil =>
    simp only [List.mapM_nil]
    infer_instance
  | cons a l ih =>
    have := hf.blind a
    simp only [List.mapM_cons]
    infer_instance

/-- A map whose every element's evaluation is blind to the node count. -/
lemma CountBlind.mapM (l : List γ) {f : γ → Eval β} (hf : ∀ a, CountBlind (f a)) :
    CountBlind (l.mapM f) :=
  have : CountBlindFn f := ⟨hf⟩
  inferInstance

/-! ### The primitives of evaluation -/

section Primitives

instance countBlind_config : CountBlind config := by
  unfold config
  infer_instance

instance countBlind_cursor : CountBlind cursor :=
  CountBlind.get_bind (fun _ => inferInstance) fun _ _ => rfl

instance countBlind_setCursor (n : Nat) : CountBlind (setCursor n) :=
  CountBlind.modify fun _ _ => rfl

instance countBlind_modifyScope (g : Scope → Scope) : CountBlind (modifyScope g) :=
  CountBlind.modify fun _ _ => rfl

instance countBlind_splice (N : Node) : CountBlind (splice N) :=
  CountBlind.modify fun _ _ => rfl

instance countBlind_pushFrame (k : FrameKind) (tn : String) : CountBlind (pushFrame k tn) := by
  unfold pushFrame
  infer_instance

instance countBlind_popFrame : CountBlind popFrame := by
  unfold popFrame
  exact CountBlind.get_bind (fun _ =>
    CountBlind.bind_left (CountBlind.modify fun _ _ => rfl) _) fun _ _ => rfl

instance countBlind_tick : CountBlind tick := by
  unfold tick
  exact CountBlind.bind_of (CountBlind.modify fun _ _ => rfl) fun _ =>
    CountBlind.bind _ fun _ => CountBlind.get_bind (fun _ => inferInstance) fun _ _ => rfl

instance countBlind_enter : CountBlind enter := by
  unfold enter
  refine CountBlind.bind _ fun _ => CountBlind.get_bind (fun _ => ?_) fun _ _ => ?_
  · dsimp only
    split
    · infer_instance
    · exact CountBlind.modify fun _ _ => rfl
  · rfl

instance countBlind_leave : CountBlind leave :=
  CountBlind.modify fun _ _ => rfl

instance countBlind_checkRange (o s : Nat) : CountBlind (checkRange o s) := by
  unfold checkRange
  infer_instance

instance countBlind_checkArrayLength (n : Nat) : CountBlind (checkArrayLength n) := by
  unfold checkArrayLength
  infer_instance

instance countBlind_defaultEndian : CountBlind defaultEndian := by
  unfold defaultEndian
  infer_instance

instance countBlind_endianFor (e : Option Endian) : CountBlind (endianFor e) := by
  unfold endianFor
  exact CountBlind.get_bind (fun _ => inferInstance) fun _ _ => rfl

instance countBlind_readBytes (o s : Nat) : CountBlind (readBytes o s) := by
  unfold readBytes
  infer_instance

instance countBlind_nodeValue (n : Node) : CountBlind (nodeValue n) := by
  unfold nodeValue
  split <;> infer_instance

instance countBlind_truth (v : Value) : CountBlind (truth v) := by
  unfold truth
  infer_instance

instance countBlind_toNode (op : String) (r : Resolved) : CountBlind (r.toNode op) := by
  cases r <;> simp only [Resolved.toNode] <;> infer_instance

instance countBlind_declareLocal (name : String) (ty : TypeDecl) :
    CountBlind (declareLocal name ty) := by
  unfold declareLocal
  split <;> infer_instance

end Primitives

/-! ### Built-in functions -/

section Intrinsics

instance countBlind_checkArity (name : String) (a : Intrinsic.Arity) (args : List Value) :
    CountBlind (Intrinsic.checkArity name a args) := by
  unfold Intrinsic.checkArity
  infer_instance

instance countBlind_renderArgs (args : List Value) : CountBlind (Intrinsic.renderArgs args) := by
  unfold Intrinsic.renderArgs
  split <;> infer_instance

/-- Printing changes the console and nothing else. -/
instance countBlind_print (args : List Value) : CountBlind (Intrinsic.print args) := by
  unfold Intrinsic.print
  exact CountBlind.bind _ fun _ => CountBlind.bind _ fun _ =>
    CountBlind.bind_left (CountBlind.modify fun _ _ => rfl) _

instance countBlind_format (args : List Value) : CountBlind (Intrinsic.format args) := by
  unfold Intrinsic.format
  infer_instance

instance countBlind_check (args : List Value) : CountBlind (Intrinsic.check args) := by
  simp only [Intrinsic.check]
  refine CountBlind.bind _ fun _ => ?_
  split <;> infer_instance

instance countBlind_memSize (args : List Value) : CountBlind (Intrinsic.memSize args) := by
  unfold Intrinsic.memSize
  infer_instance

instance countBlind_memEof (args : List Value) : CountBlind (Intrinsic.memEof args) := by
  unfold Intrinsic.memEof
  infer_instance

instance countBlind_readRaw (name : String) (args : List Value) :
    CountBlind (Intrinsic.readRaw name args) := by
  simp only [Intrinsic.readRaw]
  refine CountBlind.bind _ fun _ => ?_
  refine CountBlind.bind _ fun offset => ?_
  split
  · infer_instance
  · refine CountBlind.bind _ fun size => ?_
    split
    · infer_instance
    · -- the byte order selector: absent or the third argument, then one of three orders
      split <;> exact CountBlind.bind _ fun selector => by split <;> infer_instance

instance countBlind_readUnsigned (args : List Value) :
    CountBlind (Intrinsic.readUnsigned args) := by
  unfold Intrinsic.readUnsigned
  infer_instance

instance countBlind_readSigned (args : List Value) :
    CountBlind (Intrinsic.readSigned args) := by
  unfold Intrinsic.readSigned
  infer_instance

/-- Every built-in function. -/
lemma Intrinsic.countBlind {name : String} {g : List Value → Eval (Option Value)}
    (h : Intrinsic.lookup? name = some g) (args : List Value) : CountBlind (g args) := by
  have hmem := Intrinsic.mem_table h
  simp only [Intrinsic.table, List.mem_cons, Prod.mk.injEq, List.not_mem_nil, or_false] at hmem
  rcases hmem with ⟨-, rfl⟩ | ⟨-, rfl⟩ | ⟨-, rfl⟩ | ⟨-, rfl⟩ | ⟨-, rfl⟩ | ⟨-, rfl⟩ | ⟨-, rfl⟩ <;>
    infer_instance

end Intrinsics

/-! ### The expression evaluator, one function at a time -/

/-- Every function of the expression evaluator at one fuel is blind to the node count. It
is a class whose fields are instances, so that instance search finds the calls one fuel
below in every body. -/
class CountBlindAt (fuel : Nat) : Prop where
  evalExpr : ∀ e, CountBlind (evalExpr fuel e)
  resolvePath : ∀ segs, CountBlind (resolvePath fuel segs)
  scopeMember : ∀ ty member, CountBlind (scopeMember fuel ty member)
  enumEntries : ∀ u es, CountBlind (enumEntries fuel u es)
  callFunction : ∀ name ns args, CountBlind (callFunction fuel name ns args)
  callUser : ∀ f args, CountBlind (callUser fuel f args)
  execBlock : ∀ ss, CountBlind (execBlock fuel ss)
  execStmt : ∀ s, CountBlind (execStmt fuel s)
  runLoop : ∀ cnd body post, CountBlind (runLoop fuel cnd body post)
  execExprStmt : ∀ e, CountBlind (execExprStmt fuel e)

attribute [instance] CountBlindAt.evalExpr CountBlindAt.resolvePath CountBlindAt.scopeMember
  CountBlindAt.enumEntries CountBlindAt.callFunction CountBlindAt.callUser
  CountBlindAt.execBlock CountBlindAt.execStmt CountBlindAt.runLoop CountBlindAt.execExprStmt

section Step

variable {fuel : Nat} [CountBlindAt fuel]

lemma evalExpr_countBlind (e : Expr) : CountBlind (evalExpr (fuel + 1) e) := by
  simp only [evalExpr]
  -- `sizeof` of a type matches on its size
  split <;> first | infer_instance | (split <;> infer_instance)

lemma resolvePath_countBlind (segs : List PathSeg) :
    CountBlind (resolvePath (fuel + 1) segs) := by
  simp only [resolvePath]
  -- the path is resolved in the scope at the cursor
  exact CountBlind.bind_of (CountBlind.mapM segs fun seg => by cases seg <;> infer_instance)
    fun _ => CountBlind.get_bind (fun _ => inferInstance) fun _ _ => rfl

lemma scopeMember_countBlind (ty : TypeDecl) (member : String) :
    CountBlind (scopeMember (fuel + 1) ty member) := by
  simp only [scopeMember]
  refine CountBlind.bind _ fun _ => CountBlind.bind _ fun decl => ?_
  split
  · exact CountBlind.bind _ fun table => by split <;> infer_instance
  · infer_instance

lemma enumEntries_countBlind (u : Builtin) (es : List EnumEntry) :
    CountBlind (enumEntries (fuel + 1) u es) := by
  simp only [enumEntries]
  infer_instance

lemma callFunction_countBlind (name ns : String) (args : List Expr) :
    CountBlind (callFunction (fuel + 1) name ns args) := by
  simp only [callFunction]
  refine CountBlind.bind _ fun values => CountBlind.bind _ fun ctx => ?_
  split
  · infer_instance
  · split
    · rename_i g hg
      obtain ⟨q, hq⟩ := Intrinsic.exists_lookup_of_or hg
      exact Intrinsic.countBlind hq values
    · infer_instance

lemma callUser_countBlind (f : FunctionDef) (args : List Value) :
    CountBlind (callUser (fuel + 1) f args) := by
  simp only [callUser]
  split
  · infer_instance
  · refine CountBlind.bind _ fun _ => ?_
    refine CountBlind.bind _ fun _ => ?_
    refine @CountBlind.bind_left _ _ _ (@countBlind_attempt _ _ ?_) _ _
    -- each parameter is cast to its builtin type, if it has one
    exact CountBlind.bind_left (CountBlind.forM _ fun pv => by split <;> infer_instance) _

lemma execBlock_countBlind (ss : List Stmt) : CountBlind (execBlock (fuel + 1) ss) := by
  cases ss <;> simp only [execBlock] <;> infer_instance

lemma execStmt_countBlind (s : Stmt) : CountBlind (execStmt (fuel + 1) s) := by
  cases s
  case returnWith v _ => cases v <;> simp only [execStmt] <;> infer_instance
  case assign name value _ =>
    -- an assignment reads the scope and writes it back
    simp only [execStmt]
    refine @countBlind_withLine _ _ _ (CountBlind.bind _ fun _ => CountBlind.bind _ fun v => ?_)
    refine CountBlind.get_bind (fun _ => ?_) fun _ _ => ?_
    · refine CountBlind.bind _ fun _ => ?_
      exact CountBlind.bind_left (CountBlind.modify fun _ _ => rfl) _
    · rfl
  all_goals
    simp only [execStmt]
    infer_instance

lemma runLoop_countBlind (cnd : Expr) (body : List Stmt) (post : Option Stmt) :
    CountBlind (runLoop (fuel + 1) cnd body post) := by
  cases post <;> simp only [runLoop] <;> infer_instance

lemma execExprStmt_countBlind (e : Expr) : CountBlind (execExprStmt (fuel + 1) e) := by
  simp only [execExprStmt]
  split <;> infer_instance

end Step

/-- **Evaluation does not see the node count**, at every fuel: each function of the
expression evaluator ends alike from states that differ in their node count alone.

**Proof sketch.** Induction on the fuel. At zero every function fails alike. One fuel more,
each function is a `do` block over the functions one fuel below and the primitives, whose
instances compose. -/
theorem countBlindAt (fuel : Nat) : CountBlindAt fuel := by
  induction fuel with
  | zero =>
    constructor <;> intros <;>
      simp only [evalExpr, resolvePath, scopeMember, enumEntries, callFunction, callUser,
        execBlock, execStmt, runLoop, execExprStmt] <;>
      infer_instance
  | succ fuel ih =>
    exact ⟨evalExpr_countBlind, resolvePath_countBlind, scopeMember_countBlind,
      enumEntries_countBlind, callFunction_countBlind, callUser_countBlind,
      execBlock_countBlind, execStmt_countBlind, runLoop_countBlind, execExprStmt_countBlind⟩

instance (fuel : Nat) : CountBlindAt fuel := countBlindAt fuel

end Eval

end ByteLayout

import Mathlib
import ByteLayout.Proofs.Layout.Build
import ByteLayout.Proofs.Value.Typed

set_option autoImplicit false

/-!
# What every evaluation keeps

Many facts about the evaluator have one shape: a relation between the state in which an
evaluation starts and the state in which it ends, holding for every function of the
evaluator at every fuel. The evaluator changes its state in few ways. It counts steps, levels
and nodes and prints lines; it moves the cursor past bytes it has checked to lie in the data;
it builds at an address and puts the cursor back; it ends a union at the farthest end of its
members; it sets a type's byte order for the type's body and puts the old one back; it opens
and closes frames and adds nodes to them; and it defines and assigns variables, each to a
value of the variable's declared type.

`Eval.Invariant R` asks that a relation `R` survive each of these changes, and
`Eval.Invariant.keptAt` shows, by one induction over the fuel, that every function of the
evaluator then relates its start and end states by `R`. A fault stops the run in the state it
had reached, and the brackets around a nested run (a build at an address, a type's byte
order, a function's or a compound's frame) are closed on a failure as on a success, so the
relation holds however the run ends.

## Main definitions

* `Eval.Invariant` — a relation kept by every change the evaluator makes to its state.
* `Eval.Keeps` — a computation whose runs, successful or not, relate their start and end
  states.
* `Eval.KeptAt` — every function of the evaluator at one fuel keeps a relation.

## Main results

* `Eval.Invariant.keptAt` — every function of the evaluator keeps a relation that every
  change of state keeps.
-/

namespace ByteLayout

open Eval

namespace Eval

/-- A relation `R c m₀ m` between the state `m₀` in which an evaluation under `c` started and
a state `m` it reached, kept by every change the evaluator makes to its state. Each field
but the first two extends a run related by `R` by one such change, or closes a bracket that
the evaluator opens and closes around a nested run. -/
structure Invariant (R : Context → Machine → Machine → Prop) : Prop where
  refl {c : Context} {m : Machine} : R c m m
  trans {c : Context} {m₀ m m' : Machine} : R c m₀ m → R c m m' → R c m₀ m'
  /-- Counting steps, levels and nodes, recording host outputs and printing. -/
  frame {c : Context} {m₀ m m' : Machine} : R c m₀ m → m'.cursor = m.cursor →
    m'.scope = m.scope → m'.endian = m.endian → R c m₀ m'
  /-- Moving the cursor to the end of bytes checked to lie in the data. -/
  inData {c : Context} {m₀ m : Machine} {n : Nat} : R c m₀ m → n ≤ c.data.size →
    R c m₀ { m with cursor := n }
  /-- A build at an address, after which the cursor is put back. -/
  away {c : Context} {m : Machine} {a : Nat} {m' : Machine} : R c { m with cursor := a } m' →
    R c m { m' with cursor := m.cursor }
  /-- A union, which ends at the farthest end of its members. -/
  farthest {c : Context} {m m₁ m₂ : Machine} : R c m m₁ → R c m m₂ →
    R c m { m₂ with cursor := max m₁.cursor m₂.cursor }
  /-- A type's body, built in the type's byte order, after which the old one is put back. -/
  endian {c : Context} {m : Machine} {e : Option Endian} {m' : Machine} :
    R c { m with endian := e } m' → R c m { m' with endian := m.endian }
  push {c : Context} {m₀ m : Machine} {k : FrameKind} {st : Nat} {tn : String} :
    R c m₀ m → R c m₀ { m with scope := m.scope.push k st tn }
  pop {c : Context} {m₀ m : Machine} : R c m₀ m → R c m₀ { m with scope := m.scope.pop.2 }
  extend {c : Context} {m₀ m : Machine} {ns : List Node} :
    R c m₀ m → R c m₀ { m with scope := m.scope.extendMembers ns }
  /-- Defining a local or a parameter, holding a value of its declared type. -/
  define {c : Context} {m₀ m : Machine} {name : String} {v : Variable} :
    R c m₀ m → v.Typed → R c m₀ { m with scope := m.scope.define name v }
  assign {c : Context} {m₀ m : Machine} {name : String} {v : Value} {s : Scope} :
    R c m₀ m → m.scope.assign name v = .ok s → R c m₀ { m with scope := s }
  /-- Defining a host variable in the global frame, holding a value of its type. -/
  host {c : Context} {m₀ m : Machine} {name : String} {v : Variable} : R c m₀ m → v.Typed →
    R c m₀ { m with scope := { m.scope with global := m.scope.global.define name v } }

variable {R : Context → Machine → Machine → Prop} {α : Type}

/-- Every run of `x`, successful or not, relates its start and end states by `R`. -/
def Keeps (R : Context → Machine → Machine → Prop) (x : Eval α) : Prop :=
  ∀ c m, WpAll x c m (fun _ m' => R c m m') fun _ m' => R c m m'

namespace Invariant

variable (hR : Invariant R) {c : Context} {m₀ m : Machine}
include hR

/-- A run of `x` continues a run related by `R`, however it ends. -/
lemma all {x : Eval α} (hx : Keeps R x) (h₀ : R c m₀ m) {P : α → Machine → Prop}
    (k : ∀ a m', R c m₀ m' → P a m') : WpAll x c m P fun _ m' => R c m₀ m' :=
  (hx c m).mono (fun a m' h => k a m' (hR.trans h₀ h)) fun _ _ h => hR.trans h₀ h

lemma tick (h : R c m₀ m) : R c m₀ { m with steps := m.steps + 1 } :=
  hR.frame h rfl rfl rfl

lemma count (h : R c m₀ m) : R c m₀ { m with patterns := m.patterns + 1 } :=
  hR.frame h rfl rfl rfl

lemma level (h : R c m₀ m) (d : Nat) : R c m₀ { m with depth := d } :=
  hR.frame h rfl rfl rfl

/-- Nodes added to the innermost frame in place of a node that is recorded as dropped. -/
lemma splice (h : R c m₀ m) (ns : List Node) :
    R c m₀ { m with scope := m.scope.extendMembers ns, spliced := m.spliced + 1 } :=
  hR.frame (hR.extend h) rfl rfl rfl

/-- The cursor put back where a run started. -/
lemma reset {m' : Machine} (h : R c m m') : R c m { m' with cursor := m.cursor } :=
  hR.away (m := m) (a := m.cursor) h

/-- A computation that changes no state. -/
lemma stateFree (x : Eval α) [StateFree x] : Keeps R x :=
  fun c m => (StateFree.same c m).mono (fun _ _ h => h ▸ hR.refl) fun _ _ h => h ▸ hR.refl

/-- A built-in function. -/
lemma intrinsic {name : String} {g : List Value → Eval (Option Value)}
    (h : Intrinsic.lookup? name = some g) (args : List Value) : Keeps R (g args) := fun c m =>
  -- a built-in function changes the console alone, however it ends
  have hcon : ∀ m' : Machine, m' = { m with console := m'.console } → R c m m' :=
    fun m' h' => by
      rw [h']
      exact hR.frame hR.refl rfl rfl rfl
  (Intrinsic.onlyConsole h args c m).mono (fun _ => hcon) fun _ => hcon

lemma declareLocal (name : String) (ty : TypeDecl) : Keeps R (declareLocal name ty) := by
  intro c m
  unfold Eval.declareLocal
  split
  · simpa using hR.refl
  · simp only [wpAll_modifyScope]
    refine hR.define hR.refl ?_
    split
    · exact Variable.typed_untyped _ _
    · exact Variable.typed_zero _ _

lemma declareHost (name : String) (ty : TypeDecl) (input : Bool) :
    Keeps R (declareHost name ty input) := by
  intro c m
  unfold Eval.declareHost
  simp only
  split
  · simpa using hR.refl
  · simpa using hR.refl
  · cases input
    · -- an `out` variable is recorded, and starts at zero
      have h₁ : R c m { m with outputs := name :: m.outputs } := hR.frame hR.refl rfl rfl rfl
      simp only [wpAll_bind, wpAll_pure, wpAll_modify, Bool.false_eq_true, ite_false]
      exact hR.host h₁ (Variable.typed_zero _ _)
    · -- an `in` variable takes its supplied value cast to its type, or zero
      simp only [wpAll_bind, wpAll_get, wpAll_pure, ite_true]
      split
      · simp only [wpAll_bind, wpAll_lift, wpAll_modify]
        exact ⟨fun v hv => hR.host hR.refl (Variable.typed_cast hv _), fun _ _ => hR.refl⟩
      · simp only [wpAll_bind, wpAll_pure, wpAll_modify]
        exact hR.host hR.refl (Variable.typed_zero _ _)

lemma emit (node : Node) (inline : Bool) (attrs : List Attribute) :
    Keeps R (emit node inline attrs) := by
  intro c m
  unfold Eval.emit
  rw [wpAll_bind]
  -- the attributes change nothing; the node or its children join the innermost frame
  refine (hR.stateFree (applyAttributes node attrs) c m).mono (fun r m₁ h₁ => ?_) fun _ _ h => h
  obtain ⟨n, inl⟩ := r
  simp only [wpAll_ite, wpAll_splice, wpAll_modifyScope, Scope.pushMember_eq]
  exact ⟨fun _ => hR.splice h₁ _, fun _ => hR.extend h₁⟩

end Invariant

/-- Every function of the evaluator at one fuel keeps `R`. -/
structure KeptAt (R : Context → Machine → Machine → Prop) (fuel : Nat) : Prop where
  evalExpr : ∀ e, Keeps R (evalExpr fuel e)
  resolvePath : ∀ segs, Keeps R (resolvePath fuel segs)
  scopeMember : ∀ ty member, Keeps R (scopeMember fuel ty member)
  enumEntries : ∀ u es, Keeps R (enumEntries fuel u es)
  callFunction : ∀ name ns args, Keeps R (callFunction fuel name ns args)
  callUser : ∀ f args, Keeps R (callUser fuel f args)
  execBlock : ∀ ss, Keeps R (execBlock fuel ss)
  execStmt : ∀ s, Keeps R (execStmt fuel s)
  runLoop : ∀ cnd body post, Keeps R (runLoop fuel cnd body post)
  execExprStmt : ∀ e, Keeps R (execExprStmt fuel e)
  buildMember : ∀ s, Keeps R (buildMember fuel s)
  buildVar : ∀ name ty pl attrs, Keeps R (buildVar fuel name ty pl attrs)
  buildType : ∀ ty name, Keeps R (buildType fuel ty name)
  buildBody : ∀ ty name, Keeps R (buildBody fuel ty name)
  buildStruct : ∀ bases members name tn, Keeps R (buildStruct fuel bases members name tn)
  buildUnion : ∀ members name tn, Keeps R (buildUnion fuel members name tn)
  buildEnum : ∀ u es name tn, Keeps R (buildEnum fuel u es name tn)
  buildBitfield : ∀ es name tn, Keeps R (buildBitfield fuel es name tn)
  buildArray : ∀ name ty size, Keeps R (buildArray fuel name ty size)
  buildElement : ∀ ty i, Keeps R (buildElement fuel ty i)
  fixedElements : ∀ ty i n acc, Keeps R (fixedElements fuel ty i n acc)
  whileElements : ∀ ty cnd count acc, Keeps R (whileElements fuel ty cnd count acc)
  unsizedElements : ∀ ty count acc, Keeps R (unsizedElements fuel ty count acc)
  buildString : ∀ name ty size unit, Keeps R (buildString fuel name ty size unit)
  whileChars : ∀ cnd start unit, Keeps R (whileChars fuel cnd start unit)
  unsizedChars : ∀ unit, Keeps R (unsizedChars fuel unit)
  buildPointer : ∀ name target addrType addrEndian attrs,
    Keeps R (buildPointer fuel name target addrType addrEndian attrs)

end Eval

section Steps

variable {R : Context → Machine → Machine → Prop} (hR : Invariant R) {fuel : Nat}
include hR

/-! ### Expressions and function bodies -/

lemma evalExpr_keeps (ih : KeptAt R fuel) (e : Expr) : Keeps R (evalExpr (fuel + 1) e) := by
  intro c m
  cases e with
  | lit v sp => simpa [evalExpr] using hR.refl
  | path segs sp =>
    simp only [evalExpr, wpAll_withLine, wpAll_bind]
    refine hR.all (ih.resolvePath segs) hR.refl fun r m₁ h₁ => ?_
    cases r <;> simp [h₁]
  | cursor sp => simpa [evalExpr] using hR.refl
  | unary op x sp =>
    simp only [evalExpr, wpAll_withLine, wpAll_bind, wpAll_lift]
    exact hR.all (ih.evalExpr x) hR.refl fun _ _ h₁ => ⟨fun _ _ => h₁, fun _ _ => h₁⟩
  | binary op l r sp =>
    cases op
    case logAnd | logOr =>
      simp only [evalExpr, wpAll_withLine, wpAll_bind, wpAll_truth, wpAll_ite, wpAll_pure]
      refine hR.all (ih.evalExpr l) hR.refl fun a m₁ h₁ => ⟨fun b _ => ⟨fun _ => h₁, fun _ => ?_⟩,
        fun _ _ => h₁⟩
      exact hR.all (ih.evalExpr r) h₁ fun _ _ h₂ => ⟨fun _ _ => h₂, fun _ _ => h₂⟩
    all_goals
      simp only [evalExpr, wpAll_withLine, wpAll_bind, wpAll_lift]
      refine hR.all (ih.evalExpr l) hR.refl fun a m₁ h₁ => ?_
      exact hR.all (ih.evalExpr r) h₁ fun _ _ h₂ => ⟨fun _ _ => h₂, fun _ _ => h₂⟩
  | ternary cnd t f sp =>
    simp only [evalExpr, wpAll_withLine, wpAll_bind, wpAll_truth, wpAll_ite]
    exact hR.all (ih.evalExpr _) hR.refl fun a m₁ h₁ =>
      ⟨fun b _ => ⟨fun _ => hR.all (ih.evalExpr _) h₁ fun _ _ h => h,
        fun _ => hR.all (ih.evalExpr _) h₁ fun _ _ h => h⟩, fun _ _ => h₁⟩
  | cast ty en x sp =>
    simp only [evalExpr, wpAll_withLine, wpAll_bind, wpAll_lift]
    exact hR.all (ih.evalExpr x) hR.refl fun _ _ h₁ => ⟨fun _ _ => h₁, fun _ _ => h₁⟩
  | scope ty member sp =>
    simp only [evalExpr, wpAll_withLine]
    exact ih.scopeMember ty member c m
  | call name ns args sp =>
    simp only [evalExpr, wpAll_withLine, wpAll_bind]
    refine hR.all (ih.callFunction name ns args) hR.refl fun r m₁ h₁ => ?_
    cases r <;> simp [h₁]
  | addressOf segs sp =>
    simp only [evalExpr, wpAll_withLine, wpAll_bind, wpAll_toNode, wpAll_pure]
    exact hR.all (ih.resolvePath segs) hR.refl fun _ _ h₁ => ⟨fun _ _ => h₁, fun _ _ => h₁⟩
  | sizeOfPath segs sp =>
    simp only [evalExpr, wpAll_withLine, wpAll_bind, wpAll_toNode, wpAll_pure]
    exact hR.all (ih.resolvePath segs) hR.refl fun _ _ h₁ => ⟨fun _ _ => h₁, fun _ _ => h₁⟩
  | sizeOfType ty sp =>
    simp only [evalExpr, wpAll_withLine]
    split <;> simpa using hR.refl

lemma resolvePath_keeps (ih : KeptAt R fuel) (segs : List PathSeg) :
    Keeps R (resolvePath (fuel + 1) segs) := by
  intro c m
  simp only [resolvePath, wpAll_bind, wpAll_get, wpAll_lift]
  refine (wpAll_mapM segs _ (fun m' => R c m m') _ ?_ m hR.refl).mono
    (fun _ _ h₁ => ⟨fun _ _ => h₁, fun _ _ => h₁⟩) fun _ _ h => h
  intro seg _ m₁ h₁
  cases seg with
  | index e =>
    simp only [wpAll_bind, wpAll_lift, wpAll_pure]
    exact hR.all (ih.evalExpr e) h₁ fun _ _ h => ⟨fun _ _ => h, fun _ _ => h⟩
  | _ => simpa using h₁

lemma enumEntries_keeps (ih : KeptAt R fuel) (u : Builtin) (es : List EnumEntry) :
    Keeps R (enumEntries (fuel + 1) u es) := by
  intro c m
  simp only [enumEntries]
  refine wpAll_mapM es _ (fun m' => R c m m') _ ?_ m hR.refl
  intro entry _ m₁ h₁
  simp only [wpAll_bind, wpAll_lift, wpAll_pure]
  exact hR.all (ih.evalExpr entry.value) h₁ fun _ _ h =>
    ⟨fun _ _ => ⟨fun _ _ => h, fun _ _ => h⟩, fun _ _ => h⟩

lemma scopeMember_keeps (ih : KeptAt R fuel) (ty : TypeDecl) (member : String) :
    Keeps R (scopeMember (fuel + 1) ty member) := by
  intro c m
  simp only [scopeMember, wpAll_bind, wpAll_read, wpAll_lift]
  refine ⟨fun decl _ => ?_, fun _ _ => hR.refl⟩
  split
  · simp only [wpAll_bind]
    refine hR.all (ih.enumEntries _ _) hR.refl fun t m₁ h₁ => ?_
    split <;> simp [h₁]
  · simpa using hR.refl

lemma callFunction_keeps (ih : KeptAt R fuel) (name ns : String) (args : List Expr) :
    Keeps R (callFunction (fuel + 1) name ns args) := by
  intro c m
  simp only [callFunction, wpAll_bind, wpAll_read]
  refine (wpAll_mapM args _ (fun m' => R c m m') _
    (fun a _ m₁ h₁ => hR.all (ih.evalExpr a) h₁ fun _ _ h => h) m hR.refl).mono
    (fun values m₁ h₁ => ?_) fun _ _ h => h
  split
  · exact hR.all (ih.callUser _ _) h₁ fun _ _ h => h
  · split
    · rename_i g hg
      -- the built-in is found by its name as written or qualified by the namespace
      obtain ⟨q, hq⟩ : ∃ q, Intrinsic.lookup? q = some g := by
        rcases Option.or_eq_some_iff.mp hg with h | ⟨-, h⟩
        · exact ⟨_, h⟩
        · obtain ⟨q, -, hq⟩ := Option.bind_eq_some_iff.mp h
          exact ⟨q, hq⟩
      exact hR.all (hR.intrinsic hq values) h₁ fun _ _ h => h
    · simpa using h₁

lemma callUser_keeps (ih : KeptAt R fuel) (f : FunctionDef) (args : List Value) :
    Keeps R (callUser (fuel + 1) f args) := by
  intro c m
  simp only [callUser, wpAll_bind, wpAll_ite, wpAll_fault, wpAll_enter, wpAll_pushFrame,
    wpAll_attempt, wpAll_popFrame, wpAll_leave, wpAll_ofExcept_ok, wpAll_ofExcept_error]
  refine ⟨fun _ => hR.refl, fun _ => ⟨fun _ => hR.refl, fun _ => ?_⟩⟩
  -- entering counts a level; the parameters are defined in the call's own frame
  have h₁ : R c m { m with depth := m.depth + 1 } := hR.level hR.refl _
  -- the frame is closed and the level left, whatever the body's flow and however it ends
  have close : ∀ m₃, R c m m₃ → R c m { m₃ with scope := m₃.scope.pop.2, depth := m₃.depth - 1 } :=
    fun m₃ h₃ => hR.level (hR.pop h₃) _
  refine (wpAll_forM (f.params.zip args) _ (fun m' => R c m m') (fun _ m' => R c m m') ?_ _
    (hR.push h₁)).mono (fun _ m₂ h₂ => ?_) fun _ m₂ h₂ => close m₂ h₂
  · intro pv _ m' h'
    split <;> simp only [wpAll_bind, wpAll_lift, wpAll_pure, wpAll_modifyScope]
    · exact hR.define h' (Variable.typed_untyped _ _)
    · exact hR.define h' (Variable.typed_untyped _ _)
    · exact ⟨fun v hv => hR.define h' (Variable.typed_cast hv _), fun _ _ => h'⟩
  · refine (ih.execBlock f.body c m₂).mono (fun flow m₃ h₃ => ?_) fun _ m₃ h₃ =>
      close m₃ (hR.trans h₂ h₃)
    split <;> simpa using close m₃ (hR.trans h₂ h₃)

lemma execBlock_keeps (ih : KeptAt R fuel) (ss : List Stmt) :
    Keeps R (execBlock (fuel + 1) ss) := by
  intro c m
  cases ss with
  | nil => simpa [execBlock] using hR.refl
  | cons s rest =>
    simp only [execBlock, wpAll_bind]
    refine hR.all (ih.execStmt s) hR.refl fun flow m₁ h₁ => ?_
    split
    · exact hR.all (ih.execBlock rest) h₁ fun _ _ h => h
    · simpa using h₁

lemma execExprStmt_keeps (ih : KeptAt R fuel) (e : Expr) :
    Keeps R (execExprStmt (fuel + 1) e) := by
  intro c m
  simp only [execExprStmt]
  split
  · simp only [wpAll_withLine, wpAll_bind, wpAll_pure]
    exact hR.all (ih.callFunction _ _ _) hR.refl fun _ _ h => h
  · simp only [wpAll_bind, wpAll_pure]
    exact hR.all (ih.evalExpr e) hR.refl fun _ _ h => h

lemma execStmt_keeps (ih : KeptAt R fuel) (s : Stmt) : Keeps R (execStmt (fuel + 1) s) := by
  intro c m
  simp only [execStmt, wpAll_withLine, wpAll_bind, wpAll_tick]
  have h₀ : R c m { m with steps := m.steps + 1 } := hR.tick hR.refl
  refine ⟨fun _ => h₀, fun _ => ?_⟩
  cases s with
  | var name ty _ _ _ =>
    simp only [wpAll_bind, wpAll_pure]
    exact hR.all (hR.declareLocal name ty) h₀ fun _ _ h => h
  | multi names ty _ =>
    simp only [wpAll_bind, wpAll_pure]
    exact (wpAll_forM names _ (fun m' => R c m m') _
      (fun n _ m' h' => hR.all (hR.declareLocal n ty) h' fun _ _ h => h) _ h₀).mono
      (fun _ _ h => h) fun _ _ h => h
  | assign name value _ =>
    simp only [wpAll_bind, wpAll_get, wpAll_lift, wpAll_modify, wpAll_pure]
    exact hR.all (ih.evalExpr value) h₀ fun v m₁ h₁ =>
      ⟨fun scope hs => hR.assign h₁ hs, fun _ _ => h₁⟩
  | ifElse cnd t e _ =>
    simp only [wpAll_bind, wpAll_truth, wpAll_ite]
    exact hR.all (ih.evalExpr cnd) h₀ fun v m₁ h₁ =>
      ⟨fun b _ => ⟨fun _ => hR.all (ih.execBlock t) h₁ fun _ _ h => h,
        fun _ => hR.all (ih.execBlock e) h₁ fun _ _ h => h⟩, fun _ _ => h₁⟩
  | whileLoop cnd body post _ => exact hR.all (ih.runLoop cnd body post) h₀ fun _ _ h => h
  | compound stmts _ => exact hR.all (ih.execBlock stmts) h₀ fun _ _ h => h
  | returnWith v _ =>
    cases v with
    | none => simpa using h₀
    | some e =>
      simp only [wpAll_bind, wpAll_pure]
      exact hR.all (ih.evalExpr e) h₀ fun _ _ h => h
  | exprStmt e _ =>
    simp only [wpAll_bind, wpAll_pure]
    exact hR.all (ih.execExprStmt e) h₀ fun _ _ h => h
  | breakLoop _ | continueLoop _ => simpa using h₀
  | array _ _ _ _ _ _ | pointer _ _ _ _ _ _ _ | padding _ _ | typeDef _ _ | function _ _ _ _ =>
    simpa using h₀

lemma runLoop_keeps (ih : KeptAt R fuel) (cnd : Expr) (body : List Stmt)
    (post : Option Stmt) : Keeps R (runLoop (fuel + 1) cnd body post) := by
  intro c m
  simp only [runLoop, wpAll_bind, wpAll_tick, wpAll_truth, wpAll_ite]
  have h₀ : R c m { m with steps := m.steps + 1 } := hR.tick hR.refl
  refine ⟨fun _ => h₀, fun _ => hR.all (ih.evalExpr cnd) h₀ fun v m₁ h₁ =>
    ⟨fun b _ => ⟨fun _ => by simpa using h₁, fun _ => ?_⟩, fun _ _ => h₁⟩⟩
  refine hR.all (ih.execBlock body) h₁ fun flow m₂ h₂ => ?_
  cases flow with
  | brk | ret _ => simpa using h₂
  | normal | cont =>
    -- after an iteration that neither breaks nor returns, the step statement and the next
    -- iteration run
    cases post with
    | none => simpa using hR.all (ih.runLoop cnd body none) h₂ fun _ _ h => h
    | some p =>
      simp only [wpAll_bind]
      exact hR.all (ih.execStmt p) h₂ fun _ m₃ h₃ =>
        hR.all (ih.runLoop cnd body _) h₃ fun _ _ h => h

/-! ### Members and types -/

/-- A build where a placement says: at the cursor, or at an address with the cursor put
back however the build ends. -/
lemma place_keeps (ih : KeptAt R fuel) {β : Type} (pl : Placement) {build : Eval β}
    (hb : Keeps R build) : Keeps R (place (evalExpr fuel) pl build) := by
  intro c m
  cases pl with
  | cursor => exact hb c m
  | atOffset e =>
    simp only [place, wpAll_bind]
    refine hR.all (ih.evalExpr e) hR.refl fun v m₁ h₁ => ?_
    simp only [wpAll_lift, wpAll_ite, wpAll_fault, wpAll_atOffset, wpAll_bind]
    have back : ∀ a m₂, R c { m₁ with cursor := a } m₂ → R c m { m₂ with cursor := m₁.cursor } :=
      fun _ _ h₂ => hR.trans h₁ (hR.away h₂)
    exact ⟨fun a _ => ⟨fun _ => h₁, fun _ => (hb c _).mono (fun _ => back a) fun _ => back a⟩,
      fun _ _ => h₁⟩
  | input | output => simpa [place] using hR.refl

lemma buildMember_keeps (ih : KeptAt R fuel) (s : Stmt) : Keeps R (buildMember (fuel + 1) s) := by
  intro c m
  have h₀ : R c m { m with steps := m.steps + 1 } := hR.tick hR.refl
  cases s
  all_goals
    simp only [buildMember, wpAll_withNode, wpAll_withLine, wpAll_bind, wpAll_tick, wpAll_fault]
    refine And.intro (fun _ => h₀) ?_
    intro _
  case var name ty pl attrs sp _ => exact hR.all (ih.buildVar name ty pl attrs) h₀ fun _ _ h => h
  case multi names ty sp _ =>
    exact wpAll_forM names _ (fun m' => R c m m') _
      (fun n _ m' h' => hR.all (ih.buildVar n ty .cursor []) h' fun _ _ h => h) _ h₀
  case array name ty size pl attrs sp _ =>
    exact hR.all (place_keeps hR ih pl (ih.buildArray name ty size)) h₀ fun N m₁ h₁ =>
      hR.all (hR.emit N false attrs) h₁ fun _ _ h => h
  case pointer name target addrType addrEndian pl attrs sp _ =>
    exact hR.all (place_keeps hR ih pl (ih.buildPointer name target addrType addrEndian attrs))
      h₀ fun N m₁ h₁ => hR.all (hR.emit N false attrs) h₁ fun _ _ h => h
  case padding size sp _ =>
    refine hR.all (ih.evalExpr size) h₀ fun v m₁ h₁ => ?_
    simp only [wpAll_lift, wpAll_ite, wpAll_fault, wpAll_bind, wpAll_cursor, wpAll_checkRange,
      wpAll_newNode, wpAll_setCursor, wpAll_modifyScope, Scope.pushMember_eq]
    -- the padding's bytes lie in the data
    exact ⟨fun n _ => ⟨fun _ => h₁, fun _ => ⟨fun _ => h₁, fun hr =>
      ⟨fun _ => hR.count h₁, fun _ => hR.extend (hR.inData (hR.count h₁) hr)⟩⟩⟩, fun _ _ => h₁⟩
  case ifElse cnd t e sp _ =>
    refine hR.all (ih.evalExpr cnd) h₀ fun v m₁ h₁ => ?_
    simp only [truth, wpAll_lift]
    exact ⟨fun b _ => wpAll_forM _ _ (fun m' => R c m m') _
      (fun s _ m' h' => hR.all (ih.buildMember s) h' fun _ _ h => h) _ h₁, fun _ _ => h₁⟩
  case exprStmt e sp _ => exact hR.all (ih.execExprStmt e) h₀ fun _ _ h => h
  case typeDef | function => exact (wpAll_pure _).mpr h₀
  all_goals exact h₀

lemma buildVar_keeps (ih : KeptAt R fuel) (name : String) (ty : TypeDecl) (pl : Placement)
    (attrs : List Attribute) : Keeps R (buildVar (fuel + 1) name ty pl attrs) := by
  intro c m
  cases pl with
  | input =>
    simp only [buildVar]
    exact hR.declareHost name ty true c m
  | output =>
    simp only [buildVar]
    exact hR.declareHost name ty false c m
  | cursor | atOffset e =>
    simp only [buildVar, wpAll_bind]
    exact hR.all (place_keeps hR ih _ (ih.buildType ty name)) hR.refl fun b m₁ h₁ =>
      hR.all (hR.emit _ _ attrs) h₁ fun _ _ h => h

lemma buildType_keeps (ih : KeptAt R fuel) (ty : TypeDecl) (name : String) :
    Keeps R (buildType (fuel + 1) ty name) := by
  intro c m
  rw [wpAll_buildType]
  refine ⟨fun _ => hR.refl, fun _ => ?_⟩
  -- the body is built one level deeper in the type's byte order, if it names one; the old
  -- order is put back and the level left before the attributes, however the body ends
  have back : ∀ m₁, R c { m with depth := m.depth + 1, endian := ty.endian.or m.endian } m₁ →
      R c m { m₁ with endian := m.endian, depth := m₁.depth - 1 } := fun _ h₁ =>
    hR.level (hR.trans (hR.level hR.refl (m.depth + 1))
      (hR.endian (m := { m with depth := m.depth + 1 }) h₁)) _
  exact (ih.buildBody ty name c _).mono
    (fun b m₁ h₁ => hR.all (hR.stateFree _) (back m₁ h₁) fun _ _ h => h) fun _ => back

lemma buildBuiltin_keeps (b : Builtin) (name tn : String) : Keeps R (buildBuiltin b name tn) := by
  intro c m
  unfold buildBuiltin
  split
  · simp only [wpAll_bind, wpAll_pure, wpAll_cursor, wpAll_checkRange, wpAll_newNode,
      wpAll_setCursor]
    -- the builtin's bytes lie in the data
    exact ⟨fun _ => hR.refl, fun hr => ⟨fun _ => hR.count hR.refl,
      fun _ => hR.inData (hR.count hR.refl) hr⟩⟩
  · split <;> simpa using hR.refl

lemma buildBody_keeps (ih : KeptAt R fuel) (ty : TypeDecl) (name : String) :
    Keeps R (buildBody (fuel + 1) ty name) := by
  intro c m
  simp only [buildBody]
  rcases hb : ty.body with b | ⟨bases, ms⟩ | ms | ⟨u, es⟩ | es | inner | q
  case builtin =>
    simp only [wpAll_bind, wpAll_pure]
    exact buildBuiltin_keeps hR b name _ c m
  case struct =>
    simp only [wpAll_bind, wpAll_pure]
    exact ih.buildStruct bases ms name _ c m
  case union =>
    simp only [wpAll_bind, wpAll_pure]
    exact ih.buildUnion ms name _ c m
  case enum =>
    simp only [wpAll_bind, wpAll_pure]
    exact ih.buildEnum u es name _ c m
  case bitfield =>
    simp only [wpAll_bind, wpAll_pure]
    exact ih.buildBitfield es name _ c m
  case «alias» =>
    simp only [wpAll_bind, wpAll_pure]
    exact ih.buildType inner name c m
  case forward =>
    simp only [wpAll_bind, wpAll_read]
    split
    · exact ih.buildType _ name c m
    · simpa using hR.refl

/-! ### Compounds -/

lemma buildStruct_keeps (ih : KeptAt R fuel) (bases : List TypeDecl) (ms : List Stmt)
    (name tn : String) : Keeps R (buildStruct (fuel + 1) bases ms name tn) := by
  intro c m
  simp only [buildStruct, wpAll_bind, wpAll_cursor, wpAll_pushFrame, wpAll_attempt,
    wpAll_popFrame, wpAll_ofExcept_ok, wpAll_ofExcept_error]
  -- the bases' children and then the members join the struct's own frame, which is closed
  -- however they end
  refine (wpAll_forM bases _ (fun m' => R c m m') _ (fun base _ m' h' => ?_) _
    (hR.push hR.refl)).mono (fun _ m₁ h₁ => ?_) fun _ _ h₁ => hR.pop h₁
  · simp only [wpAll_bind, wpAll_splice]
    exact hR.all (ih.buildType base "") h' fun _ _ h => hR.splice h _
  refine (wpAll_forM ms _ (fun m' => R c m m') _
    (fun s _ m' h' => hR.all (ih.buildMember s) h' fun _ _ h => h) _ h₁).mono
    (fun _ m₂ h₂ => ?_) fun _ _ h₂ => hR.pop h₂
  simp only [wpAll_newNode, wpAll_pure]
  exact ⟨fun _ => hR.count (hR.pop h₂), fun _ => hR.count (hR.pop h₂)⟩

lemma buildUnion_keeps (ih : KeptAt R fuel) (ms : List Stmt) (name tn : String) :
    Keeps R (buildUnion (fuel + 1) ms name tn) := by
  intro c m
  simp only [buildUnion, wpAll_bind, wpAll_cursor, wpAll_pushFrame, wpAll_attempt,
    wpAll_popFrame, wpAll_ofExcept_ok, wpAll_ofExcept_error]
  -- every member is built from the start again; with the cursor at the farthest end so far,
  -- the state is related to the union's start
  refine (wpAll_foldlM ms _ (fun size m' => R c m { m' with cursor := m.cursor + size })
    (fun _ m' => R c m m') ?_ 0 _ (hR.push hR.refl)).mono (fun size m₁ h₁ => ?_)
    fun _ _ h₁ => hR.pop h₁
  · intro s _ size m' h'
    simp only [wpAll_bind, wpAll_setCursor, wpAll_cursor, wpAll_pure]
    refine hR.all (ih.buildMember s) (hR.reset h') fun _ m₂ h₂ => ?_
    have hend : m.cursor + max size (m₂.cursor - m.cursor) = max (m.cursor + size) m₂.cursor := by
      omega
    rw [hend]
    exact hR.farthest h' h₂
  simp only [wpAll_setCursor, wpAll_newNode, wpAll_pure]
  exact ⟨fun _ => hR.count (hR.pop h₁), fun _ => hR.count (hR.pop h₁)⟩

/-! ### Leaves -/

lemma buildEnum_keeps (ih : KeptAt R fuel) (u : Builtin) (es : List EnumEntry)
    (name tn : String) : Keeps R (buildEnum (fuel + 1) u es name tn) := by
  intro c m
  rcases hs : u.size? with _ | size <;>
    simp only [buildEnum, hs, wpAll_bind, wpAll_pure, wpAll_fault]
  · exact hR.refl
  refine hR.all (ih.enumEntries u es) hR.refl fun t m₁ h₁ => ?_
  simp only [wpAll_cursor, wpAll_checkRange, wpAll_newNode, wpAll_setCursor]
  -- the enum's bytes lie in the data
  exact ⟨fun _ => h₁, fun hr => ⟨fun _ => hR.count h₁, fun _ => hR.inData (hR.count h₁) hr⟩⟩

lemma buildBitfield_keeps (ih : KeptAt R fuel) (es : List BitfieldEntry) (name tn : String) :
    Keeps R (buildBitfield (fuel + 1) es name tn) := by
  intro c m
  simp only [buildBitfield, wpAll_bind, wpAll_cursor]
  refine (wpAll_foldlM es _ (fun _ m' => R c m m') _ ?_ (0, []) m hR.refl).mono
    (fun r m₁ h₁ => ?_) fun _ _ h => h
  · rintro entry - ⟨off, fields⟩ m' h'
    simp only [wpAll_bind]
    refine hR.all (ih.evalExpr entry.width) h' fun v m₂ h₂ => ?_
    simp only [wpAll_lift, wpAll_ite, wpAll_fault, wpAll_pure, wpAll_newNode, wpAll_bind]
    exact ⟨fun w _ => ⟨fun _ => h₂, fun _ => ⟨fun _ => h₂,
      fun _ => ⟨fun _ => hR.count h₂, fun _ => hR.count h₂⟩⟩⟩, fun _ _ => h₂⟩
  obtain ⟨bits, fields⟩ := r
  simp only [wpAll_checkRange, wpAll_setCursor, wpAll_newNode, wpAll_pure]
  -- the bytes of the bits lie in the data
  exact ⟨fun _ => h₁, fun hr =>
    ⟨fun _ => hR.count (hR.inData h₁ hr), fun _ => hR.count (hR.inData h₁ hr)⟩⟩

/-- The node of a string whose characters took the state from `m` to `m₁`. -/
lemma stringNode_keeps {c : Context} {m m₁ : Machine} (name : String) (ty : TypeDecl)
    (unit : Nat) (h : R c m m₁) :
    WpAll (do
      let k ← cursor
      if unit = 1 then do
        let node ← newNode name "char" m.cursor (k - m.cursor) .string
        return if ty.endian.isSome then { node with endian := ty.endian } else node
      else do
        let node ← newNode name "char16" m.cursor (k - m.cursor) .string16
        return if ty.endian.isSome then { node with endian := ty.endian } else node) c m₁
      (fun _ m' => R c m m') fun _ m' => R c m m' := by
  simp only [wpAll_cursor, wpAll_bind, wpAll_ite, wpAll_newNode, wpAll_pure]
  exact ⟨fun _ => ⟨fun _ => hR.count h, fun _ => hR.count h⟩,
    fun _ => ⟨fun _ => hR.count h, fun _ => hR.count h⟩⟩

lemma buildString_keeps (ih : KeptAt R fuel) (name : String) (ty : TypeDecl)
    (size : ArraySize) (unit : Nat) : Keeps R (buildString (fuel + 1) name ty size unit) := by
  intro c m
  rw [buildString, wpAll_bind, wpAll_cursor]
  rcases size with count | cnd | _ <;> dsimp only <;> rw [wpAll_bind]
  · refine hR.all (ih.evalExpr count) hR.refl fun v m₁ h₁ => ?_
    rw [wpAll_bind, wpAll_lift]
    refine ⟨fun n _ => ?_, fun _ _ => h₁⟩
    rw [wpAll_bind, wpAll_checkArrayLength]
    refine ⟨fun _ => h₁, fun _ => ?_⟩
    split
    · simpa using h₁
    · -- a string of fixed length has its bytes checked at once
      rw [wpAll_bind, wpAll_checkRange]
      refine ⟨fun _ => h₁, fun hr => ?_⟩
      rw [wpAll_bind, wpAll_setCursor]
      exact stringNode_keeps hR name ty unit (hR.inData h₁ hr)
  · exact hR.all (ih.whileChars cnd m.cursor unit) hR.refl fun _ _ h₁ =>
      stringNode_keeps hR name ty unit h₁
  · exact hR.all (ih.unsizedChars unit) hR.refl fun _ _ h₁ => stringNode_keeps hR name ty unit h₁

lemma whileChars_keeps (ih : KeptAt R fuel) (cnd : Expr) (start unit : Nat) :
    Keeps R (whileChars (fuel + 1) cnd start unit) := by
  intro c m
  simp only [whileChars, wpAll_bind]
  refine hR.all (ih.evalExpr cnd) hR.refl fun v m₁ h₁ => ?_
  simp only [wpAll_truth, wpAll_ite, wpAll_tick, wpAll_cursor, wpAll_checkArrayLength,
    wpAll_checkRange, wpAll_setCursor, wpAll_pure, wpAll_bind]
  refine ⟨fun b _ => ⟨fun _ => ?_, fun _ => h₁⟩, fun _ _ => h₁⟩
  have h₂ := hR.tick h₁
  -- each character's bytes are checked before the cursor passes them
  exact ⟨fun _ => h₂, fun _ => ⟨fun _ => h₂, fun _ => ⟨fun _ => h₂, fun hr =>
    hR.all (ih.whileChars cnd start unit) (hR.inData h₂ hr) fun _ _ h => h⟩⟩⟩

lemma unsizedChars_keeps (ih : KeptAt R fuel) (unit : Nat) :
    Keeps R (unsizedChars (fuel + 1) unit) := by
  intro c m
  simp only [unsizedChars, wpAll_bind, wpAll_cursor, wpAll_read, wpAll_ite, wpAll_fault,
    wpAll_tick, wpAll_readBytes, wpAll_setCursor, wpAll_pure]
  have h₂ : R c m { m with steps := m.steps + 1 } := hR.tick hR.refl
  -- an overflowing test changes nothing; the loop goes on only while a whole character is
  -- left in the data
  refine ⟨fun _ => hR.refl, fun _ => ⟨fun hr => ⟨fun _ => h₂, fun _ =>
    ⟨fun bs _ => ⟨fun _ => ?_, fun _ => hR.inData h₂ hr⟩, fun _ _ => h₂⟩⟩, fun _ => hR.refl⟩⟩
  exact hR.all (ih.unsizedChars unit) (hR.inData h₂ hr) fun _ _ h => h

/-! ### Arrays -/

lemma buildElement_keeps (ih : KeptAt R fuel) (ty : TypeDecl) (i : Nat) :
    Keeps R (buildElement (fuel + 1) ty i) := by
  intro c m
  simp only [buildElement, wpAll_bind, wpAll_tick, wpAll_pure]
  exact ⟨fun _ => hR.tick hR.refl, fun _ =>
    hR.all (ih.buildType ty _) (hR.tick hR.refl) fun _ _ h => h⟩

lemma fixedElements_keeps (ih : KeptAt R fuel) (ty : TypeDecl) (i n : Nat) (acc : List Node) :
    Keeps R (fixedElements (fuel + 1) ty i n acc) := by
  intro c m
  simp only [fixedElements, wpAll_ite, wpAll_bind, wpAll_pure]
  exact ⟨fun _ => hR.all (ih.buildElement ty i) hR.refl fun e m₁ h₁ =>
    hR.all (ih.fixedElements ty (i + 1) n (e :: acc)) h₁ fun _ _ h => h, fun _ => hR.refl⟩

lemma whileElements_keeps (ih : KeptAt R fuel) (ty : TypeDecl) (cnd : Expr) (count : Nat)
    (acc : List Node) : Keeps R (whileElements (fuel + 1) ty cnd count acc) := by
  intro c m
  simp only [whileElements, wpAll_bind]
  refine hR.all (ih.evalExpr cnd) hR.refl fun v m₁ h₁ => ?_
  simp only [wpAll_truth, wpAll_ite, wpAll_checkArrayLength, wpAll_bind, wpAll_pure]
  exact ⟨fun b _ => ⟨fun _ => ⟨fun _ => h₁, fun _ => hR.all (ih.buildElement ty count) h₁
    fun e m₂ h₂ => hR.all (ih.whileElements ty cnd (count + 1) (e :: acc)) h₂ fun _ _ h => h⟩,
    fun _ => h₁⟩, fun _ _ => h₁⟩

lemma unsizedElements_keeps (ih : KeptAt R fuel) (ty : TypeDecl) (count : Nat)
    (acc : List Node) : Keeps R (unsizedElements (fuel + 1) ty count acc) := by
  intro c m
  simp only [unsizedElements, wpAll_bind, wpAll_cursor, wpAll_read, wpAll_ite,
    wpAll_checkArrayLength, wpAll_readBytes, wpAll_pure]
  exact ⟨fun _ => ⟨fun _ => hR.refl, fun _ => hR.all (ih.buildElement ty count) hR.refl
    fun e m₁ h₁ => ⟨fun _ _ => ⟨fun _ => h₁, fun _ =>
      hR.all (ih.unsizedElements ty (count + 1) (e :: acc)) h₁ fun _ _ h => h⟩,
      fun _ _ => h₁⟩⟩, fun _ => hR.refl⟩

lemma buildArray_keeps (ih : KeptAt R fuel) (name : String) (ty : TypeDecl)
    (size : ArraySize) : Keeps R (buildArray (fuel + 1) name ty size) := by
  intro c m
  simp only [buildArray]
  split
  · exact ih.buildString name ty size 1 c m
  · exact ih.buildString name ty size 2 c m
  · rw [wpAll_bind, wpAll_cursor]
    -- the array node after its elements
    have hnode : ∀ (es : List Node) m₁, R c m m₁ → WpAll (do
        let k ← cursor
        let node ← newNode name ty.displayName m.cursor (k - m.cursor) .array
        return { node with children := es }) c m₁ (fun _ m' => R c m m') fun _ m' => R c m m' := by
      intro es m₁ h₁
      simp only [wpAll_cursor, wpAll_bind, wpAll_newNode, wpAll_pure]
      exact ⟨fun _ => hR.count h₁, fun _ => hR.count h₁⟩
    rcases size with count | cnd | _ <;> dsimp only <;> rw [wpAll_bind]
    · refine hR.all (ih.evalExpr count) hR.refl fun v m₁ h₁ => ?_
      rw [wpAll_bind, wpAll_lift]
      refine ⟨fun n _ => ?_, fun _ _ => h₁⟩
      rw [wpAll_bind, wpAll_checkArrayLength]
      refine ⟨fun _ => h₁, fun _ => ?_⟩
      rw [wpAll_bind]
      exact hR.all (ih.fixedElements ty 0 n []) h₁ fun es m₂ h₂ => hnode es m₂ h₂
    · exact hR.all (ih.whileElements ty cnd 0 []) hR.refl fun es m₁ h₁ => hnode es m₁ h₁
    · exact hR.all (ih.unsizedElements ty 0 []) hR.refl fun es m₁ h₁ => hnode es m₁ h₁

/-! ### Pointers -/

lemma buildPointer_keeps (ih : KeptAt R fuel) (name : String) (target : TypeDecl)
    (addrType : Builtin) (addrEndian : Option Endian) (attrs : List Attribute) :
    Keeps R (buildPointer (fuel + 1) name target addrType addrEndian attrs) := by
  intro c m
  simp only [buildPointer]
  rcases hw : addrType.size? with _ | w
  · simpa using hR.refl
  · simp only [wpAll_pure, wpAll_cursor, wpAll_endianFor, wpAll_readBytes, wpAll_setCursor,
      wpAll_bind]
    refine ⟨fun bs hbs => ?_, fun _ _ => hR.refl⟩
    -- the address bytes were read from the data
    have h₁ : R c m { m with cursor := m.cursor + w } := hR.inData hR.refl (Data.le_of_read hbs)
    -- the target is built at the address and the cursor put back, however the build ends;
    -- then the pointer's node is counted
    have hbuild : ∀ m₂, R c m m₂ → ∀ a, WpAll (buildType fuel target name) c
        { m₂ with cursor := a } (fun _ m₃ => R c m { m₃ with cursor := m₂.cursor })
        fun _ m₃ => R c m { m₃ with cursor := m₂.cursor } := fun m₂ h₂ a =>
      (ih.buildType target name c _).mono (fun _ _ h₃ => hR.trans h₂ (hR.away h₃))
        fun _ _ h₃ => hR.trans h₂ (hR.away h₃)
    split
    · simp only [wpAll_pure, wpAll_ite, wpAll_fault, wpAll_bind, wpAll_atOffset, wpAll_newNode,
        wpAll_get]
      exact ⟨fun _ => h₁, fun _ => (hbuild _ h₁ _).mono
        (fun _ _ h => ⟨fun _ => hR.count h, fun _ => hR.count h⟩) fun _ _ h => h⟩
    · rename_i attr _
      rw [wpAll_bind, wpAll_withLine]
      -- the address is asked of the `pointer_base` function
      split
      · simp only [wpAll_pure, wpAll_bind]
        refine hR.all (hR.stateFree (roleFunction _ _)) h₁ fun f m₂ h₂ => ?_
        refine hR.all (ih.callUser f _) h₂ fun r m₃ h₃ => ?_
        split
        · simp only [wpAll_bind, wpAll_lift, wpAll_pure, wpAll_ite, wpAll_fault, wpAll_atOffset,
            wpAll_newNode, wpAll_get]
          exact ⟨fun _ _ => ⟨fun _ => h₃, fun _ => (hbuild _ h₃ _).mono
            (fun _ _ h => ⟨fun _ => hR.count h, fun _ => hR.count h⟩) fun _ _ h => h⟩,
            fun _ _ => h₃⟩
        · simpa using h₃
      · simpa using h₁

end Steps

namespace Eval.Invariant

variable {R : Context → Machine → Machine → Prop}

/-- **Every evaluation keeps an invariant of its changes.** A relation that every change the
evaluator makes to its state keeps relates the start and end states of every successful run
of every function of the evaluator, at every fuel.

**Proof sketch.** Induction on the fuel, one lemma per function of the evaluator. With no fuel
left every function faults; with fuel, each function's changes of state are among those
`Invariant` lists, and its calls keep the relation at one fuel less. -/
theorem keptAt (hR : Invariant R) (fuel : Nat) : KeptAt R fuel := by
  induction fuel with
  | zero =>
    constructor <;> intros <;> intro c m <;>
      simpa [evalExpr, resolvePath, scopeMember, enumEntries, callFunction, callUser, execBlock,
        execStmt, runLoop, execExprStmt, buildMember, buildVar, buildType, buildBody,
        buildStruct, buildUnion, buildEnum, buildBitfield, buildArray, buildElement,
        fixedElements, whileElements, unsizedElements, buildString, whileChars, unsizedChars,
        buildPointer] using hR.refl
  | succ fuel ih =>
    exact ⟨evalExpr_keeps hR ih, resolvePath_keeps hR ih, scopeMember_keeps hR ih,
      enumEntries_keeps hR ih, callFunction_keeps hR ih, callUser_keeps hR ih,
      execBlock_keeps hR ih, execStmt_keeps hR ih, runLoop_keeps hR ih,
      execExprStmt_keeps hR ih, buildMember_keeps hR ih, buildVar_keeps hR ih,
      buildType_keeps hR ih, buildBody_keeps hR ih, buildStruct_keeps hR ih,
      buildUnion_keeps hR ih, buildEnum_keeps hR ih, buildBitfield_keeps hR ih,
      buildArray_keeps hR ih, buildElement_keeps hR ih, fixedElements_keeps hR ih,
      whileElements_keeps hR ih, unsizedElements_keeps hR ih, buildString_keeps hR ih,
      whileChars_keeps hR ih, unsizedChars_keeps hR ih, buildPointer_keeps hR ih⟩

end Eval.Invariant

end ByteLayout

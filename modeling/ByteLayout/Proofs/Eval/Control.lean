import Mathlib
import ByteLayout.Proofs.Eval.Limits

set_option autoImplicit false

/-!
# Break, continue and return

A statement of a function body ends with a `Flow`: normally, by `return`, by `break` or by
`continue`. A block stops at the first statement that does not end normally and ends as it
does; an `if` and a compound statement end as the block they run. A loop takes in the `break`
and `continue` of its body: a `break` ends the loop normally, and a `continue` runs the loop's
step (the third part of a `for` head, which the parser keeps beside the loop) before the next
test, as an iteration that ends normally does. A `return` ends the loop and everything around
it up to the call, which ends with its value. A `break` or `continue` that no loop of the
function takes in ends the body, and the call fails with `loopControlOutside`.

`Reaches` says how a run of a function body gets to a statement: through the statements
before it in its block, which end normally; into the branch an `if` takes; into a compound
statement; and into an iteration of a loop, after the iterations before it. It records
whether the way went into a loop. A statement reached outside every loop that ends with
`break` or `continue`, or reached anywhere that ends with `return`, ends the whole body the
same way (`Reaches.run_abrupt`); and a body that ends with `break` or `continue` got to one of
these statements outside every loop (`reaches_of_loopControl`).

## Main definitions

* `Flow.isLoopControl`, `Stmt.isLoopControl` — `break` and `continue`.
* `Code`, `Code.run` — a statement, a block or the iterations of a loop, and the function of
  the evaluator that runs it.
* `Reaches` — a run of a piece of code gets to a statement, inside a loop or not.
* `openCall` — a call up to its body: the arity, the depth, the frame and the parameters;
  `openFrame` and `bindParams` are its two halves, the second of which the call runs with
  its body under a handler that closes the frame and leaves the level before it passes a
  failure on.
* `Flow.callResult`, `closeCall` — how a call ends after its body, and in what state.

## Main results

* `runLoop_not_loopControl` — a loop never ends with `break` or `continue`.
* `runLoop_latch` — an iteration that ends with `continue` goes on as one that ends normally.
* `Reaches.run_abrupt`, `reaches_of_loopControl` — how a body ends, from where its run gets.
* `controlSignals_caught` — the four facts together, for calls of user functions.
-/

namespace ByteLayout

open Eval

/-! ### Flows and code -/

/-- `break` and `continue`: the flows that only a loop takes in. -/
def Flow.isLoopControl : Flow → Bool
  | .brk | .cont => true
  | _ => false

/-- The statements `break` and `continue`. -/
def Stmt.isLoopControl : Stmt → Bool
  | .breakLoop _ | .continueLoop _ => true
  | _ => false

/-- A piece of a function body: a statement, a block, or the iterations of a loop. -/
inductive Code where
  | stmt (s : Stmt)
  | block (ss : List Stmt)
  | loop (cond : Expr) (body : List Stmt) (post : Option Stmt)

/-- The function of the evaluator that runs a piece of code. -/
def Code.run (fuel : Nat) : Code → Eval Flow
  | .stmt s => execStmt fuel s
  | .block ss => execBlock fuel ss
  | .loop cond body post => runLoop fuel cond body post

/-- The step of an `if` or of a loop's iteration, then the truth of its condition. -/
def stepCond (fuel : Nat) (cond : Expr) : Eval Bool := do
  tick
  truth (← evalExpr fuel cond)

/-- A loop's step, run after each iteration that does not break or return. -/
def runPost (fuel : Nat) : Option Stmt → Eval Unit
  | some p => do let _ ← execStmt fuel p
  | none => pure ()

/-- A call of a user function up to its body: the arity, the depth, a fresh function frame
and the parameters, each cast to its builtin type. -/
def openCall (f : FunctionDef) (args : List Value) : Eval Unit := do
  if args.length ≠ f.params.length then
    fault (.arity f.name (toString f.params.length) args.length)
  enter
  pushFrame .function ""
  (f.params.zip args).forM fun (p, v) => do
    let endian := p.ty.endian.getD .little
    let var ← match p.ty.asBuiltin? with
      | none | some .auto => pure (⟨v, none, endian⟩ : Variable)
      | some t => do
        let cast ← lift (v.cast t endian)
        pure (⟨cast, some t, endian⟩ : Variable)
    modifyScope (·.define p.name var)

/-- What a loop does after an iteration whose body ended with a flow: stop, normally after a
`break`, or with the value of a `return`; else run the loop's step and the rest of the
loop. -/
def afterBody (fuel : Nat) (cond : Expr) (body : List Stmt) (post : Option Stmt) :
    Flow → Eval Flow
  | .brk => return .normal
  | .ret v => return .ret v
  | .normal | .cont => do
    match post with
    | some p => let _ ← execStmt fuel p
    | none => pure ()
    runLoop fuel cond body post

/-- A call of a user function up to its frame: the arity, the depth and a fresh function
frame. -/
def openFrame (f : FunctionDef) (args : List Value) : Eval Unit := do
  if args.length ≠ f.params.length then
    fault (.arity f.name (toString f.params.length) args.length)
  enter
  pushFrame .function ""

/-- The parameters of a call, each cast to its builtin type and defined in the call's
frame. -/
def bindParams (f : FunctionDef) (args : List Value) : Eval Unit :=
  (f.params.zip args).forM fun (p, v) => do
    let endian := p.ty.endian.getD .little
    let var ← match p.ty.asBuiltin? with
      | none | some .auto => pure (⟨v, none, endian⟩ : Variable)
      | some t => do
        let cast ← lift (v.cast t endian)
        pure (⟨cast, some t, endian⟩ : Variable)
    modifyScope (·.define p.name var)

/-- How a call ends after its body: with the returned value, with none, or failing on a
`break` or `continue` that no loop took in. -/
def Flow.callResult : Flow → Eval (Option Value)
  | .ret v => pure v
  | .normal => pure none
  | .brk | .cont => fault .loopControlOutside

/-- The state after a call's body, with the call's frame closed and its level left. -/
def closeCall (m : Machine) : Machine :=
  { m with scope := m.scope.pop.2, depth := m.depth - 1 }

/-! ### The evaluator, one construct at a time -/

section Unfold

variable (fuel : Nat)

lemma code_run_zero (k : Code) : k.run 0 = fault .outOfFuel := by
  cases k <;> rfl

lemma execStmt_ifElse (cond : Expr) (t e : List Stmt) (sp : Span) :
    execStmt (fuel + 1) (.ifElse cond t e sp) = withLine sp.line (do
      if ← stepCond fuel cond then execBlock fuel t else execBlock fuel e) := by
  simp only [execStmt, stepCond, bind_assoc, Stmt.span]

lemma execStmt_compound (ss : List Stmt) (sp : Span) :
    execStmt (fuel + 1) (.compound ss sp) = withLine sp.line (do tick; execBlock fuel ss) := by
  simp only [execStmt, Stmt.span]

lemma execStmt_whileLoop (cond : Expr) (body : List Stmt) (post : Option Stmt) (sp : Span) :
    execStmt (fuel + 1) (.whileLoop cond body post sp) =
      withLine sp.line (do tick; runLoop fuel cond body post) := by
  simp only [execStmt, Stmt.span]

lemma execBlock_cons (s : Stmt) (rest : List Stmt) :
    execBlock (fuel + 1) (s :: rest) = (do
      match ← execStmt fuel s with
      | .normal => execBlock fuel rest
      | flow => return flow) :=
  rfl

lemma runLoop_succ (cond : Expr) (body : List Stmt) (post : Option Stmt) :
    runLoop (fuel + 1) cond body post = (do
      if !(← stepCond fuel cond) then return .normal
      afterBody fuel cond body post (← execBlock fuel body)) := by
  simp only [runLoop, stepCond, bind_assoc]
  rfl

/-- An iteration that ends normally or by `continue` runs the loop's step and the rest of the
loop. -/
lemma afterBody_iterate (cond : Expr) (body : List Stmt) (post : Option Stmt) {f : Flow}
    (hf : f = .normal ∨ f = .cont) :
    afterBody fuel cond body post f = (do runPost fuel post; runLoop fuel cond body post) := by
  rcases hf with rfl | rfl <;> cases post <;> simp [afterBody, runPost]

lemma openCall_eq (f : FunctionDef) (args : List Value) :
    openCall f args = (do openFrame f args; bindParams f args) := by
  simp only [openCall, openFrame, bindParams]
  -- the two `do` blocks differ in where the continuation of the arity check stands
  split <;> simp only [bind_assoc, pure_bind]

/-- A call: its frame, then its parameters and body, caught, then the frame closed and the
level left whether or not they failed. -/
lemma callUser_succ (f : FunctionDef) (args : List Value) :
    callUser (fuel + 1) f args = (do
      openFrame f args
      let result ← attempt (do bindParams f args; execBlock fuel f.body)
      let _ ← popFrame
      leave
      (← MonadExcept.ofExcept result).callResult) := by
  simp only [callUser, openFrame]
  -- both sides are the same computation once the binds are reassociated
  split <;> simp only [bind_assoc, pure_bind] <;> rfl

end Unfold

/-! ### Loops take in `break` and `continue` -/

section Loops

variable {c : Context}

/-- A loop ends normally or by `return`, never by `break` or `continue`.

The induction is on the fuel, one unit per iteration: the last iteration ends the loop by a
false condition, a `break` (normally) or a `return`. -/
theorem runLoop_not_loopControl (cond : Expr) (body : List Stmt) (post : Option Stmt) :
    ∀ fuel m, Wp (runLoop fuel cond body post) c m fun r _ => r.isLoopControl = false := by
  intro fuel
  induction fuel with
  | zero => intro m; simp [runLoop]
  | succ fuel ih =>
    intro m
    rw [runLoop_succ, wp_bind]
    intro b m₁ _
    cases b with
    | false => simp [Flow.isLoopControl]
    | true =>
      simp only [Bool.not_true, Bool.false_eq_true, ↓reduceIte, wp_bind]
      intro f m₂ _
      cases f with
      | brk | ret v => simp [afterBody, Flow.isLoopControl]
      | normal | cont =>
        simp only [afterBody_iterate _ _ _ _ (.inl rfl), afterBody_iterate _ _ _ _ (.inr rfl),
          wp_bind]
        exact fun _ m₃ _ => ih m₃

/-- An iteration whose body ends normally or by `continue` runs the loop's step and then the
rest of the loop. -/
theorem runLoop_latch {fuel : Nat} {cond : Expr} {body : List Stmt} {post : Option Stmt}
    {m m₁ m₂ : Machine} {f : Flow}
    (hc : ((stepCond fuel cond).run c).run m = .ok true m₁)
    (hb : ((execBlock fuel body).run c).run m₁ = .ok f m₂) (hf : f = .normal ∨ f = .cont) :
    ((runLoop (fuel + 1) cond body post).run c).run m =
      ((runPost fuel post >>= fun _ => runLoop fuel cond body post).run c).run m₂ := by
  rw [runLoop_succ, run_bind, hc]
  simp only [Bool.not_true, Bool.false_eq_true, ↓reduceIte, run_bind, hb]
  rw [afterBody_iterate _ _ _ _ hf, run_bind]

end Loops

/-! ### Where a run gets -/

/-- A statement about to run: the fuel it runs with, the statement and the machine. -/
structure StmtAt where
  fuel : Nat
  stmt : Stmt
  machine : Machine

/-- `Reaches c fuel k m inLoop p`: the run of `k` with `fuel` from `m` gets to the statement
`p` — through the statements before it in its block, which end normally; into the branch an
`if` takes; into a compound statement; into an iteration of a loop, after iterations that
end normally or by `continue` and their steps. `inLoop` tells whether the way went into a
loop. -/
inductive Reaches (c : Context) : Nat → Code → Machine → Bool → StmtAt → Prop
  | self {fuel : Nat} {s : Stmt} {m : Machine} : Reaches c fuel (.stmt s) m false ⟨fuel, s, m⟩
  | ifElse {fuel : Nat} {cond : Expr} {t e : List Stmt} {sp : Span} {m m₁ : Machine} {b : Bool}
      {l : Bool} {p : StmtAt}
      (hc : ((stepCond fuel cond).run c).run m = .ok b m₁)
      (h : Reaches c fuel (.block (if b then t else e)) m₁ l p) :
      Reaches c (fuel + 1) (.stmt (.ifElse cond t e sp)) m l p
  | compound {fuel : Nat} {ss : List Stmt} {sp : Span} {m m₁ : Machine} {l : Bool} {p : StmtAt}
      (ht : ((tick).run c).run m = .ok () m₁)
      (h : Reaches c fuel (.block ss) m₁ l p) :
      Reaches c (fuel + 1) (.stmt (.compound ss sp)) m l p
  | whileLoop {fuel : Nat} {cond : Expr} {body : List Stmt} {post : Option Stmt} {sp : Span}
      {m m₁ : Machine} {l : Bool} {p : StmtAt}
      (ht : ((tick).run c).run m = .ok () m₁)
      (h : Reaches c fuel (.loop cond body post) m₁ l p) :
      Reaches c (fuel + 1) (.stmt (.whileLoop cond body post sp)) m l p
  | head {fuel : Nat} {s : Stmt} {rest : List Stmt} {m : Machine} {l : Bool} {p : StmtAt}
      (h : Reaches c fuel (.stmt s) m l p) :
      Reaches c (fuel + 1) (.block (s :: rest)) m l p
  | next {fuel : Nat} {s : Stmt} {rest : List Stmt} {m m₁ : Machine} {l : Bool} {p : StmtAt}
      (hs : ((execStmt fuel s).run c).run m = .ok .normal m₁)
      (h : Reaches c fuel (.block rest) m₁ l p) :
      Reaches c (fuel + 1) (.block (s :: rest)) m l p
  | body {fuel : Nat} {cond : Expr} {body : List Stmt} {post : Option Stmt} {m m₁ : Machine}
      {l : Bool} {p : StmtAt}
      (hc : ((stepCond fuel cond).run c).run m = .ok true m₁)
      (h : Reaches c fuel (.block body) m₁ l p) :
      Reaches c (fuel + 1) (.loop cond body post) m true p
  | iterate {fuel : Nat} {cond : Expr} {body : List Stmt} {post : Option Stmt}
      {m m₁ m₂ m₃ : Machine} {f : Flow} {p : StmtAt}
      (hc : ((stepCond fuel cond).run c).run m = .ok true m₁)
      (hb : ((execBlock fuel body).run c).run m₁ = .ok f m₂) (hf : f = .normal ∨ f = .cont)
      (hp : ((runPost fuel post).run c).run m₂ = .ok () m₃)
      (h : Reaches c fuel (.loop cond body post) m₃ true p) :
      Reaches c (fuel + 1) (.loop cond body post) m true p

section Reach

variable {c : Context}

/-- A statement that ends by `return`, or by `break` or `continue` where no loop stands
between it and the code, ends the code the same way and in the same state.

The induction is on the way to the statement: each construct passes the flow on, and a loop
passes on a `return`. -/
theorem Reaches.run_abrupt {fuel : Nat} {k : Code} {m : Machine} {l : Bool} {p : StmtAt}
    (h : Reaches c fuel k m l p) {r : Flow} {m' : Machine}
    (hp : ((execStmt p.fuel p.stmt).run c).run p.machine = .ok r m')
    (hr : (∃ v, r = .ret v) ∨ (l = false ∧ r.isLoopControl = true)) :
    ((k.run fuel).run c).run m = .ok r m' := by
  have hnormal : r ≠ .normal := by
    rintro rfl
    rcases hr with ⟨v, hv⟩ | ⟨_, hv⟩ <;> cases hv
  induction h with
  | self => exact hp
  | @ifElse fuel cond t e sp m m₁ b l p hc _ ih =>
    rw [Code.run, execStmt_ifElse, run_withLine_of_ok]
    rw [run_bind, hc]
    have := ih hp hr
    cases b <;> exact this
  | compound ht _ ih =>
    rw [Code.run, execStmt_compound, run_withLine_of_ok]
    rw [run_bind, ht]
    exact ih hp hr
  | whileLoop ht _ ih =>
    rw [Code.run, execStmt_whileLoop, run_withLine_of_ok]
    rw [run_bind, ht]
    exact ih hp hr
  | head _ ih =>
    rw [Code.run, execBlock_cons, run_bind, ← Code.run, ih hp hr]
    cases r with
    | normal => exact absurd rfl hnormal
    | ret | brk | cont => rfl
  | next hs _ ih =>
    rw [Code.run, execBlock_cons, run_bind, hs]
    exact ih hp hr
  | body hc _ ih =>
    -- inside a loop only a `return` gets out
    obtain ⟨v, rfl⟩ : ∃ v, r = .ret v := by simpa using hr
    rw [Code.run, runLoop_succ, run_bind, hc]
    simp only [Bool.not_true, Bool.false_eq_true, ↓reduceIte, run_bind]
    rw [← Code.run, ih hp (.inl ⟨v, rfl⟩)]
    rfl
  | iterate hc hb hf hpost _ ih =>
    rw [Code.run, runLoop_latch hc hb hf, run_bind, hpost]
    exact ih hp hr

/-- A statement other than `if`, a compound statement, a loop, `break` and `continue` ends
normally or by `return`, or fails. -/
lemma execStmt_plain (fuel : Nat) (s : Stmt) (m : Machine)
    (hs : ∀ cond t e sp, s ≠ .ifElse cond t e sp) (hc : ∀ ss sp, s ≠ .compound ss sp)
    (hw : ∀ cond body post sp, s ≠ .whileLoop cond body post sp) (hl : s.isLoopControl = false) :
    Wp (execStmt fuel s) c m fun r _ => r.isLoopControl = false := by
  cases fuel with
  | zero => exact wp_fault _
  | succ fuel =>
    cases s
    case ifElse => exact absurd rfl (hs _ _ _ _)
    case compound => exact absurd rfl (hc _ _)
    case whileLoop => exact absurd rfl (hw _ _ _ _)
    case breakLoop | continueLoop => simp [Stmt.isLoopControl] at hl
    case returnWith v _ =>
      cases v <;> simp only [execStmt, wp_withLine, wp_bind, wp_pure, Flow.isLoopControl, wp_true]
    all_goals
      simp only [execStmt, wp_withLine, wp_bind, wp_pure, wp_fault, Flow.isLoopControl, wp_true]

/-- Every run of code with `fuel` that ends by `break` or `continue` got to a `break` or
`continue` statement where no loop stands between it and the code, and that statement ends
the same way and in the same state. -/
def LoopControlTraced (c : Context) (fuel : Nat) : Prop :=
  ∀ (k : Code) (m : Machine) (r : Flow) (m' : Machine),
    ((k.run fuel).run c).run m = .ok r m' → r.isLoopControl = true →
    ∃ p, Reaches c fuel k m false p ∧ p.stmt.isLoopControl = true ∧
      ((execStmt p.fuel p.stmt).run c).run p.machine = .ok r m'

namespace LoopControlTraced

variable {fuel : Nat}

/-- A statement: a `break` or `continue` is the statement itself, an `if` or a compound
statement passes on the flow of its block, and the other statements never end so. -/
lemma stmt (ih : LoopControlTraced c fuel) (s : Stmt) {m : Machine} {r : Flow} {m' : Machine}
    (h : ((execStmt (fuel + 1) s).run c).run m = .ok r m') (hr : r.isLoopControl = true) :
    ∃ p, Reaches c (fuel + 1) (.stmt s) m false p ∧ p.stmt.isLoopControl = true ∧
      ((execStmt p.fuel p.stmt).run c).run p.machine = .ok r m' := by
  by_cases hl : s.isLoopControl = true
  · exact ⟨⟨fuel + 1, s, m⟩, .self, hl, h⟩
  cases s
  case ifElse cond t e sp =>
    rw [execStmt_ifElse, run_withLine_eq_ok, run_bind_eq_ok] at h
    obtain ⟨b, m₁, hc, hb⟩ := h
    have hb' : ((execBlock fuel (if b then t else e)).run c).run m₁ = .ok r m' := by
      cases b <;> exact hb
    obtain ⟨p, hp, hs, hrun⟩ := ih (.block _) m₁ r m' hb' hr
    exact ⟨p, .ifElse hc hp, hs, hrun⟩
  case compound ss sp =>
    rw [execStmt_compound, run_withLine_eq_ok, run_bind_eq_ok] at h
    obtain ⟨_, m₁, ht, hb⟩ := h
    obtain ⟨p, hp, hs, hrun⟩ := ih (.block ss) m₁ r m' hb hr
    exact ⟨p, .compound ht hp, hs, hrun⟩
  case whileLoop cond body post sp =>
    rw [execStmt_whileLoop, run_withLine_eq_ok, run_bind_eq_ok] at h
    obtain ⟨_, m₁, _, hloop⟩ := h
    have := runLoop_not_loopControl cond body post fuel m₁ r m' hloop
    simp_all
  all_goals
    have := execStmt_plain (fuel + 1) _ m (by simp) (by simp) (by simp) (by simpa using hl) r m' h
    simp_all

/-- A block: the first statement that does not end normally ends the block. -/
lemma block (ih : LoopControlTraced c fuel) (ss : List Stmt) {m : Machine} {r : Flow}
    {m' : Machine} (h : ((execBlock (fuel + 1) ss).run c).run m = .ok r m')
    (hr : r.isLoopControl = true) :
    ∃ p, Reaches c (fuel + 1) (.block ss) m false p ∧ p.stmt.isLoopControl = true ∧
      ((execStmt p.fuel p.stmt).run c).run p.machine = .ok r m' := by
  cases ss with
  | nil =>
    simp only [execBlock, run_pure, EStateM.Result.ok.injEq] at h
    simp [← h.1, Flow.isLoopControl] at hr
  | cons s rest =>
    rw [execBlock_cons, run_bind_eq_ok] at h
    obtain ⟨f, m₁, hs, hrest⟩ := h
    cases f with
    | normal =>
      obtain ⟨p, hp, hl, hrun⟩ := ih (.block rest) m₁ r m' hrest hr
      exact ⟨p, .next hs hp, hl, hrun⟩
    | ret v | brk | cont =>
      simp only [run_pure, EStateM.Result.ok.injEq] at hrest
      obtain ⟨rfl, rfl⟩ := hrest
      obtain ⟨p, hp, hl, hrun⟩ := ih (.stmt s) m _ m₁ hs hr
      exact ⟨p, .head hp, hl, hrun⟩

end LoopControlTraced

/-- Code that ends by `break` or `continue` got to such a statement outside every loop.

The induction is on the fuel: a statement and a block go down one unit; a loop never ends
so. -/
theorem loopControlTraced : ∀ fuel, LoopControlTraced c fuel := by
  intro fuel
  induction fuel with
  | zero =>
    intro k m r m' h _
    rw [code_run_zero, run_fault] at h
    cases h
  | succ fuel ih =>
    intro k m r m' h hr
    cases k with
    | stmt s => exact ih.stmt s h hr
    | block ss => exact ih.block ss h hr
    | loop cond body post =>
      have := runLoop_not_loopControl cond body post (fuel + 1) m r m' h
      simp_all

/-- A `break` or `continue` statement that runs ends by `break` or `continue`. -/
lemma execStmt_loopControl {fuel : Nat} {s : Stmt} {m : Machine} {r : Flow} {m' : Machine}
    (hs : s.isLoopControl = true) (h : ((execStmt fuel s).run c).run m = .ok r m') :
    r.isLoopControl = true := by
  cases fuel with
  | zero => cases h
  | succ fuel =>
    cases s
    case breakLoop sp | continueLoop sp =>
      simp only [execStmt, Stmt.span, run_withLine_eq_ok, run_bind_eq_ok, run_pure,
        EStateM.Result.ok.injEq] at h
      obtain ⟨_, _, _, rfl, rfl⟩ := h
      rfl
    all_goals simp [Stmt.isLoopControl] at hs

end Reach

/-! ### Where a call's failures come from -/

section Failures

variable {α β γ : Type} {c : Context}

/-- Every failure of `x` under `c`, from every state, satisfies `Q`. -/
def FailsOnly (x : Eval α) (c : Context) (Q : EvalError → Prop) : Prop :=
  ∀ m e m', (x.run c).run m = .error e m' → Q e

namespace FailsOnly

variable {Q : EvalError → Prop}

lemma bind {x : Eval α} {f : α → Eval β} (hx : FailsOnly x c Q) (hf : ∀ a, FailsOnly (f a) c Q) :
    FailsOnly (x >>= f) c Q := by
  intro m e m' h
  rw [run_bind] at h
  rcases hrun : (x.run c).run m with ⟨a, m₁⟩ | ⟨e', m₁⟩
  · rw [hrun] at h
    exact hf a m₁ e m' h
  · rw [hrun] at h
    cases h
    exact hx m _ _ hrun

lemma of_ok {x : Eval α} (h : ∀ m, ∃ a m', (x.run c).run m = .ok a m') : FailsOnly x c Q := by
  intro m e m' he
  obtain ⟨a, m₁, hr⟩ := h m
  rw [hr] at he
  cases he

lemma pure (a : α) : FailsOnly (Pure.pure a : Eval α) c Q := of_ok fun _ => ⟨_, _, rfl⟩

lemma modify (g : Machine → Machine) : FailsOnly (modify g : Eval PUnit) c Q :=
  of_ok fun _ => ⟨_, _, rfl⟩

lemma fault {f : EvalFault} (h : Q (EvalError.ofFault f)) : FailsOnly (fault f : Eval α) c Q := by
  intro m e m' he
  cases he
  exact h

lemma lift {x : Except EvalFault α} (h : ∀ f, x = .error f → Q (EvalError.ofFault f)) :
    FailsOnly (lift x) c Q := by
  intro m e m' he
  cases x with
  | error f =>
    cases he
    exact h f rfl
  | ok a => cases he

lemma forM (l : List γ) {f : γ → Eval PUnit} (hf : ∀ a, FailsOnly (f a) c Q) :
    FailsOnly (l.forM f) c Q := by
  induction l with
  | nil => exact pure _
  | cons a l ih => exact bind (hf a) fun _ => ih

/-- A failure inside a `withLine` has a line. -/
lemma withLine (l : Nat) (x : Eval α) : FailsOnly (Eval.withLine l x) c fun e => e.line.isSome := by
  intro m e m' h
  rw [run_withLine] at h
  rcases hrun : (x.run c).run m with ⟨a, m₁⟩ | ⟨e', m₁⟩
  · rw [hrun] at h
    cases h
  · rw [hrun] at h
    cases h
    unfold EvalError.withLine
    split
    · assumption
    · rfl

end FailsOnly

/-- A conversion to a builtin type fails only on a value of the wrong kind. -/
lemma Value.cast_fault {v : Value} {t : Builtin} {e : Endian} {f : EvalFault}
    (h : v.cast t e = .error f) : f ≠ .loopControlOutside := by
  rintro rfl
  cases t <;> cases v <;> simp [Value.cast, Value.toBool, Value.toFloat, Value.toUnsigned] at h
  -- what is left is a conversion of a double, which succeeds on either side of zero
  all_goals first | cases h | (split at h <;> cases h)

lemma enter_failsOnly : FailsOnly enter c fun e => e.fault ≠ .loopControlOutside := by
  intro m e m' h
  simp only [enter, config, run_bind, run_read, run_pure, run_get, run_ite, run_fault,
    run_modify] at h
  split at h <;> cases h
  simp [EvalError.ofFault]

/-- Opening a call's frame fails on the arity or the depth, never on a `break` or
`continue`. -/
lemma openFrame_failsOnly (f : FunctionDef) (args : List Value) :
    FailsOnly (openFrame f args) c fun e => e.fault ≠ .loopControlOutside := by
  unfold openFrame
  split
  on_goal 1 => refine FailsOnly.bind (FailsOnly.fault (by simp [EvalError.ofFault])) fun _ => ?_
  -- the depth and the frame follow the arity check on both sides
  all_goals
    beta_reduce
    exact FailsOnly.bind enter_failsOnly fun _ => FailsOnly.of_ok fun _ => ⟨_, _, rfl⟩

/-- Binding a call's parameters fails only on a parameter's cast. -/
lemma bindParams_failsOnly (f : FunctionDef) (args : List Value) :
    FailsOnly (bindParams f args) c fun e => e.fault ≠ .loopControlOutside := by
  refine FailsOnly.forM _ fun pv => ?_
  obtain ⟨p, v⟩ := pv
  dsimp only
  split
  · exact FailsOnly.bind (FailsOnly.pure _) fun _ => FailsOnly.modify _
  · exact FailsOnly.bind (FailsOnly.pure _) fun _ => FailsOnly.modify _
  · refine FailsOnly.bind (FailsOnly.lift fun _ h => ?_) fun _ =>
      FailsOnly.bind (FailsOnly.pure _) fun _ => FailsOnly.modify _
    simpa [EvalError.ofFault] using Value.cast_fault h

/-- A block fails for want of fuel or inside one of its statements, whose line the failure
carries. -/
lemma execBlock_failsOnly :
    ∀ fuel ss, FailsOnly (execBlock fuel ss) c fun e => e.fault = .outOfFuel ∨ e.line.isSome := by
  intro fuel
  induction fuel with
  | zero => exact fun _ => FailsOnly.fault (.inl rfl)
  | succ fuel ih =>
    intro ss
    cases ss with
    | nil => exact FailsOnly.pure _
    | cons s rest =>
      rw [execBlock_cons]
      refine FailsOnly.bind ?_ fun flow => ?_
      · cases fuel with
        | zero => exact FailsOnly.fault (.inl rfl)
        | succ fuel =>
          obtain ⟨x, hx⟩ : ∃ x, execStmt (fuel + 1) s = withLine s.span.line x := ⟨_, rfl⟩
          rw [hx]
          exact fun m e m' h => .inr (FailsOnly.withLine _ _ m e m' h)
      · cases flow with
        | normal => exact ih rest
        | ret | brk | cont => exact FailsOnly.pure _

end Failures

/-! ### Calls -/

section Calls

variable {c : Context} {fuel : Nat} {f : FunctionDef} {args : List Value} {m : Machine}

/-- An opened call whose body ends with a flow ends as the flow says, from the state after the
body with the frame closed and the level left. -/
lemma callUser_of_body_ok {m₁ m' : Machine} {r : Flow}
    (hopen : ((openCall f args).run c).run m = .ok () m₁)
    (hb : ((execBlock fuel f.body).run c).run m₁ = .ok r m') :
    ((callUser (fuel + 1) f args).run c).run m = ((r.callResult).run c).run (closeCall m') := by
  rw [openCall_eq, run_bind_eq_ok] at hopen
  obtain ⟨_, m₀, hframe, hparams⟩ := hopen
  simp only [callUser_succ, run_bind, hframe, run_attempt, hparams, hb]
  rfl

/-- An opened call whose body fails fails with the body's failure, with the frame closed and
the level left. -/
lemma callUser_of_body_error {m₁ m' : Machine} {e : EvalError}
    (hopen : ((openCall f args).run c).run m = .ok () m₁)
    (hb : ((execBlock fuel f.body).run c).run m₁ = .error e m') :
    ((callUser (fuel + 1) f args).run c).run m = .error e (closeCall m') := by
  rw [openCall_eq, run_bind_eq_ok] at hopen
  obtain ⟨_, m₀, hframe, hparams⟩ := hopen
  simp only [callUser_succ, run_bind, hframe, run_attempt, hparams, hb]
  rfl

/-- A call that does not open fails as its opening does. -/
lemma callUser_of_open_error (fuel : Nat) {m₁ : Machine} {e : EvalError}
    (hopen : ((openCall f args).run c).run m = .error e m₁) :
    ∃ m', ((callUser (fuel + 1) f args).run c).run m = .error e m' := by
  rw [openCall_eq, run_bind] at hopen
  rw [callUser_succ, run_bind]
  rcases hframe : ((openFrame f args).run c).run m with ⟨⟨⟩, m₀⟩ | ⟨e₀, m₀⟩
  · -- the frame opened and a parameter's cast failed, inside the caught part
    simp only [hframe] at hopen
    simp only [run_bind, run_attempt, hopen]
    exact ⟨_, rfl⟩
  · simp only [hframe] at hopen
    cases hopen
    exact ⟨_, rfl⟩

/-- A body that ends by `return` ends the call with the returned value. -/
lemma callUser_of_ret {m₁ m' : Machine} {v : Option Value}
    (hopen : ((openCall f args).run c).run m = .ok () m₁)
    (hb : ((execBlock fuel f.body).run c).run m₁ = .ok (.ret v) m') :
    ∃ m'', ((callUser (fuel + 1) f args).run c).run m = .ok v m'' :=
  ⟨_, callUser_of_body_ok hopen hb⟩

/-- A call fails with `loopControlOutside` exactly when it opens and its body ends by `break`
or `continue`: a failure of the opening never is one, and a failure inside the body carries
the line of a statement. -/
lemma callUser_loopControl_iff :
    (∃ m'', ((callUser (fuel + 1) f args).run c).run m =
        .error (EvalError.ofFault .loopControlOutside) m'') ↔
      ∃ m₁, ((openCall f args).run c).run m = .ok () m₁ ∧
        ∃ r m', ((execBlock fuel f.body).run c).run m₁ = .ok r m' ∧ r.isLoopControl = true := by
  have hopenFails : FailsOnly (openCall f args) c fun e => e.fault ≠ .loopControlOutside := by
    rw [openCall_eq]
    exact FailsOnly.bind (openFrame_failsOnly f args) fun _ => bindParams_failsOnly f args
  constructor
  · rintro ⟨m'', h⟩
    rcases hopen : ((openCall f args).run c).run m with ⟨⟨⟩, m₁⟩ | ⟨e, m₁⟩
    · refine ⟨m₁, rfl, ?_⟩
      rcases hb : ((execBlock fuel f.body).run c).run m₁ with ⟨r, m'⟩ | ⟨e, m'⟩
      · refine ⟨r, m', rfl, ?_⟩
        rw [callUser_of_body_ok hopen hb] at h
        cases r <;> first | rfl | cases h
      · -- the body's failure carries a line, which the call's own failure has not
        rw [callUser_of_body_error hopen hb] at h
        cases h
        have := execBlock_failsOnly fuel f.body m₁ _ m' hb
        simp [EvalError.ofFault] at this
    · obtain ⟨m', hm'⟩ := callUser_of_open_error fuel hopen
      rw [hm'] at h
      cases h
      exact absurd rfl (hopenFails m _ m₁ hopen)
  · rintro ⟨m₁, hopen, r, m', hb, hr⟩
    rw [callUser_of_body_ok hopen hb]
    cases r <;> first | exact ⟨_, rfl⟩ | simp [Flow.isLoopControl] at hr

end Calls

/-- **Control-flow signals are caught where they belong.** For every context:
* a `while` statement, and so the loop of a `for` statement, never ends by `break` or
  `continue`;
* an iteration whose body ends by `continue` runs the loop's step and then the rest of the
  loop;
* a statement reached anywhere in a function's body, inside any nesting of `if`, loops and
  compound statements, that ends by `return` ends the call with the returned value;
* a call fails with `loopControlOutside` exactly when it opens and the run of its body
  reaches a `break` or `continue` statement that no loop of the function stands around,
  every statement before it ending normally.

**Proof sketch.** A loop takes in `break` and `continue` (`runLoop_not_loopControl`) and goes
on after `continue` as after a normal iteration (`runLoop_latch`). An abrupt flow passes out
of everything on the way to its statement (`Reaches.run_abrupt`), and a body that ends by
`break` or `continue` has such a way to such a statement (`loopControlTraced`). The call's own
failure is told from the others by its missing line (`callUser_loopControl_iff`). -/
theorem controlSignals_caught (c : Context) :
    (∀ fuel cond body post sp m r m',
      ((execStmt fuel (.whileLoop cond body post sp)).run c).run m = .ok r m' →
        r.isLoopControl = false) ∧
    (∀ fuel cond body p m m₁ m₂,
      ((stepCond fuel cond).run c).run m = .ok true m₁ →
      ((execBlock fuel body).run c).run m₁ = .ok .cont m₂ →
      ((runLoop (fuel + 1) cond body (some p)).run c).run m =
        ((do let _ ← execStmt fuel p; runLoop fuel cond body (some p)).run c).run m₂) ∧
    (∀ fuel f args m m₁ l p v m',
      ((openCall f args).run c).run m = .ok () m₁ →
      Reaches c fuel (.block f.body) m₁ l p →
      ((execStmt p.fuel p.stmt).run c).run p.machine = .ok (.ret v) m' →
      ∃ m'', ((callUser (fuel + 1) f args).run c).run m = .ok v m'') ∧
    (∀ fuel f args m,
      (∃ m'', ((callUser (fuel + 1) f args).run c).run m =
          .error (EvalError.ofFault .loopControlOutside) m'') ↔
        ∃ m₁, ((openCall f args).run c).run m = .ok () m₁ ∧
          ∃ p, Reaches c fuel (.block f.body) m₁ false p ∧ p.stmt.isLoopControl = true ∧
            ∃ r m', ((execStmt p.fuel p.stmt).run c).run p.machine = .ok r m') := by
  refine ⟨fun fuel cond body post sp m r m' h => ?_, fun fuel cond body p m m₁ m₂ hc hb => ?_,
    fun fuel f args m m₁ l p v m' hopen hp hret => ?_, fun fuel f args m => ?_⟩
  · -- a loop statement ends as its loop
    cases fuel with
    | zero => cases h
    | succ fuel =>
      rw [execStmt_whileLoop, run_withLine_eq_ok, run_bind_eq_ok] at h
      obtain ⟨_, m₁, _, hloop⟩ := h
      exact runLoop_not_loopControl cond body post fuel m₁ r m' hloop
  · rw [runLoop_latch hc hb (.inr rfl)]
    simp only [runPost, bind_assoc, pure_bind]
  · exact callUser_of_ret hopen (hp.run_abrupt hret (.inl ⟨v, rfl⟩))
  · rw [callUser_loopControl_iff]
    constructor
    · rintro ⟨m₁, hopen, r, m', hb, hr⟩
      obtain ⟨p, hp, hl, hrun⟩ := loopControlTraced fuel (.block f.body) m₁ r m' hb hr
      exact ⟨m₁, hopen, p, hp, hl, r, m', hrun⟩
    · rintro ⟨m₁, hopen, p, hp, hl, r, m', hrun⟩
      have hr := execStmt_loopControl hl hrun
      exact ⟨m₁, hopen, r, m', hp.run_abrupt hrun (.inr ⟨rfl, hr⟩), hr⟩

end ByteLayout

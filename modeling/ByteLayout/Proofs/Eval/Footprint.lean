import ByteLayout.Proofs.Eval.Wp

/-!
# What expressions leave alone

Expressions are evaluated in the middle of building: an array's size, a placement address,
a member condition, an enum entry or a bitfield width, and each may call functions of the
program. None of this moves the cursor, changes the inherited byte order or the recursion
depth, or adds a node. A function call pushes a frame of its own for its parameters and
locals and pops it when it returns, and an assignment in its body reaches only the frames
the body sees: its own frame and the global frame, since a lookup stops at the innermost
function frame. So an expression changes at most the global variables, the printed lines
and the step count.

A failed call closes its frame and leaves its level before the failure passes on, so all of
this holds of every evaluation however it ends: the statements here are about both outcomes
(`Eval.WpAll`).

## Main definitions

* `Frame.layout`, `Scope.layout` — a frame and a scope without their variables.
* `Scope.hiddenFrames` — the frames under the innermost function frame.
* `Machine.UpToGlobals` — two states that differ at most in the global variables, the
  printed lines and the step count.
* `Machine.UpToVisible` — two states that may also differ in the variables of the frames a
  function body sees.
* `Machine.SameLayout` — two states that agree in what a builder reads or writes.
* `ExprUpToGlobals` — the frame lemma for every function of the expression evaluator at one
  fuel.

## Main results

* `Intrinsic.onlyConsole` — built-in functions change only the printed lines.
* `exprUpToGlobals` — expressions, paths, enum entries and calls change only the global
  variables, the printed lines and the step count, and function bodies also only the
  variables they see, at every fuel.
* `evalExpr_changes_only_globals` — evaluating an expression, successfully or not, changes
  only the global variables, the printed lines and the step count.
* `exprKeepsLayout` — hence all of them keep the layout.
-/

namespace ByteLayout

/-! ### Frames without their variables -/

/-- What a frame holds apart from its variables. -/
def Frame.layout (f : Frame) : FrameKind × List Node × Nat × String :=
  (f.kind, f.members, f.start, f.typeName)

/-- The frames' kinds, nodes and starts, innermost first, and the global frame's nodes. -/
def Scope.layout (s : Scope) : List (FrameKind × List Node × Nat × String) × List Node :=
  (s.inner.map Frame.layout, s.global.members)

@[simp] lemma Frame.layout_define (f : Frame) (name : String) (v : Variable) :
    (f.define name v).layout = f.layout := rfl

@[simp] lemma Frame.kind_define (f : Frame) (name : String) (v : Variable) :
    (f.define name v).kind = f.kind := rfl

namespace Scope

/-- The frames under the innermost function frame: a function body neither sees nor changes
them. -/
def hiddenFrames : List Frame → List Frame
  | [] => []
  | f :: rest => if f.kind = .function then rest else hiddenFrames rest

@[simp] lemma hiddenFrames_define (f : Frame) (name : String) (v : Variable) (fs : List Frame) :
    hiddenFrames (f.define name v :: fs) = hiddenFrames (f :: fs) := rfl

/-- `s'` differs from `s` at most in the variables of the frames a function body sees: the
frames down to the innermost function frame, and the global frame. -/
structure UpToVisible (s s' : Scope) : Prop where
  layouts : s'.inner.map Frame.layout = s.inner.map Frame.layout
  hidden : hiddenFrames s'.inner = hiddenFrames s.inner
  global : s'.global.layout = s.global.layout

namespace UpToVisible

@[refl] lemma refl (s : Scope) : s.UpToVisible s := ⟨rfl, rfl, rfl⟩

lemma trans {s₁ s₂ s₃ : Scope} (h₁ : s₁.UpToVisible s₂) (h₂ : s₂.UpToVisible s₃) :
    s₁.UpToVisible s₃ :=
  ⟨h₂.layouts.trans h₁.layouts, h₂.hidden.trans h₁.hidden, h₂.global.trans h₁.global⟩

/-- The layout records the nodes of every frame. -/
lemma layout_eq {s s' : Scope} (h : s.UpToVisible s') : s'.layout = s.layout := by
  simp only [layout, h.layouts, Prod.mk.injEq, true_and]
  exact congrArg (·.2.1) h.global

end UpToVisible

/-- Defining a variable changes only the innermost frame's variables. -/
lemma upToVisible_define (s : Scope) (name : String) (v : Variable) :
    s.UpToVisible (s.define name v) := by
  rcases s with ⟨_ | ⟨f, fs⟩, g⟩
  · exact ⟨rfl, rfl, rfl⟩
  · exact ⟨by simp [define, modifyCurrent], by simp [define, modifyCurrent], rfl⟩

/-- Replacing a variable in the visible inner frames changes no layout and no hidden frame:
the search stops at the innermost function frame. -/
lemma setVariable_go_shape (name : String) (v : Variable) {fs fs' : List Frame}
    (h : setVariable.go name v fs = some fs') :
    fs'.map Frame.layout = fs.map Frame.layout ∧ hiddenFrames fs' = hiddenFrames fs := by
  induction fs generalizing fs' with
  | nil => simp [setVariable.go] at h
  | cons f fs ih =>
    simp only [setVariable.go] at h
    split at h
    · cases h
      exact ⟨by simp, by simp⟩
    · split at h
      · cases h
      · rename_i hkind
        obtain ⟨fs'', h', rfl⟩ := Option.map_eq_some_iff.mp h
        obtain ⟨hl, hh⟩ := ih h'
        exact ⟨by simp [hl], by simp [hiddenFrames, hkind, hh]⟩

lemma upToVisible_setVariable (s : Scope) (name : String) (v : Variable) :
    s.UpToVisible (s.setVariable name v) := by
  unfold setVariable
  split
  · rename_i inner h
    obtain ⟨hl, hh⟩ := setVariable_go_shape name v h
    exact ⟨hl, hh, rfl⟩
  · exact ⟨rfl, rfl, rfl⟩

/-- An assignment changes only a visible variable. -/
lemma upToVisible_of_assign {s s' : Scope} {name : String} {value : Value}
    (h : s.assign name value = .ok s') : s.UpToVisible s' := by
  unfold assign at h
  split at h
  · cases h
  · simp only [bind, Except.bind, pure, Except.pure] at h
    split at h
    · -- a typed variable: the value is cast first
      split at h
      · cases h
      · cases h
        exact upToVisible_setVariable _ _ _
    · cases h
      exact upToVisible_setVariable _ _ _

/-- Closing a function frame opened on `s`, after the body changed only what it sees, gives
back the frames of `s` exactly, and the global frame up to its variables. -/
lemma UpToVisible.pop_of_push {s s' : Scope} {st : Nat} {tn : String}
    (h : (s.push .function st tn).UpToVisible s') :
    s'.pop.2.inner = s.inner ∧ s'.pop.2.global.layout = s.global.layout := by
  obtain ⟨hl, hh, hg⟩ := h
  rcases s' with ⟨_ | ⟨f, fs⟩, g⟩
  · simp [push] at hl
  · simp only [push, List.map_cons, List.cons.injEq] at hl
    -- the frame on top is still the function frame, so the frames under it are hidden
    have hkind : f.kind = .function := congrArg Prod.fst hl.1
    simp only [push, hiddenFrames, hkind, Frame.empty, ↓reduceIte] at hh
    exact ⟨hh, hg⟩

end Scope

/-! ### States up to what expressions change -/

/-- `m'` agrees with `m` except in the variables of the global frame, the printed lines and
the step count: all that evaluating an expression may change. -/
structure Machine.UpToGlobals (m m' : Machine) : Prop where
  cursor : m'.cursor = m.cursor
  endian : m'.endian = m.endian
  depth : m'.depth = m.depth
  patterns : m'.patterns = m.patterns
  spliced : m'.spliced = m.spliced
  inputs : m'.inputs = m.inputs
  outputs : m'.outputs = m.outputs
  inner : m'.scope.inner = m.scope.inner
  global : m'.scope.global.layout = m.scope.global.layout

/-- `m'` agrees with `m` except in the variables of the frames a function body sees, the
printed lines and the step count: all that a statement of a function body may change. -/
structure Machine.UpToVisible (m m' : Machine) : Prop where
  cursor : m'.cursor = m.cursor
  endian : m'.endian = m.endian
  depth : m'.depth = m.depth
  patterns : m'.patterns = m.patterns
  spliced : m'.spliced = m.spliced
  inputs : m'.inputs = m.inputs
  outputs : m'.outputs = m.outputs
  scope : m.scope.UpToVisible m'.scope

/-- Two states that may differ in variables, the step counter, the recursion depth and the
console, but not in what a builder reads or writes. -/
structure Machine.SameLayout (m m' : Machine) : Prop where
  cursor : m'.cursor = m.cursor
  endian : m'.endian = m.endian
  patterns : m'.patterns = m.patterns
  spliced : m'.spliced = m.spliced
  scope : m'.scope.layout = m.scope.layout

namespace Machine

variable {m₁ m₂ m₃ : Machine}

namespace UpToGlobals

@[refl, simp] lemma refl (m : Machine) : m.UpToGlobals m :=
  ⟨rfl, rfl, rfl, rfl, rfl, rfl, rfl, rfl, rfl⟩

lemma trans (h₁ : m₁.UpToGlobals m₂) (h₂ : m₂.UpToGlobals m₃) : m₁.UpToGlobals m₃ :=
  ⟨h₂.cursor.trans h₁.cursor, h₂.endian.trans h₁.endian, h₂.depth.trans h₁.depth,
    h₂.patterns.trans h₁.patterns, h₂.spliced.trans h₁.spliced, h₂.inputs.trans h₁.inputs,
    h₂.outputs.trans h₁.outputs, h₂.inner.trans h₁.inner, h₂.global.trans h₁.global⟩

lemma visible (h : m₁.UpToGlobals m₂) : m₁.UpToVisible m₂ :=
  ⟨h.cursor, h.endian, h.depth, h.patterns, h.spliced, h.inputs, h.outputs,
    ⟨by rw [h.inner], by rw [h.inner], h.global⟩⟩

/-- Printing a line changes nothing else. -/
lemma console (h : m₁.UpToGlobals m₂) (l : List String) :
    m₁.UpToGlobals { m₂ with console := l } :=
  ⟨h.cursor, h.endian, h.depth, h.patterns, h.spliced, h.inputs, h.outputs, h.inner, h.global⟩

end UpToGlobals

namespace UpToVisible

@[refl, simp] lemma refl (m : Machine) : m.UpToVisible m :=
  ⟨rfl, rfl, rfl, rfl, rfl, rfl, rfl, .refl _⟩

lemma trans (h₁ : m₁.UpToVisible m₂) (h₂ : m₂.UpToVisible m₃) : m₁.UpToVisible m₃ :=
  ⟨h₂.cursor.trans h₁.cursor, h₂.endian.trans h₁.endian, h₂.depth.trans h₁.depth,
    h₂.patterns.trans h₁.patterns, h₂.spliced.trans h₁.spliced, h₂.inputs.trans h₁.inputs,
    h₂.outputs.trans h₁.outputs, h₁.scope.trans h₂.scope⟩

/-- Counting a step changes nothing else. -/
lemma steps (h : m₁.UpToVisible m₂) (n : Nat) : m₁.UpToVisible { m₂ with steps := n } :=
  ⟨h.cursor, h.endian, h.depth, h.patterns, h.spliced, h.inputs, h.outputs, h.scope⟩

/-- Changing the scope by a change a function body may make. -/
lemma scope_step (h : m₁.UpToVisible m₂) {s : Scope} (hs : m₂.scope.UpToVisible s) :
    m₁.UpToVisible { m₂ with scope := s } :=
  ⟨h.cursor, h.endian, h.depth, h.patterns, h.spliced, h.inputs, h.outputs, h.scope.trans hs⟩

lemma sameLayout (h : m₁.UpToVisible m₂) : m₁.SameLayout m₂ :=
  ⟨h.cursor, h.endian, h.patterns, h.spliced, h.scope.layout_eq⟩

end UpToVisible

namespace SameLayout

@[refl, simp] lemma refl (m : Machine) : m.SameLayout m := ⟨rfl, rfl, rfl, rfl, rfl⟩

lemma trans (h₁ : m₁.SameLayout m₂) (h₂ : m₂.SameLayout m₃) : m₁.SameLayout m₃ :=
  ⟨h₂.cursor.trans h₁.cursor, h₂.endian.trans h₁.endian,
    h₂.patterns.trans h₁.patterns, h₂.spliced.trans h₁.spliced, h₂.scope.trans h₁.scope⟩

lemma iff {m m' : Machine} :
    m.SameLayout m' ↔ m'.cursor = m.cursor ∧ m'.endian = m.endian ∧
      m'.patterns = m.patterns ∧ m'.spliced = m.spliced ∧ m'.scope.layout = m.scope.layout :=
  ⟨fun h => ⟨h.cursor, h.endian, h.patterns, h.spliced, h.scope⟩,
    fun h => ⟨h.1, h.2.1, h.2.2.1, h.2.2.2.1, h.2.2.2.2⟩⟩

end SameLayout

end Machine

namespace Eval

variable {α : Type}

/-- A computation each of whose runs, successful or not, changes only the global variables,
the printed lines and the step count. -/
def OnlyGlobals (x : Eval α) : Prop :=
  ∀ c m, WpAll x c m (fun _ m' => m.UpToGlobals m') fun _ m' => m.UpToGlobals m'

/-- A computation each of whose runs, successful or not, changes only the variables a
function body sees, the printed lines and the step count. -/
def OnlyVisible (x : Eval α) : Prop :=
  ∀ c m, WpAll x c m (fun _ m' => m.UpToVisible m') fun _ m' => m.UpToVisible m'

/-- A computation whose successful runs keep the layout. -/
def KeepsLayout (x : Eval α) : Prop :=
  ∀ c m, Wp x c m fun _ m' => m.SameLayout m'

variable {x : Eval α} {c : Context} {m₀ m : Machine} {P : α → Machine → Prop}
  {E : EvalError → Machine → Prop}

/-- A run of `x` continues a run that changed only the global variables, however it ends. -/
lemma OnlyGlobals.all (hx : OnlyGlobals x) (h₀ : m₀.UpToGlobals m)
    (k : ∀ a m', m₀.UpToGlobals m' → P a m') (kE : ∀ e m', m₀.UpToGlobals m' → E e m') :
    WpAll x c m P E :=
  (hx c m).mono (fun a m' h => k a m' (h₀.trans h)) fun e m' h => kE e m' (h₀.trans h)

lemma OnlyGlobals.visible (hx : OnlyGlobals x) : OnlyVisible x :=
  fun c m => (hx c m).mono (fun _ _ h => h.visible) fun _ _ h => h.visible

lemma OnlyVisible.all (hx : OnlyVisible x) (h₀ : m₀.UpToVisible m)
    (k : ∀ a m', m₀.UpToVisible m' → P a m') (kE : ∀ e m', m₀.UpToVisible m' → E e m') :
    WpAll x c m P E :=
  (hx c m).mono (fun a m' h => k a m' (h₀.trans h)) fun e m' h => kE e m' (h₀.trans h)

lemma OnlyVisible.keepsLayout (hx : OnlyVisible x) : KeepsLayout x :=
  fun c m => (hx c m).1.mono fun _ _ h => h.sameLayout

lemma KeepsLayout.wp (hx : KeepsLayout x) (h₀ : m₀.SameLayout m)
    (k : ∀ a m', m₀.SameLayout m' → P a m') : Wp x c m P :=
  (hx c m).mono fun a m' h => k a m' (h₀.trans h)

end Eval

open Eval

/-! ### Built-in functions -/

lemma Intrinsic.checkArity_same (name : String) (a : Intrinsic.Arity) (args : List Value)
    (c : Context) (m : Machine) :
    WpAll (Intrinsic.checkArity name a args) c m (fun _ m' => m' = m) fun _ m' => m' = m := by
  unfold Intrinsic.checkArity
  split <;> simp

lemma Intrinsic.readRaw_same (name : String) (args : List Value) (c : Context) (m : Machine) :
    WpAll (Intrinsic.readRaw name args) c m (fun _ m' => m' = m) fun _ m' => m' = m := by
  simp only [Intrinsic.readRaw, wpAll_bind]
  refine (Intrinsic.checkArity_same _ _ _ c m).mono (fun _ m₁ h₁ => ?_) fun _ _ h => h
  subst h₁
  simp only [wpAll_lift, wpAll_ite, wpAll_fault, wpAll_bind, implies_true, and_true, true_and]
  intro a _ _ b _ _
  -- the byte order selector: absent, or given as the third argument
  rcases args[2]? with _ | v
  · simp
  · simp only [wpAll_bind, wpAll_lift, implies_true, and_true]
    intro sel _
    rcases sel with _ | _ | _ | n <;> simp

lemma Intrinsic.mem_table {name : String} {g : List Value → Eval (Option Value)}
    (h : Intrinsic.lookup? name = some g) : (name, g) ∈ Intrinsic.table := by
  obtain ⟨l₁, l₂, hl, -⟩ := List.lookup_eq_some_iff.mp h
  rw [hl]
  simp

/-- Built-in functions print, read the data and fail; the printed lines are all they
change, and a failed call changes nothing. -/
lemma Intrinsic.onlyConsole {name : String} {g : List Value → Eval (Option Value)}
    (h : Intrinsic.lookup? name = some g) (args : List Value) (c : Context) (m : Machine) :
    WpAll (g args) c m (fun _ m' => m' = { m with console := m'.console })
      fun _ m' => m' = { m with console := m'.console } := by
  have hmem := Intrinsic.mem_table h
  simp only [Intrinsic.table, List.mem_cons, Prod.mk.injEq, List.not_mem_nil, or_false] at hmem
  -- a run that left the state as it was
  have same : ∀ m', m' = m → m' = { m with console := m'.console } := by
    rintro _ rfl
    rfl
  rcases hmem with ⟨-, rfl⟩ | ⟨-, rfl⟩ | ⟨-, rfl⟩ | ⟨-, rfl⟩ |
    ⟨-, rfl⟩ | ⟨-, rfl⟩ | ⟨-, rfl⟩
  · simp only [Intrinsic.print, wpAll_bind]
    refine (Intrinsic.checkArity_same _ _ _ c m).mono (fun _ m₁ h₁ => ?_) fun _ m₁ h₁ => same m₁ h₁
    subst h₁
    unfold Intrinsic.renderArgs
    split <;> simp
  · simp only [Intrinsic.format, wpAll_bind]
    refine (Intrinsic.checkArity_same _ _ _ c m).mono (fun _ m₁ h₁ => ?_) fun _ m₁ h₁ => same m₁ h₁
    subst h₁
    unfold Intrinsic.renderArgs
    split <;> simp
  · simp only [Intrinsic.check, wpAll_bind]
    refine (Intrinsic.checkArity_same _ _ _ c m).mono (fun _ m₁ h₁ => ?_) fun _ m₁ h₁ => same m₁ h₁
    subst h₁
    split <;> simp
  · simp only [Intrinsic.memSize, wpAll_bind]
    exact (Intrinsic.checkArity_same _ _ _ c m).mono (fun _ m₁ h₁ => by simp [h₁])
      fun _ m₁ h₁ => same m₁ h₁
  · simp only [Intrinsic.memEof, wpAll_bind]
    exact (Intrinsic.checkArity_same _ _ _ c m).mono (fun _ m₁ h₁ => by simp [h₁])
      fun _ m₁ h₁ => same m₁ h₁
  · simp only [Intrinsic.readUnsigned, wpAll_bind]
    exact (Intrinsic.readRaw_same _ _ c m).mono (fun _ m₁ h₁ => by simp [h₁])
      fun _ m₁ h₁ => same m₁ h₁
  · simp only [Intrinsic.readSigned, wpAll_bind]
    exact (Intrinsic.readRaw_same _ _ c m).mono (fun _ m₁ h₁ => by simp [h₁])
      fun _ m₁ h₁ => same m₁ h₁

lemma Intrinsic.onlyGlobals {name : String} {g : List Value → Eval (Option Value)}
    (h : Intrinsic.lookup? name = some g) (args : List Value) : OnlyGlobals (g args) := by
  intro c m
  -- a change of the printed lines alone
  have hcon : ∀ m', m' = { m with console := m'.console } → m.UpToGlobals m' := by
    intro m' h'
    rw [h']
    exact (Machine.UpToGlobals.refl m).console _
  exact (Intrinsic.onlyConsole h args c m).mono (fun _ m' h' => hcon m' h') fun _ m' h' => hcon m' h'

/-- A local is defined in the innermost frame, which a function body sees. -/
lemma declareLocal_onlyVisible (name : String) (ty : TypeDecl) :
    OnlyVisible (declareLocal name ty) := by
  intro c m
  unfold declareLocal
  split
  · simp
  · simp only [wpAll_modifyScope]
    exact (Machine.UpToVisible.refl m).scope_step (Scope.upToVisible_define _ _ _)

/-- The frame lemma for each function of the expression evaluator at one fuel: expressions,
paths, enum entries and calls change only the global variables, the printed lines and the
step count; the statements and loops of function bodies may also change the variables the
body sees. Each holds of every run, successful or not. -/
structure ExprUpToGlobals (fuel : Nat) : Prop where
  evalExpr : ∀ e, OnlyGlobals (evalExpr fuel e)
  resolvePath : ∀ segs, OnlyGlobals (resolvePath fuel segs)
  scopeMember : ∀ ty member, OnlyGlobals (scopeMember fuel ty member)
  enumEntries : ∀ u es, OnlyGlobals (enumEntries fuel u es)
  callFunction : ∀ name ns args, OnlyGlobals (callFunction fuel name ns args)
  callUser : ∀ f args, OnlyGlobals (callUser fuel f args)
  execBlock : ∀ ss, OnlyVisible (execBlock fuel ss)
  execStmt : ∀ s, OnlyVisible (execStmt fuel s)
  runLoop : ∀ cnd body post, OnlyVisible (runLoop fuel cnd body post)
  execExprStmt : ∀ e, OnlyGlobals (execExprStmt fuel e)

variable {fuel : Nat}

/-! ### The expression evaluator, one function at a time -/

lemma evalExpr_onlyGlobals (ih : ExprUpToGlobals fuel) (e : Expr) :
    OnlyGlobals (evalExpr (fuel + 1) e) := by
  intro c m
  cases e with
  | lit v sp => simp [evalExpr]
  | path segs sp =>
    simp only [evalExpr, wpAll_withLine, wpAll_bind]
    refine (ih.resolvePath segs).all (.refl m) (fun r m₁ h₁ => ?_) fun _ _ h => h
    cases r <;> simp [h₁]
  | cursor sp => simp [evalExpr]
  | unary op x sp =>
    simp only [evalExpr, wpAll_withLine, wpAll_bind, wpAll_lift]
    exact (ih.evalExpr x).all (.refl m) (fun _ _ h₁ => ⟨fun _ _ => h₁, fun _ _ => h₁⟩)
      fun _ _ h => h
  | binary op l r sp =>
    cases op
    case logAnd | logOr =>
      simp only [evalExpr, wpAll_withLine, wpAll_bind, wpAll_truth, wpAll_ite, wpAll_pure]
      refine (ih.evalExpr l).all (.refl m) (fun a m₁ h₁ => ⟨fun b _ => ?_, fun _ _ => h₁⟩)
        fun _ _ h => h
      refine ⟨fun _ => h₁, fun _ => ?_⟩
      exact (ih.evalExpr r).all h₁ (fun _ _ h₂ => ⟨fun _ _ => h₂, fun _ _ => h₂⟩) fun _ _ h => h
    all_goals
      simp only [evalExpr, wpAll_withLine, wpAll_bind, wpAll_lift]
      refine (ih.evalExpr l).all (.refl m) (fun a m₁ h₁ => ?_) fun _ _ h => h
      exact (ih.evalExpr r).all h₁ (fun _ _ h₂ => ⟨fun _ _ => h₂, fun _ _ => h₂⟩) fun _ _ h => h
  | ternary cnd t f sp =>
    simp only [evalExpr, wpAll_withLine, wpAll_bind, wpAll_truth, wpAll_ite]
    refine (ih.evalExpr _).all (.refl m) (fun a m₁ h₁ => ⟨fun b _ =>
      ⟨fun _ => (ih.evalExpr _).all h₁ (fun _ _ h => h) fun _ _ h => h,
        fun _ => (ih.evalExpr _).all h₁ (fun _ _ h => h) fun _ _ h => h⟩, fun _ _ => h₁⟩)
      fun _ _ h => h
  | cast ty en x sp =>
    simp only [evalExpr, wpAll_withLine, wpAll_bind, wpAll_lift]
    exact (ih.evalExpr x).all (.refl m) (fun _ _ h₁ => ⟨fun _ _ => h₁, fun _ _ => h₁⟩)
      fun _ _ h => h
  | scope ty member sp =>
    simp only [evalExpr, wpAll_withLine]
    exact ih.scopeMember ty member c m
  | call name ns args sp =>
    simp only [evalExpr, wpAll_withLine, wpAll_bind]
    refine (ih.callFunction name ns args).all (.refl m) (fun r m₁ h₁ => ?_) fun _ _ h => h
    cases r <;> simp [h₁]
  | addressOf segs sp =>
    simp only [evalExpr, wpAll_withLine, wpAll_bind, wpAll_toNode, wpAll_pure]
    exact (ih.resolvePath segs).all (.refl m) (fun _ _ h₁ => ⟨fun _ _ => h₁, fun _ _ => h₁⟩)
      fun _ _ h => h
  | sizeOfPath segs sp =>
    simp only [evalExpr, wpAll_withLine, wpAll_bind, wpAll_toNode, wpAll_pure]
    exact (ih.resolvePath segs).all (.refl m) (fun _ _ h₁ => ⟨fun _ _ => h₁, fun _ _ => h₁⟩)
      fun _ _ h => h
  | sizeOfType ty sp =>
    simp only [evalExpr, wpAll_withLine]
    split <;> simp

lemma resolvePath_onlyGlobals (ih : ExprUpToGlobals fuel) (segs : List PathSeg) :
    OnlyGlobals (resolvePath (fuel + 1) segs) := by
  intro c m
  simp only [resolvePath, wpAll_bind, wpAll_get, wpAll_lift]
  refine (wpAll_mapM segs _ (fun m' => m.UpToGlobals m') _ ?_ m (.refl m)).mono
    (fun _ _ h₁ => ⟨fun _ _ => h₁, fun _ _ => h₁⟩) fun _ _ h => h
  intro seg _ m₁ h₁
  cases seg with
  | index e =>
    simp only [wpAll_bind, wpAll_lift, wpAll_pure]
    exact (ih.evalExpr e).all h₁ (fun _ _ h => ⟨fun _ _ => h, fun _ _ => h⟩) fun _ _ h => h
  | _ => simpa using h₁

lemma enumEntries_onlyGlobals (ih : ExprUpToGlobals fuel) (u : Builtin)
    (es : List EnumEntry) : OnlyGlobals (enumEntries (fuel + 1) u es) := by
  intro c m
  simp only [enumEntries]
  refine wpAll_mapM es _ (fun m' => m.UpToGlobals m') _ ?_ m (.refl m)
  intro entry _ m₁ h₁
  simp only [wpAll_bind, wpAll_lift, wpAll_pure]
  exact (ih.evalExpr entry.value).all h₁
    (fun _ _ h => ⟨fun _ _ => ⟨fun _ _ => h, fun _ _ => h⟩, fun _ _ => h⟩) fun _ _ h => h

lemma scopeMember_onlyGlobals (ih : ExprUpToGlobals fuel) (ty : TypeDecl)
    (member : String) : OnlyGlobals (scopeMember (fuel + 1) ty member) := by
  intro c m
  simp only [scopeMember, wpAll_bind, wpAll_read, wpAll_lift]
  refine ⟨fun decl _ => ?_, fun _ _ => .refl m⟩
  split
  · simp only [wpAll_bind]
    refine (ih.enumEntries _ _).all (.refl m) (fun t m₁ h₁ => ?_) fun _ _ h => h
    split <;> simp [h₁]
  · simp

lemma callFunction_onlyGlobals (ih : ExprUpToGlobals fuel) (name ns : String)
    (args : List Expr) : OnlyGlobals (callFunction (fuel + 1) name ns args) := by
  intro c m
  simp only [callFunction, wpAll_bind, wpAll_read]
  refine (wpAll_mapM args _ (fun m' => m.UpToGlobals m') _
    (fun a _ m₁ h₁ => (ih.evalExpr a).all h₁ (fun _ _ h => h) fun _ _ h => h) m (.refl m)).mono
    (fun values m₁ h₁ => ?_) fun _ _ h => h
  split
  · exact (ih.callUser _ _).all h₁ (fun _ _ h => h) fun _ _ h => h
  · split
    · rename_i g hg
      -- the built-in is found by its name as written or qualified by the namespace
      obtain ⟨q, hq⟩ : ∃ q, Intrinsic.lookup? q = some g := by
        rcases Option.or_eq_some_iff.mp hg with h | ⟨-, h⟩
        · exact ⟨_, h⟩
        · obtain ⟨q, -, hq⟩ := Option.bind_eq_some_iff.mp h
          exact ⟨q, hq⟩
      exact (Intrinsic.onlyGlobals hq values).all h₁ (fun _ _ h => h) fun _ _ h => h
    · simpa using h₁

lemma callUser_onlyGlobals (ih : ExprUpToGlobals fuel) (f : FunctionDef) (args : List Value) :
    OnlyGlobals (callUser (fuel + 1) f args) := by
  intro c m
  simp only [callUser, wpAll_bind, wpAll_ite, wpAll_fault, wpAll_enter, wpAll_pushFrame,
    wpAll_attempt, wpAll_popFrame, wpAll_leave, wpAll_ofExcept_ok, wpAll_ofExcept_error]
  refine ⟨fun _ => .refl m, fun _ => ⟨fun _ => .refl m, fun _ => ?_⟩⟩
  -- inside the call: the function frame is on top of the caller's frames
  let m₂ : Machine := { m with depth := m.depth + 1, scope := m.scope.push .function m.cursor "" }
  -- however the body ends, popping the frame gives back the caller's frames, and leaving
  -- the depth it had
  have close : ∀ m₄, m₂.UpToVisible m₄ →
      m.UpToGlobals { m₄ with scope := m₄.scope.pop.2, depth := m₄.depth - 1 } := by
    intro m₄ h₄
    obtain ⟨hinner, hglobal⟩ := Scope.UpToVisible.pop_of_push h₄.scope
    have hdepth : m₄.depth - 1 = m.depth := by rw [h₄.depth]; simp [m₂]
    exact ⟨h₄.cursor, h₄.endian, hdepth, h₄.patterns, h₄.spliced, h₄.inputs, h₄.outputs, hinner,
      hglobal⟩
  refine (wpAll_forM (f.params.zip args) _ (fun m' => m₂.UpToVisible m')
    (fun _ m' => m₂.UpToVisible m') ?_ m₂ (.refl m₂)).mono
    (fun _ m₃ h₃ => ?_) fun _ m₃ h₃ => by simp [close m₃ h₃]
  · intro pv _ m' h'
    split <;> simp only [wpAll_bind, wpAll_lift, wpAll_pure, wpAll_modifyScope]
    all_goals try exact h'.scope_step (Scope.upToVisible_define _ _ _)
    exact ⟨fun _ _ => h'.scope_step (Scope.upToVisible_define _ _ _), fun _ _ => h'⟩
  · refine (ih.execBlock f.body).all h₃ (fun flow m₄ h₄ => ?_) fun _ m₄ h₄ => by
      simp [close m₄ h₄]
    cases flow <;> simp [close m₄ h₄]

lemma execBlock_onlyVisible (ih : ExprUpToGlobals fuel) (ss : List Stmt) :
    OnlyVisible (execBlock (fuel + 1) ss) := by
  intro c m
  cases ss with
  | nil => simp [execBlock]
  | cons s rest =>
    simp only [execBlock, wpAll_bind]
    refine (ih.execStmt s).all (.refl m) (fun flow m₁ h₁ => ?_) fun _ _ h => h
    split
    · exact (ih.execBlock rest).all h₁ (fun _ _ h => h) fun _ _ h => h
    · simpa using h₁

lemma execExprStmt_onlyGlobals (ih : ExprUpToGlobals fuel) (e : Expr) :
    OnlyGlobals (execExprStmt (fuel + 1) e) := by
  intro c m
  simp only [execExprStmt]
  split
  · simp only [wpAll_withLine, wpAll_bind, wpAll_pure]
    exact (ih.callFunction _ _ _).all (.refl m) (fun _ _ h => h) fun _ _ h => h
  · simp only [wpAll_bind, wpAll_pure]
    exact (ih.evalExpr e).all (.refl m) (fun _ _ h => h) fun _ _ h => h

lemma execStmt_onlyVisible (ih : ExprUpToGlobals fuel) (s : Stmt) :
    OnlyVisible (execStmt (fuel + 1) s) := by
  intro c m
  -- the step counter is all that `tick` changes
  have h₀ : m.UpToVisible { m with steps := m.steps + 1 } := (Machine.UpToVisible.refl m).steps _
  simp only [execStmt, wpAll_withLine, wpAll_bind, wpAll_tick]
  refine ⟨fun _ => h₀, fun _ => ?_⟩
  cases s with
  | var name ty _ _ _ =>
    simp only [wpAll_bind, wpAll_pure]
    exact (declareLocal_onlyVisible name ty).all h₀ (fun _ _ h => h) fun _ _ h => h
  | multi names ty _ =>
    simp only [wpAll_bind, wpAll_pure]
    exact (wpAll_forM names _ (fun m' => m.UpToVisible m') _
      (fun n _ m' h' => (declareLocal_onlyVisible n ty).all h' (fun _ _ h => h) fun _ _ h => h)
      _ h₀).mono (fun _ _ h => h) fun _ _ h => h
  | assign name value _ =>
    simp only [wpAll_bind, wpAll_get, wpAll_lift, wpAll_modify, wpAll_pure]
    exact (ih.evalExpr value).visible.all h₀ (fun v m₁ h₁ =>
      ⟨fun scope hs => h₁.scope_step (Scope.upToVisible_of_assign hs), fun _ _ => h₁⟩)
      fun _ _ h => h
  | ifElse cnd t e _ =>
    simp only [wpAll_bind, wpAll_truth, wpAll_ite]
    exact (ih.evalExpr cnd).visible.all h₀ (fun v m₁ h₁ => ⟨fun b _ =>
      ⟨fun _ => (ih.execBlock t).all h₁ (fun _ _ h => h) fun _ _ h => h,
        fun _ => (ih.execBlock e).all h₁ (fun _ _ h => h) fun _ _ h => h⟩, fun _ _ => h₁⟩)
      fun _ _ h => h
  | whileLoop cnd body post _ =>
    exact (ih.runLoop cnd body post).all h₀ (fun _ _ h => h) fun _ _ h => h
  | compound stmts _ => exact (ih.execBlock stmts).all h₀ (fun _ _ h => h) fun _ _ h => h
  | returnWith v _ =>
    cases v with
    | none => simpa using h₀
    | some e =>
      simp only [wpAll_bind, wpAll_pure]
      exact (ih.evalExpr e).visible.all h₀ (fun _ _ h => h) fun _ _ h => h
  | exprStmt e _ =>
    simp only [wpAll_bind, wpAll_pure]
    exact (ih.execExprStmt e).visible.all h₀ (fun _ _ h => h) fun _ _ h => h
  | breakLoop _ | continueLoop _ => simpa using h₀
  | array _ _ _ _ _ _ | pointer _ _ _ _ _ _ _ | padding _ _ | typeDef _ _ | function _ _ _ _ =>
    simpa using h₀

lemma runLoop_onlyVisible (ih : ExprUpToGlobals fuel) (cnd : Expr) (body : List Stmt)
    (post : Option Stmt) : OnlyVisible (runLoop (fuel + 1) cnd body post) := by
  intro c m
  have h₀ : m.UpToVisible { m with steps := m.steps + 1 } := (Machine.UpToVisible.refl m).steps _
  simp only [runLoop, wpAll_bind, wpAll_tick, wpAll_truth, wpAll_ite]
  refine ⟨fun _ => h₀, fun _ => ?_⟩
  refine (ih.evalExpr cnd).visible.all h₀ (fun v m₁ h₁ =>
    ⟨fun b _ => ⟨fun _ => by simpa using h₁, fun _ => ?_⟩, fun _ _ => h₁⟩) fun _ _ h => h
  refine (ih.execBlock body).all h₁ (fun flow m₂ h₂ => ?_) fun _ _ h => h
  -- after an iteration that neither breaks nor returns, the step statement and the next
  -- iteration run
  have hnext : ∀ m₃, m.UpToVisible m₃ →
      WpAll (runLoop fuel cnd body post) c m₃ (fun _ m' => m.UpToVisible m')
        fun _ m' => m.UpToVisible m' :=
    fun m₃ h₃ => (ih.runLoop cnd body post).all h₃ (fun _ _ h => h) fun _ _ h => h
  cases flow with
  | brk | ret _ => simpa using h₂
  | normal | cont =>
    cases post with
    | none => simpa using hnext m₂ h₂
    | some p =>
      simp only [wpAll_bind]
      exact (ih.execStmt p).all h₂ (fun _ m₃ h₃ => hnext m₃ h₃) fun _ _ h => h

/-- **Expressions change only the global variables.** Evaluating an expression, resolving a
path, computing an enum's entries or calling a function, at any fuel, leaves the cursor, the
inherited byte order, the recursion depth, the node count, the host variables and every frame
but the global frame's variables as they were; a function body may also change the
variables of the frames it sees.

**Proof sketch.** Induction on the fuel, one lemma per function of the evaluator. Nothing
these functions call moves the cursor or builds a node. A call enters a level, pushes a
function frame and binds its parameters there; its body defines locals in that frame and
assigns only to the frames down to it and to the global frame, which leaves the frames under
it alone (`Scope.hiddenFrames`). Popping the frame and leaving the level restore the rest,
and the call does both before it passes a failure of its body on. -/
theorem exprUpToGlobals (fuel : Nat) : ExprUpToGlobals fuel := by
  induction fuel with
  | zero =>
    constructor <;> intros <;> intro c m <;>
      simp [evalExpr, resolvePath, scopeMember, enumEntries, callFunction, callUser, execBlock,
        execStmt, runLoop, execExprStmt]
  | succ fuel ih =>
    exact ⟨evalExpr_onlyGlobals ih, resolvePath_onlyGlobals ih, scopeMember_onlyGlobals ih,
      enumEntries_onlyGlobals ih, callFunction_onlyGlobals ih, callUser_onlyGlobals ih,
      execBlock_onlyVisible ih, execStmt_onlyVisible ih, runLoop_onlyVisible ih,
      execExprStmt_onlyGlobals ih⟩

/-- **Expressions cannot disturb the structure being built.** Every evaluation of an
expression, with its calls of functions and built-in functions, its enum entries and its
paths, whether it returns a value or fails, ends in a state that differs from the state it
started in at most in the variables of the global frame, the printed lines and the step count: the cursor, the inherited byte order,
the recursion depth, the node count, the host variables and every other part of the frames
are as they were. -/
theorem evalExpr_changes_only_globals (fuel : Nat) (e : Expr) (c : Context) (m : Machine) :
    WpAll (evalExpr fuel e) c m (fun _ m' => m.UpToGlobals m') fun _ m' => m.UpToGlobals m' :=
  (exprUpToGlobals fuel).evalExpr e c m

/-- The frame lemma in terms of the layout, for each function of the expression evaluator at
one fuel. -/
structure ExprKeepsLayout (fuel : Nat) : Prop where
  evalExpr : ∀ e, KeepsLayout (evalExpr fuel e)
  resolvePath : ∀ segs, KeepsLayout (resolvePath fuel segs)
  scopeMember : ∀ ty member, KeepsLayout (scopeMember fuel ty member)
  enumEntries : ∀ u es, KeepsLayout (enumEntries fuel u es)
  callFunction : ∀ name ns args, KeepsLayout (callFunction fuel name ns args)
  callUser : ∀ f args, KeepsLayout (callUser fuel f args)
  execBlock : ∀ ss, KeepsLayout (execBlock fuel ss)
  execStmt : ∀ s, KeepsLayout (execStmt fuel s)
  runLoop : ∀ cnd body post, KeepsLayout (runLoop fuel cnd body post)
  execExprStmt : ∀ e, KeepsLayout (execExprStmt fuel e)

/-- **Expressions keep the layout**: the cursor, the inherited byte order, the node count and
the nodes of every frame. -/
theorem exprKeepsLayout (fuel : Nat) : ExprKeepsLayout fuel :=
  have h := exprUpToGlobals fuel
  ⟨fun e => (h.evalExpr e).visible.keepsLayout,
    fun segs => (h.resolvePath segs).visible.keepsLayout,
    fun ty member => (h.scopeMember ty member).visible.keepsLayout,
    fun u es => (h.enumEntries u es).visible.keepsLayout,
    fun name ns args => (h.callFunction name ns args).visible.keepsLayout,
    fun f args => (h.callUser f args).visible.keepsLayout,
    fun ss => (h.execBlock ss).keepsLayout, fun s => (h.execStmt s).keepsLayout,
    fun cnd body post => (h.runLoop cnd body post).keepsLayout,
    fun e => (h.execExprStmt e).visible.keepsLayout⟩

end ByteLayout

import Mathlib
import ByteLayout.Proofs.Eval.Invariant
import ByteLayout.Proofs.Layout.Parsed

set_option autoImplicit false

/-!
# Typed variables

Every variable the evaluator keeps holds a value of the builtin type it was declared with:
a host variable, a parameter and a local start at the zero of their type or at a value cast
to it, and an assignment casts the value to the variable's type before it stores it, in
whichever frame the variable lives. So every frame of every state a run reaches is typed
(`Scope.Typed`), and in particular the `out` variables a run reports lie in the ranges of
their types.

## Main definitions

* `Frame.Typed`, `Scope.Typed` — every variable of a frame, or of every frame, is typed.

## Main results

* `Scope.Typed.assign` — an assignment keeps the frames typed.
* `variables_stay_typed` — every function of the evaluator keeps the frames typed, and the
  `out` variables of every run hold values of their types.
-/

namespace ByteLayout

namespace Frame

/-- Every variable of the frame holds a value of its declared type. -/
def Typed (f : Frame) : Prop := ∀ p ∈ f.vars, p.2.Typed

lemma typed_empty (k : FrameKind) (st : Nat) (tn : String) : (Frame.empty k st tn).Typed := by
  simp [Typed, empty]

lemma Typed.define {f : Frame} (hf : f.Typed) (name : String) {v : Variable} (hv : v.Typed) :
    (f.define name v).Typed := by
  intro p hp
  simp only [Frame.define, List.mem_cons, List.mem_filter] at hp
  rcases hp with rfl | ⟨hp, -⟩
  · exact hv
  · exact hf p hp

/-- The variable a frame finds by its name is one of its variables. -/
lemma Typed.findVar {f : Frame} (hf : f.Typed) {name : String} {x : Variable}
    (h : f.findVar name = some x) : x.Typed := by
  obtain ⟨l₁, l₂, hl, -⟩ := List.lookup_eq_some_iff.mp h
  exact hf (name, x) (by rw [hl]; simp)

end Frame

namespace Scope

/-- Every variable of every frame holds a value of its declared type. -/
def Typed (s : Scope) : Prop := (∀ f ∈ s.inner, f.Typed) ∧ s.global.Typed

variable {s : Scope}

lemma typed_initial : Scope.initial.Typed :=
  ⟨by simp [initial], Frame.typed_empty _ _ _⟩

lemma Typed.push (h : s.Typed) (k : FrameKind) (st : Nat) (tn : String) :
    (s.push k st tn).Typed := by
  refine ⟨fun f hf => ?_, h.2⟩
  rcases List.mem_cons.mp hf with rfl | hf
  · exact Frame.typed_empty _ _ _
  · exact h.1 f hf

lemma Typed.pop (h : s.Typed) : s.pop.2.Typed := by
  rcases s with ⟨_ | ⟨f, fs⟩, g⟩
  · exact h
  · exact ⟨fun f' hf' => h.1 f' (List.mem_cons_of_mem _ hf'), h.2⟩

lemma Typed.modifyCurrent (h : s.Typed) {g : Frame → Frame} (hg : ∀ f, f.Typed → (g f).Typed) :
    (s.modifyCurrent g).Typed := by
  rcases s with ⟨_ | ⟨f, fs⟩, gl⟩
  · exact ⟨h.1, hg _ h.2⟩
  · refine ⟨fun f' hf' => ?_, h.2⟩
    rcases List.mem_cons.mp hf' with rfl | hf'
    · exact hg f (h.1 f (by simp))
    · exact h.1 f' (List.mem_cons_of_mem _ hf')

/-- Nodes added to a frame leave its variables alone. -/
lemma Typed.extendMembers (h : s.Typed) (ns : List Node) : (s.extendMembers ns).Typed :=
  h.modifyCurrent fun _ hf => hf

lemma Typed.define (h : s.Typed) (name : String) {v : Variable} (hv : v.Typed) :
    (s.define name v).Typed :=
  h.modifyCurrent fun _ hf => hf.define name hv

lemma Typed.defineGlobal (h : s.Typed) (name : String) {v : Variable} (hv : v.Typed) :
    { s with global := s.global.define name v }.Typed :=
  ⟨h.1, h.2.define name hv⟩

/-- The frames a lookup visits are frames of the scope. -/
lemma mem_visibleInner {fs : List Frame} {f : Frame} (h : f ∈ visibleInner fs) : f ∈ fs := by
  induction fs with
  | nil => simp [visibleInner] at h
  | cons f' fs ih =>
    simp only [visibleInner] at h
    split at h
    · simp_all
    · rcases List.mem_cons.mp h with rfl | h
      · simp
      · exact List.mem_cons_of_mem _ (ih h)

lemma Typed.findVar (h : s.Typed) {name : String} {x : Variable} (hx : s.findVar name = some x) :
    x.Typed := by
  obtain ⟨f, hf, hfx⟩ := List.exists_of_findSome?_eq_some hx
  simp only [visible, List.mem_append, List.mem_singleton] at hf
  rcases hf with hf | rfl
  · exact (h.1 f (mem_visibleInner hf)).findVar hfx
  · exact h.2.findVar hfx

lemma typed_setVariable_go (name : String) {v : Variable} (hv : v.Typed) {fs fs' : List Frame}
    (hfs : ∀ f ∈ fs, f.Typed) (h : setVariable.go name v fs = some fs') : ∀ f ∈ fs', f.Typed := by
  induction fs generalizing fs' with
  | nil => simp [setVariable.go] at h
  | cons f fs ih =>
    simp only [setVariable.go] at h
    split at h
    · -- the frame that defines the variable is the one changed
      cases h
      intro f' hf'
      rcases List.mem_cons.mp hf' with rfl | hf'
      · exact (hfs f (by simp)).define name hv
      · exact hfs f' (List.mem_cons_of_mem _ hf')
    · split at h
      · cases h
      · obtain ⟨fs'', h', rfl⟩ := Option.map_eq_some_iff.mp h
        intro f' hf'
        rcases List.mem_cons.mp hf' with rfl | hf'
        · exact hfs f' (by simp)
        · exact ih (fun f hf => hfs f (List.mem_cons_of_mem _ hf)) h' f' hf'

lemma Typed.setVariable (h : s.Typed) (name : String) {v : Variable} (hv : v.Typed) :
    (s.setVariable name v).Typed := by
  unfold Scope.setVariable
  split
  · rename_i inner hgo
    exact ⟨typed_setVariable_go name hv h.1 hgo, h.2⟩
  · exact h.defineGlobal name hv

/-- **Assignments keep the frames typed.** The value is cast to the declared type of the
variable it is assigned to, in the variable's byte order, before it is stored. -/
lemma Typed.assign (h : s.Typed) {s' : Scope} {name : String} {value : Value}
    (ha : s.assign name value = .ok s') : s'.Typed := by
  unfold Scope.assign at ha
  split at ha
  · cases ha
  · rename_i var hvar
    simp only [bind, Except.bind, pure, Except.pure] at ha
    split at ha
    · split at ha
      · cases ha
      · rename_i t ht _ cast hcast
        cases ha
        exact h.setVariable name fun t' ht' => by
          cases ht.symm.trans ht'
          exact Value.hasType_cast hcast
    · rename_i hty
      cases ha
      exact h.setVariable name fun t ht => absurd ht (by simp [hty])

end Scope

open Eval

/-- A run keeps the frames typed. -/
def Machine.StaysTyped (_ : Context) (m₀ m : Machine) : Prop := m₀.scope.Typed → m.scope.Typed

/-- Every change the evaluator makes to its state keeps the frames typed. -/
lemma Machine.staysTyped_invariant : Invariant Machine.StaysTyped where
  refl := id
  trans h₁ h₂ := h₂ ∘ h₁
  frame h _ hs _ := fun h₀ => hs ▸ h h₀
  inData h _ := h
  away h := h
  farthest _ h := h
  endian h := h
  push h := fun h₀ => (h h₀).push _ _ _
  pop h := fun h₀ => (h h₀).pop
  extend h := fun h₀ => (h h₀).extendMembers _
  define h hv := fun h₀ => (h h₀).define _ hv
  assign h ha := fun h₀ => (h h₀).assign ha
  host h hv := fun h₀ => (h h₀).defineGlobal _ hv

/-- The final state of a successful run, from which its report is read. -/
lemma runProgram_final {p : Program} {data : ByteArray} {config : RunConfig}
    {inputs : List (String × Value)} {ev : Evaluation} {Q : Machine → Prop}
    (hw : Wp (buildProgram Eval.fuel p) (Context.of p data config) (Machine.initial inputs)
      fun _ m' => Q m')
    (h : runProgram p data config inputs = .ok ev) :
    ∃ m', Q m' ∧ ev.outVariables = m'.outVariables := by
  obtain ⟨ns, m', hrun, rfl⟩ := runProgram_eq_ok.mp h
  exact ⟨m', hw ns m' hrun, rfl⟩

/-- The `out` variables of a state with typed frames hold values of their declared types. -/
lemma Machine.outVariables_typed {m : Machine} (h : m.scope.Typed) :
    ∀ nv ∈ m.outVariables, ∃ x : Variable, m.scope.global.findVar nv.1 = some x ∧
      x.value = nv.2 ∧ x.Typed := by
  intro nv hnv
  simp only [Machine.outVariables, List.mem_filterMap, Option.map_eq_some_iff] at hnv
  obtain ⟨name, -, x, hx, rfl⟩ := hnv
  exact ⟨x, hx, rfl, h.2.findVar hx⟩

/-- **Typed variables always hold values of their type.** Every function of the evaluator, at
every fuel, keeps every variable of every frame holding a value of its declared builtin type
(`Value.HasType`: an unsigned integer below `2 ^ (8 * n)`, a signed one in
`[-2 ^ (8 * n - 1), 2 ^ (8 * n - 1))`, a character below `2 ^ 8` or `2 ^ 16`, a boolean, a
string or a float); and every `out` variable a successful run reports is read from a final
state whose frames are typed, from a variable holding a value of its declared type.

**Proof sketch.** Typed frames are an invariant of the evaluator's changes of state
(`Machine.staysTyped_invariant`): zeros and casts are typed (`Value.hasType_zero`,
`Value.hasType_cast`), and an assignment casts before it stores (`Scope.Typed.assign`). The
run starts with no variables. -/
theorem variables_stay_typed :
    (∀ fuel, KeptAt Machine.StaysTyped fuel) ∧
    ∀ {p : Program} {data : ByteArray} {config : RunConfig} {inputs : List (String × Value)}
      {ev : Evaluation}, runProgram p data config inputs = .ok ev →
      ∃ m' : Machine, m'.scope.Typed ∧ ev.outVariables = m'.outVariables ∧
        ∀ nv ∈ ev.outVariables, ∃ x : Variable, m'.scope.global.findVar nv.1 = some x ∧
          x.value = nv.2 ∧ x.Typed := by
  refine ⟨Machine.staysTyped_invariant.keptAt, fun {p data config inputs ev} h => ?_⟩
  -- the members of the program are built one after the other from the initial state
  have hw : Wp (buildProgram Eval.fuel p) (Context.of p data config) (Machine.initial inputs)
      fun _ m' => m'.scope.Typed := by
    unfold buildProgram
    simp only [wp_bind, wp_get, wp_pure]
    exact wp_forM p.stmts _ (fun m => m.scope.Typed)
      (fun s _ m hm => ((Machine.staysTyped_invariant.keptAt _).buildMember s _ m).1.mono
        fun _ _ h => h hm) _ Scope.typed_initial
  obtain ⟨m', hm', hout⟩ := runProgram_final hw h
  exact ⟨m', hm', hout, hout ▸ Machine.outVariables_typed hm'⟩

/-- `u8 y out;` -/
def tokensOutByte : Array Token := #[
  tokenAt (.builtin (.unsigned .w8)) 0 2, tokenAt (.ident "y") 3 4, tokenAt (.keyword "out") 5 8,
  tokenAt (.symbol ";") 8 9, tokenAt .eof 9 9]

/-- The `out` variable of `u8 y out;` is reported from a typed final state. -/
theorem variables_stay_typed_out :
    ∃ p, parseTokens tokensOutByte = .ok p ∧
      ∃ ev, runProgram p ByteArray.empty RunConfig.standard [] = .ok ev ∧
        ∃ m' : Machine, m'.scope.Typed ∧ ev.outVariables = m'.outVariables ∧
          ∀ nv ∈ ev.outVariables, ∃ x : Variable, m'.scope.global.findVar nv.1 = some x ∧
            x.value = nv.2 ∧ x.Typed :=
  have h := Except.eq_ok_get (by decide +kernel)
  ⟨_, Except.eq_ok_get (by decide +kernel), _, h, variables_stay_typed.2 h⟩

end ByteLayout

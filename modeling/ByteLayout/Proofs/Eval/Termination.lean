import Mathlib
import ByteLayout.Proofs.Eval.InPlace
import ByteLayout.Proofs.Eval.Shallow
import ByteLayout.Proofs.Syntax.Descent

set_option autoImplicit false

/-!
# Evaluation ends within its step budget

Every function of the evaluator takes a fuel argument and gives up with `outOfFuel` when it
runs out, one unit per nested call. The program's own limit on steps is what ends a run: a
step is counted at each member built, each element of an array, each statement of a function
body and each iteration of a loop. This file shows that with a step limit set, enough fuel
always exists, so that a run of a parsed program ends on its own, with a result or with a
fault of its own, and never because the fuel ran out (`evaluation_terminates`). The one
exception is an enum entry that reads its own enum through a forward reference
(`Program.SelfScopedEnum`): evaluating it evaluates it again, and nothing counts a step.

## Main definitions

* `Program.Layered` — a well-formed program whose registry is read in order and in which no
  enum reads itself.
* `Context.cost` — the fuel the steps left in a state are worth, at one span per step.
* `Eval.Ends`, `Eval.Counts` — runs that end without running out of fuel and spend at most,
  or strictly less than, the cost of the state they start from.
* `Eval.Enough` — every function of the evaluator at one fuel, given its rank plus the cost.

## Main results

* `Eval.enough` — every function of the evaluator at every fuel.
* `evaluation_terminates` — a run of a parsed program with a step limit, given enough fuel,
  never runs out of it.

## Design

Between two steps the evaluator only goes down the syntax it was given, or jumps into the
registry to an earlier entry (`Program.below_entry`). So a computation gets a rank: the
registry level `L` it stays below, weighted by a width `W` larger than eight times any piece,
plus eight times the size of its piece, plus a small offset per function
(`rank W L s o = W * L + 8 * s + o`). Each nested call that counts no step has a smaller rank;
after a step, any rank up to a span `W * (n + 1)` may follow, since the step lowers the budget
and so the cost by one span. A function started with its rank plus the cost of its state in
fuel therefore never runs out (`Eval.Enough`), by induction on the fuel, one step lemma per
function. The costs are carried in the postconditions (`Eval.Ends`), so that the arithmetic
of each step is linear.
-/

namespace ByteLayout

open Eval Relation

/-- A program in which every way back up the syntax comes down again: it is well formed, its
registry is read in order, and no enum reads itself. -/
structure Program.Layered (p : Program) : Prop where
  wellFormed : p.WellFormed
  ordered : Parse.Ordered p.types
  noSelfScope : ¬ p.SelfScopedEnum

/-- A parsed program in which no enum reads itself is layered. -/
lemma Program.layered_of_parse {tokens : Array Token} {p : Program}
    (h : parseTokens tokens = .ok p) (hself : ¬ p.SelfScopedEnum) : p.Layered :=
  ⟨(parseTokens_wellFormed h).2, parseTokens_ordered h, hself⟩

/-- The statements of a program, in any place. -/
def Program.HasStmt (p : Program) (s : Stmt) : Prop := ∃ k, p.Holds (.stmt k s)

namespace Program

variable {p : Program}

/-- The statements of a function the program defines are statements of the program. -/
lemma hasStmt_of_mem_collectFunctions (ss : List Stmt) (hss : ∀ s ∈ ss, p.HasStmt s)
    {f : FunctionDef} (hf : f ∈ collectFunctions ss) : ∀ s ∈ f.body, p.HasStmt s := by
  revert hss hf
  fun_induction collectFunctions ss with
  | case1 => exact fun _ hf => absurd hf List.not_mem_nil
  | case2 name params body sp rest ih =>
    intro hss hf
    rcases List.mem_cons.mp hf with rfl | hf
    · obtain ⟨k, hk⟩ := hss _ List.mem_cons_self
      exact fun s hs => ⟨.body, hk.child (.functionBody hs)⟩
    · exact ih (fun s hs => hss s (List.mem_cons_of_mem _ hs)) hf
  | case3 inner sp rest ihi ihr =>
    intro hss hf
    rcases List.mem_append.mp hf with hf | hf
    · obtain ⟨k, hk⟩ := hss _ List.mem_cons_self
      exact ihi (fun s hs => ⟨k, hk.child (.compound hs)⟩) hf
    · exact ihr (fun s hs => hss s (List.mem_cons_of_mem _ hs)) hf
  | case4 s rest _ _ ih => exact fun hss => ih fun s hs => hss s (List.mem_cons_of_mem _ hs)

namespace Layered

variable (hl : p.Layered)
include hl

/-- A piece of a layered program is grounded in its whole registry. -/
lemma grounded {x : Spot} (hx : p.Has x) : p.Grounded p.types.length x :=
  hl.wellFormed.grounded hx

/-- A forward reference to one of the first `L` entries of the registry jumps to an entry
grounded at its own, smaller, index. -/
lemma forward {L : Nat} {q : String} (hq : q ∈ (p.types.take L).map Prod.fst) {D : TypeDecl}
    (hD : p.typeNamed? q = some D) :
    ∃ i < L, p.Grounded i (.built D) ∧ p.Grounded i (.named D) := by
  obtain ⟨i, hi, hiL, he⟩ := lookup_lt_of_mem_take hq hD
  obtain ⟨hb, hn⟩ := grounded_entry hl.wellFormed hl.ordered hl.noSelfScope hi
  rw [he] at hb hn
  exact ⟨i, hiL, hb, hn⟩

end Layered

/-- A plain type is where following aliases ends. -/
lemma followAliases_plain {p : Program} {D : TypeDecl}
    (hD : D.body.Plain) {F : Nat} (hF : 0 < F) : p.followAliases F D = .ok D := by
  obtain ⟨F, rfl⟩ : ∃ F', F = F' + 1 := ⟨F - 1, by omega⟩
  unfold Program.followAliases
  split
  · rename_i h
    rw [h] at hD
    exact hD.elim
  · rename_i h
    rw [h] at hD
    exact hD.elim
  · rfl

end Program

/-! ### Costs and ranks -/

/-- The fuel the steps a run may still count after `steps` of them are worth, at `span` units
of fuel a step. -/
def Context.cost (c : Context) (span steps : Nat) : Nat :=
  span * (c.config.maxSteps - steps)

/-- With a step limit set, a counted step lowers the cost by one span. -/
lemma Context.cost_tick {c : Context} {span steps : Nat} (hmax : 0 < c.config.maxSteps)
    (h : ¬(0 < c.config.maxSteps ∧ c.config.maxSteps < steps + 1)) :
    c.cost span (steps + 1) + span = c.cost span steps := by
  obtain ⟨k, hk⟩ : ∃ k, c.config.maxSteps - steps = k + 1 :=
    ⟨c.config.maxSteps - steps - 1, by omega⟩
  simp only [Context.cost]
  rw [hk, show c.config.maxSteps - (steps + 1) = k by omega, Nat.mul_succ]

/-- The fuel a step is worth for a program: a width `W` for each level of its registry and
one more. -/
def Program.span (p : Program) (W : Nat) : Nat := W * (p.types.length + 1)

lemma Program.le_span (p : Program) (W : Nat) : W ≤ p.span W :=
  Nat.le_mul_of_pos_right W (Nat.succ_pos _)

namespace Eval

variable {α : Type}

/-- A run of `x` from `m` that never runs out of fuel and ends in a state that costs no more
than `m`. -/
def Ends (x : Eval α) (c : Context) (span : Nat) (m : Machine) : Prop :=
  Shallow x c m fun _ m' => c.cost span m'.steps ≤ c.cost span m.steps

/-- A run of `x` from `m` that never runs out of fuel and counts at least one step. -/
def Counts (x : Eval α) (c : Context) (span : Nat) (m : Machine) : Prop :=
  Shallow x c m fun _ m' => c.cost span m'.steps + span ≤ c.cost span m.steps

/-- A computation that keeps the step counter ends where it started. -/
lemma Ends.of_steps {x : Eval α} {c : Context} {span : Nat} {m : Machine}
    (h : Shallow x c m fun _ m' => m'.steps = m.steps) : Ends x c span m :=
  h.mono fun _ _ h => by rw [h]

section Loops

variable {β γ : Type} {c : Context} {S : Nat} {m : Machine}

/-- A loop ends when every round ends from any state that costs no more than the start. -/
lemma ends_forM {l : List γ} {f : γ → Eval PUnit}
    (h : ∀ a ∈ l, ∀ m', c.cost S m'.steps ≤ c.cost S m.steps → Ends (f a) c S m') :
    Ends (l.forM f) c S m :=
  shallow_forM l f (fun m' => c.cost S m'.steps ≤ c.cost S m.steps)
    (fun a ha m' hm' => (h a ha m' hm').mono fun _ _ h' => h'.trans hm') m le_rfl

lemma ends_mapM {l : List γ} {f : γ → Eval β}
    (h : ∀ a ∈ l, ∀ m', c.cost S m'.steps ≤ c.cost S m.steps → Ends (f a) c S m') :
    Ends (l.mapM f) c S m :=
  shallow_mapM l f (fun m' => c.cost S m'.steps ≤ c.cost S m.steps)
    (fun a ha m' hm' => (h a ha m' hm').mono fun _ _ h' => h'.trans hm') m le_rfl

lemma ends_foldlM {l : List γ} {f : β → γ → Eval β} {b : β}
    (h : ∀ a ∈ l, ∀ b' m', c.cost S m'.steps ≤ c.cost S m.steps →
      Ends (f b' a) c S m') :
    Ends (l.foldlM f b) c S m :=
  shallow_foldlM l f (fun _ m' => c.cost S m'.steps ≤ c.cost S m.steps)
    (fun a ha b' m' hm' => (h a ha b' m' hm').mono fun _ _ h' => h'.trans hm') b m le_rfl

end Loops

/-- The rank of a computation on a piece of size `s`, below level `L` of the registry at
width `W`, with offset `o`. -/
def rank (W L s o : Nat) : Nat := W * L + 8 * s + o

/-- A jump to a lower level lowers the rank, whatever piece it starts from. -/
lemma rank_lt_of_level_lt {W i L s o s' o' : Nat} (hi : i < L) (hs : 8 * s + o < W) :
    rank W i s o < rank W L s' o' := by
  have h := Nat.mul_le_mul_left W (Nat.succ_le_of_lt hi)
  rw [Nat.mul_succ] at h
  unfold rank
  omega

/-- A rank below the top level of a registry of `n` entries is less than a span. -/
lemma rank_lt_span {W L n s o : Nat} (hL : L ≤ n) (hs : 8 * s + o < W) :
    rank W L s o < W * (n + 1) := by
  have h := Nat.mul_le_mul_left W hL
  rw [Nat.mul_succ]
  unfold rank
  omega

/-- A run of the program `p` under `c` with width `W`: the program is layered, the context is
the program's, a step limit is set, and a level is wider than eight times the program. -/
structure Setting (p : Program) (c : Context) (W : Nat) : Prop where
  layered : p.Layered
  context : c.Of p
  limited : 0 < c.config.maxSteps
  wide : 8 * sizeOf p + 16 ≤ W

section Setting

variable {p : Program} {c : Context} {W : Nat} (hs : Setting p c W)
include hs

/-- The rank of a piece of the program, below the top level, is less than a span, with room
for the few steps a build takes before it reaches the piece. -/
lemma Setting.rank_add_le_span {L s o : Nat} (hL : L ≤ p.types.length) (hsz : s < sizeOf p)
    (ho : o ≤ 8) : rank W L s o + 8 ≤ p.span W := by
  have := Eval.rank_lt_span (W := W) (s := s) (o := o + 8) hL (by have := hs.wide; omega)
  unfold rank Program.span at *
  omega

lemma Setting.sixteen_le_span : 16 ≤ p.span W := by
  have := hs.wide
  have := p.le_span W
  omega

/-- A counted step lowers the cost by one span. -/
lemma Setting.tick {m : Machine} {P : Unit → Machine → Prop}
    (h : ∀ m', c.cost (p.span W) m'.steps + p.span W = c.cost (p.span W) m.steps → P () m') :
    Shallow tick c m P := by
  rw [shallow_tick]
  exact fun ht => h _ (Context.cost_tick hs.limited ht)

end Setting

/-! ### Following aliases -/

/-- Following the aliases and forward references of a type that `Type::member` reads, with the
fuel its rank leaves, never runs out of fuel, and an enum it ends at has entries grounded no
higher, with a smaller rank. -/
lemma followAliases_enum {p : Program} {W : Nat} (hl : p.Layered) (hW : 8 * sizeOf p + 16 ≤ W)
    (F : Nat) : ∀ {L : Nat} {ty : TypeDecl}, L ≤ p.types.length → p.Grounded L (.named ty) →
      W * L + sizeOf ty < F →
      FuelFree (p.followAliases F ty) ∧
        ∀ D u es, p.followAliases F ty = .ok D → D.body = .enum u es →
          ∃ L' ≤ L, (∀ en ∈ es, p.Grounded L' (.expr en.value)) ∧
            rank W L' (sizeOf es) 4 < rank W L (sizeOf ty) 4 := by
  induction F with
  | zero => intro _ _ _ _ h; omega
  | succ F ih =>
    intro L ty hL hty hF
    have hbody := ty.sizeOf_body_lt
    unfold Program.followAliases
    split
    · -- an alias: its target is smaller and grounded at the same level
      rename_i inner h
      have hsz : sizeOf inner < sizeOf ty := by rw [h] at hbody; simp at hbody; omega
      obtain ⟨hfree, hok⟩ := ih hL (hty.next (.target h)) (by omega)
      refine ⟨hfree, fun D u es hD hu => ?_⟩
      obtain ⟨L', hL', hes, hr⟩ := hok D u es hD hu
      exact ⟨L', hL', hes, by unfold rank at hr ⊢; omega⟩
    · -- a forward reference: an earlier entry, or a plain type at which the scope fails
      rename_i q h
      rcases hty.2.self q h with hq | hplain
      · cases hD : p.typeNamed? q with
        | none => simp
        | some D =>
          obtain ⟨i, hi, -, hD'⟩ := hl.forward hq hD
          have hsz : sizeOf D < sizeOf p := Program.Has.sizeOf_type_lt hD'.1
          have hiW := Nat.mul_le_mul_left W (Nat.succ_le_of_lt hi)
          rw [Nat.mul_succ] at hiW
          obtain ⟨hfree, hok⟩ := ih (by omega) hD' (by omega)
          refine ⟨hfree, fun D' u es hD'' hu => ?_⟩
          obtain ⟨L', hL', hes, hr⟩ := hok D' u es hD'' hu
          have hlt : rank W i (sizeOf D) 4 < rank W L (sizeOf ty) 4 :=
            rank_lt_of_level_lt hi (by omega)
          exact ⟨L', by omega, hes, hr.trans hlt⟩
      · cases hD : p.typeNamed? q with
        | none => simp
        | some D =>
          have hp := hplain D hD
          dsimp only
          rw [Program.followAliases_plain hp (by omega)]
          refine ⟨by simp, fun D' u es hD'' hu => ?_⟩
          cases hD''
          rw [hu] at hp
          exact hp.elim
    · -- any other type ends the walk; an enum's entries are below it
      refine ⟨by simp, fun D u es hD hu => ?_⟩
      cases hD
      have hsz : sizeOf es < sizeOf ty := by rw [hu] at hbody; simp at hbody; omega
      exact ⟨L, le_rfl, fun en hen => hty.next (.entry hu hen), by unfold rank; omega⟩

/-! ### Every function of the evaluator -/

/-- Every function of the evaluator at fuel `F` ends without running out of fuel when it is
started on pieces of the program `p` with its rank plus the cost of its state at most `F`. A
function that goes down types and expressions gets the registry level `L` its piece is
grounded at; a function that runs only right after a step gets up to a span. The functions
that count a step first lower the cost. -/
structure Enough (p : Program) (c : Context) (W F : Nat) : Prop where
  evalExpr {L : Nat} {e : Expr} {m : Machine} : L ≤ p.types.length → p.Grounded L (.expr e) →
    rank W L (sizeOf e) 4 + c.cost (p.span W) m.steps ≤ F → Ends (evalExpr F e) c (p.span W) m
  resolvePath {L : Nat} {segs : List PathSeg} {m : Machine} : L ≤ p.types.length →
    (∀ i, .index i ∈ segs → p.Grounded L (.expr i)) →
    rank W L (sizeOf segs) 4 + c.cost (p.span W) m.steps ≤ F →
    Ends (resolvePath F segs) c (p.span W) m
  scopeMember {L : Nat} {ty : TypeDecl} {member : String} {m : Machine} : L ≤ p.types.length →
    p.Grounded L (.named ty) → rank W L (sizeOf ty) 4 + c.cost (p.span W) m.steps ≤ F →
    Ends (scopeMember F ty member) c (p.span W) m
  enumEntries {L : Nat} {u : Builtin} {es : List EnumEntry} {m : Machine} :
    L ≤ p.types.length → (∀ en ∈ es, p.Grounded L (.expr en.value)) →
    rank W L (sizeOf es) 4 + c.cost (p.span W) m.steps ≤ F → Ends (enumEntries F u es) c (p.span W) m
  callFunction {L : Nat} {name ns : String} {args : List Expr} {m : Machine} :
    L ≤ p.types.length → (∀ a ∈ args, p.Grounded L (.expr a)) →
    rank W L (sizeOf args) 4 + c.cost (p.span W) m.steps ≤ F →
    Ends (callFunction F name ns args) c (p.span W) m
  callUser {f : FunctionDef} {args : List Value} {m : Machine} : f ∈ collectFunctions p.stmts →
    3 + c.cost (p.span W) m.steps ≤ F → Ends (callUser F f args) c (p.span W) m
  execBlock {ss : List Stmt} {m : Machine} : (∀ s ∈ ss, p.HasStmt s) →
    2 + c.cost (p.span W) m.steps ≤ F → Ends (execBlock F ss) c (p.span W) m
  execStmt {s : Stmt} {m : Machine} : p.HasStmt s → 1 + c.cost (p.span W) m.steps ≤ F →
    Counts (execStmt F s) c (p.span W) m
  runLoop {cnd : Expr} {body : List Stmt} {post : Option Stmt} {m : Machine} :
    p.Has (.expr cnd) → (∀ s ∈ body, p.HasStmt s) → (∀ s, post = some s → p.HasStmt s) →
    1 + c.cost (p.span W) m.steps ≤ F → Ends (runLoop F cnd body post) c (p.span W) m
  execExprStmt {e : Expr} {m : Machine} : p.Has (.expr e) →
    p.span W + c.cost (p.span W) m.steps ≤ F → Ends (execExprStmt F e) c (p.span W) m
  buildMember {s : Stmt} {m : Machine} : p.HasStmt s → 1 + c.cost (p.span W) m.steps ≤ F →
    Ends (buildMember F s) c (p.span W) m
  buildVar {name : String} {ty : TypeDecl} {pl : Placement} {attrs : List Attribute}
    {m : Machine} : p.Has (.built ty) → (∀ e, pl = .atOffset e → p.Has (.expr e)) →
    p.span W + c.cost (p.span W) m.steps ≤ F → Ends (buildVar F name ty pl attrs) c (p.span W) m
  buildType {L : Nat} {ty : TypeDecl} {name : String} {m : Machine} : L ≤ p.types.length →
    p.Grounded L (.built ty) → rank W L (sizeOf ty) 7 + c.cost (p.span W) m.steps ≤ F →
    Ends (buildType F ty name) c (p.span W) m
  buildBody {L : Nat} {ty : TypeDecl} {name : String} {m : Machine} : L ≤ p.types.length →
    p.Grounded L (.built ty) → rank W L (sizeOf ty) 6 + c.cost (p.span W) m.steps ≤ F →
    Ends (buildBody F ty name) c (p.span W) m
  buildStruct {L : Nat} {bases : List TypeDecl} {members : List Stmt} {name tn : String}
    {m : Machine} : L ≤ p.types.length → (∀ b ∈ bases, p.Grounded L (.built b)) →
    (∀ s ∈ members, p.HasStmt s) → rank W L (sizeOf bases) 6 + c.cost (p.span W) m.steps ≤ F →
    Ends (buildStruct F bases members name tn) c (p.span W) m
  buildUnion {members : List Stmt} {name tn : String} {m : Machine} :
    (∀ s ∈ members, p.HasStmt s) → 2 + c.cost (p.span W) m.steps ≤ F →
    Ends (buildUnion F members name tn) c (p.span W) m
  buildEnum {L : Nat} {u : Builtin} {es : List EnumEntry} {name tn : String} {m : Machine} :
    L ≤ p.types.length → (∀ en ∈ es, p.Grounded L (.expr en.value)) →
    rank W L (sizeOf es) 5 + c.cost (p.span W) m.steps ≤ F →
    Ends (buildEnum F u es name tn) c (p.span W) m
  buildBitfield {L : Nat} {es : List BitfieldEntry} {name tn : String} {m : Machine} :
    L ≤ p.types.length → (∀ en ∈ es, p.Grounded L (.expr en.width)) →
    rank W L (sizeOf es) 5 + c.cost (p.span W) m.steps ≤ F →
    Ends (buildBitfield F es name tn) c (p.span W) m
  buildArray {name : String} {ty : TypeDecl} {size : ArraySize} {m : Machine} :
    p.Has (.built ty) → (∀ e, size = .fixed e ∨ size = .whileCond e → p.Has (.expr e)) →
    p.span W + c.cost (p.span W) m.steps ≤ F → Ends (buildArray F name ty size) c (p.span W) m
  buildElement {ty : TypeDecl} {i : Nat} {m : Machine} : p.Has (.built ty) →
    1 + c.cost (p.span W) m.steps ≤ F → Counts (buildElement F ty i) c (p.span W) m
  fixedElements {ty : TypeDecl} {i k : Nat} {acc : List Node} {m : Machine} :
    p.Has (.built ty) → 2 + c.cost (p.span W) m.steps ≤ F →
    Ends (fixedElements F ty i k acc) c (p.span W) m
  whileElements {ty : TypeDecl} {cnd : Expr} {count : Nat} {acc : List Node} {m : Machine} :
    p.Has (.built ty) → p.Has (.expr cnd) →
    rank W p.types.length (sizeOf cnd) 5 + c.cost (p.span W) m.steps ≤ F →
    Ends (whileElements F ty cnd count acc) c (p.span W) m
  unsizedElements {ty : TypeDecl} {count : Nat} {acc : List Node} {m : Machine} :
    p.Has (.built ty) → 2 + c.cost (p.span W) m.steps ≤ F →
    Ends (unsizedElements F ty count acc) c (p.span W) m
  buildString {name : String} {ty : TypeDecl} {size : ArraySize} {unit : Nat} {m : Machine} :
    (∀ e, size = .fixed e ∨ size = .whileCond e → p.Has (.expr e)) →
    p.span W - 1 + c.cost (p.span W) m.steps ≤ F →
    Ends (buildString F name ty size unit) c (p.span W) m
  whileChars {cnd : Expr} {start unit : Nat} {m : Machine} : p.Has (.expr cnd) →
    rank W p.types.length (sizeOf cnd) 5 + c.cost (p.span W) m.steps ≤ F →
    Ends (whileChars F cnd start unit) c (p.span W) m
  unsizedChars {unit : Nat} {m : Machine} : 1 + c.cost (p.span W) m.steps ≤ F →
    Ends (unsizedChars F unit) c (p.span W) m
  buildPointer {name : String} {target : TypeDecl} {addrType : Builtin}
    {addrEndian : Option Endian} {attrs : List Attribute} {m : Machine} :
    p.Has (.built target) → p.span W + c.cost (p.span W) m.steps ≤ F →
    Ends (buildPointer F name target addrType addrEndian attrs) c (p.span W) m

/-- A nested call at the same level on a smaller piece, from a state that costs no more. -/
lemma rank_le_of_lt {W L F s s' o o' k k' : Nat} (hF : rank W L s o + k ≤ F + 1)
    (hlt : 8 * s' + o' < 8 * s + o) (hk : k' ≤ k) : rank W L s' o' + k' ≤ F := by
  unfold rank at *
  omega

section Steps

variable {p : Program} {c : Context} {W F : Nat}

/-- Fuel zero is enough, since no function asks for it: every rank is positive. -/
lemma enough_zero (hs : Setting p c W) : Enough p c W 0 := by
  have := hs.sixteen_le_span
  constructor <;> intros <;> (try unfold rank at *) <;> omega

/-! #### Expressions -/

lemma evalExpr_ends (ih : Enough p c W F) {L : Nat} {e : Expr} {m : Machine}
    (hL : L ≤ p.types.length) (he : p.Grounded L (.expr e))
    (hF : rank W L (sizeOf e) 4 + c.cost (p.span W) m.steps ≤ F + 1) :
    Ends (evalExpr (F + 1) e) c (p.span W) m := by
  -- a part of the expression is evaluated within the rank of the whole, from any state that
  -- costs no more
  have part : ∀ {e'}, Piece.Child (.expr e) (.expr e') → ∀ {m'},
      c.cost (p.span W) m'.steps ≤ c.cost (p.span W) m.steps → Ends (evalExpr F e') c (p.span W) m' :=
    fun hc _ hm => ih.evalExpr hL (he.next (.sub hc))
      (rank_le_of_lt hF (by have := hc.sizeOf_lt; simp at this; omega) hm)
  unfold Ends
  cases e with
  | lit v sp => simp [evalExpr]
  | path segs sp =>
    simp only [evalExpr, shallow_withLine, shallow_bind]
    refine (ih.resolvePath hL (fun i hi => he.next (.sub (.pathIndex hi)))
      (rank_le_of_lt hF (by simp; omega) le_rfl)).mono fun r m₁ h₁ => ?_
    cases r <;> simp [h₁]
  | cursor sp => simp [evalExpr]
  | unary op x sp =>
    simp only [evalExpr, shallow_withLine, shallow_bind, shallow_lift, Value.unary_fuelFree,
      true_and]
    exact (part .unary le_rfl).mono fun _ m₁ h₁ _ _ => h₁
  | binary op l r sp =>
    cases op
    case logAnd | logOr =>
      simp only [evalExpr, shallow_withLine, shallow_bind, shallow_truth, shallow_ite,
        shallow_pure]
      -- the right operand is evaluated only when the left one does not decide
      exact (part .binaryLeft le_rfl).mono fun _ m₁ h₁ _ _ =>
        ⟨fun _ => h₁, fun _ => (part .binaryRight h₁).mono fun _ _ h₂ _ _ => h₂.trans h₁⟩
    all_goals
      simp only [evalExpr, shallow_withLine, shallow_bind, shallow_lift, Value.binary_fuelFree,
        true_and]
      exact (part .binaryLeft le_rfl).mono fun _ m₁ h₁ =>
        (part .binaryRight h₁).mono fun _ m₂ h₂ _ _ => h₂.trans h₁
  | ternary cnd t f sp =>
    simp only [evalExpr, shallow_withLine, shallow_bind, shallow_truth, shallow_ite]
    exact (part .ternaryCond le_rfl).mono fun _ m₁ h₁ _ _ =>
      ⟨fun _ => (part .ternaryThen h₁).mono fun _ _ h₂ => h₂.trans h₁,
        fun _ => (part .ternaryElse h₁).mono fun _ _ h₂ => h₂.trans h₁⟩
  | cast ty en x sp =>
    simp only [evalExpr, shallow_withLine, shallow_bind, shallow_lift, Value.cast_fuelFree,
      true_and]
    exact (part .cast le_rfl).mono fun _ m₁ h₁ _ _ => h₁
  | scope ty member sp =>
    simp only [evalExpr, shallow_withLine]
    exact ih.scopeMember hL (he.next .scope) (rank_le_of_lt hF (by simp; omega) le_rfl)
  | call name ns args sp =>
    simp only [evalExpr, shallow_withLine, shallow_bind]
    refine (ih.callFunction hL (fun a ha => he.next (.sub (.callArg ha)))
      (rank_le_of_lt hF (by simp; omega) le_rfl)).mono fun r m₁ h₁ => ?_
    cases r <;> simp [h₁]
  | addressOf segs sp =>
    simp only [evalExpr, shallow_withLine, shallow_bind, shallow_toNode, shallow_pure]
    exact (ih.resolvePath hL (fun i hi => he.next (.sub (.addressOfIndex hi)))
      (rank_le_of_lt hF (by simp; omega) le_rfl)).mono fun _ _ h₁ _ _ => h₁
  | sizeOfPath segs sp =>
    simp only [evalExpr, shallow_withLine, shallow_bind, shallow_toNode, shallow_pure]
    exact (ih.resolvePath hL (fun i hi => he.next (.sub (.sizeOfIndex hi)))
      (rank_le_of_lt hF (by simp; omega) le_rfl)).mono fun _ _ h₁ _ _ => h₁
  | sizeOfType ty sp =>
    simp only [evalExpr, shallow_withLine]
    split <;> simp

lemma resolvePath_ends (ih : Enough p c W F) {L : Nat} {segs : List PathSeg} {m : Machine}
    (hL : L ≤ p.types.length) (hsegs : ∀ i, .index i ∈ segs → p.Grounded L (.expr i))
    (hF : rank W L (sizeOf segs) 4 + c.cost (p.span W) m.steps ≤ F + 1) :
    Ends (resolvePath (F + 1) segs) c (p.span W) m := by
  unfold Ends
  simp only [resolvePath, shallow_bind, shallow_get, shallow_lift, Scope.resolve_fuelFree,
    true_and]
  refine (ends_mapM fun seg hseg m' hm' => ?_).mono fun _ m₁ h₁ _ _ => h₁
  unfold Ends
  cases seg with
  | index e =>
    simp only [shallow_bind, shallow_lift, Value.toUnsigned_fuelFree, true_and, shallow_pure]
    have hsz := List.sizeOf_lt_of_mem hseg
    simp only [PathSeg.index.sizeOf_spec] at hsz
    exact (ih.evalExpr hL (hsegs e hseg) (rank_le_of_lt hF (by omega) hm')).mono
      fun _ _ h _ _ => h
  | _ => simp

lemma scopeMember_ends (hs : Setting p c W) (ih : Enough p c W F) {L : Nat} {ty : TypeDecl}
    {member : String} {m : Machine} (hL : L ≤ p.types.length) (hty : p.Grounded L (.named ty))
    (hF : rank W L (sizeOf ty) 4 + c.cost (p.span W) m.steps ≤ F + 1) :
    Ends (scopeMember (F + 1) ty member) c (p.span W) m := by
  unfold Ends
  simp only [scopeMember, shallow_bind, shallow_read, shallow_lift, hs.context.program]
  -- the aliases are followed with the fuel the rank leaves, to an enum of smaller rank
  obtain ⟨hfree, hok⟩ := followAliases_enum hs.layered hs.wide F hL hty
    (by unfold rank at hF; omega)
  refine ⟨hfree, fun D hD => ?_⟩
  split
  · rename_i u es hu
    obtain ⟨L', hL', hes, hr⟩ := hok D u es hD hu
    simp only [shallow_bind]
    refine (ih.enumEntries (hL'.trans hL) hes (by unfold rank at hr hF ⊢; omega)).mono
      fun t m₁ h₁ => ?_
    split <;> simp [h₁]
  · simp

lemma enumEntries_ends (ih : Enough p c W F) {L : Nat} {u : Builtin} {es : List EnumEntry}
    {m : Machine} (hL : L ≤ p.types.length) (hes : ∀ en ∈ es, p.Grounded L (.expr en.value))
    (hF : rank W L (sizeOf es) 4 + c.cost (p.span W) m.steps ≤ F + 1) :
    Ends (enumEntries (F + 1) u es) c (p.span W) m := by
  unfold Ends
  simp only [enumEntries]
  refine ends_mapM fun en hen m' hm' => ?_
  unfold Ends
  simp only [shallow_bind, shallow_lift, Value.cast_fuelFree, Value.toUnsigned_fuelFree, true_and,
    shallow_pure]
  have h₁ := List.sizeOf_lt_of_mem hen
  have h₂ : sizeOf en.value < sizeOf en := by cases en; simp
  exact (ih.evalExpr hL (hes en hen) (rank_le_of_lt hF (by omega) hm')).mono
    fun _ _ h _ _ _ _ => h

lemma callFunction_ends (hs : Setting p c W) (ih : Enough p c W F) {L : Nat}
    {name ns : String} {args : List Expr} {m : Machine} (hL : L ≤ p.types.length)
    (hargs : ∀ a ∈ args, p.Grounded L (.expr a))
    (hF : rank W L (sizeOf args) 4 + c.cost (p.span W) m.steps ≤ F + 1) :
    Ends (callFunction (F + 1) name ns args) c (p.span W) m := by
  unfold Ends
  simp only [callFunction, shallow_bind, shallow_read]
  refine (ends_mapM fun a ha m' hm' => ih.evalExpr hL (hargs a ha)
    (rank_le_of_lt hF (by have := List.sizeOf_lt_of_mem ha; omega) hm')).mono
      fun values m₁ h₁ => ?_
  split
  · -- a function of the program
    rename_i f hf
    exact (ih.callUser (hs.context.mem_function_or hf) (by unfold rank at hF; omega)).mono
      fun _ _ h => h.trans h₁
  · split
    · -- a built-in function, which counts no step
      rename_i g hg
      obtain ⟨q, hq⟩ := Intrinsic.exists_lookup_of_or hg
      exact (Intrinsic.shallow hq values c m₁).mono
        fun _ _ h => h ▸ h₁
    · simp

/-! #### Function bodies -/

/-- An expression of the program, evaluated by a computation that may take a span. -/
lemma evalExpr_of_has (hs : Setting p c W) (ih : Enough p c W F) {e : Expr} (he : p.Has (.expr e))
    {m : Machine} (hF : p.span W + c.cost (p.span W) m.steps ≤ F + 1) :
    Ends (evalExpr F e) c (p.span W) m :=
  ih.evalExpr le_rfl (hs.layered.grounded he)
    (by have := hs.rank_add_le_span le_rfl he.sizeOf_expr_lt (o := 4) (by omega); omega)

lemma callUser_ends (ih : Enough p c W F) {f : FunctionDef}
    {args : List Value} {m : Machine} (hf : f ∈ collectFunctions p.stmts)
    (hF : 3 + c.cost (p.span W) m.steps ≤ F + 1) : Ends (callUser (F + 1) f args) c (p.span W) m := by
  have hbody := Program.hasStmt_of_mem_collectFunctions p.stmts
    (fun s hmem => ⟨.top, Program.Holds.stmt hmem⟩) hf
  unfold Ends
  simp only [callUser, shallow_bind, shallow_ite, shallow_fault, shallow_enter, shallow_pushFrame]
  refine ⟨fun _ => by simp, fun _ _ => ?_⟩
  -- the frame is closed and the call left on either outcome of the body
  refine Shallow.attempt (Q := fun _ m₃ => c.cost (p.span W) m₃.steps ≤ c.cost (p.span W) m.steps)
    ?_ (fun flow m₃ h₃ => ?_) fun e _ he => by simp [he]
  · -- the parameters are defined in the call's own frame, counting no step
    rw [shallow_bind]
    refine (shallow_forM (f.params.zip args) _
      (fun m' => c.cost (p.span W) m'.steps ≤ c.cost (p.span W) m.steps) (fun pv _ m' hm' => ?_) _
      ?_).mono fun _ m₂ h₂ => ?_
    · split <;> simp only [shallow_bind, shallow_lift, shallow_pure, shallow_modifyScope,
        Value.cast_fuelFree, true_and] <;> simp [hm']
    · exact le_rfl
    · exact (ih.execBlock hbody (by omega)).mono fun _ _ h₃ => h₃.trans h₂
  · simp only [shallow_popFrame, shallow_leave, shallow_ofExcept_ok]
    split <;> simp [h₃]

lemma execBlock_ends (hs : Setting p c W) (ih : Enough p c W F) {ss : List Stmt} {m : Machine}
    (hss : ∀ s ∈ ss, p.HasStmt s) (hF : 2 + c.cost (p.span W) m.steps ≤ F + 1) :
    Ends (execBlock (F + 1) ss) c (p.span W) m := by
  have := hs.sixteen_le_span
  unfold Ends
  cases ss with
  | nil => simp [execBlock]
  | cons s rest =>
    simp only [execBlock, shallow_bind]
    -- the first statement counts a step, which pays for the rest of the block
    refine (ih.execStmt (hss s List.mem_cons_self) (by omega)).mono fun flow m₁ h₁ => ?_
    split
    · exact (ih.execBlock (fun s' hs' => hss s' (List.mem_cons_of_mem _ hs')) (by omega)).mono
        fun _ _ h => by omega
    · simp only [shallow_pure]
      omega

lemma execStmt_counts (hs : Setting p c W) (ih : Enough p c W F) {s : Stmt} {m : Machine}
    (hst : p.HasStmt s) (hF : 1 + c.cost (p.span W) m.steps ≤ F + 1) :
    Counts (execStmt (F + 1) s) c (p.span W) m := by
  obtain ⟨k, hk⟩ := hst
  have := hs.sixteen_le_span
  unfold Counts
  simp only [execStmt, shallow_withLine, shallow_bind]
  refine hs.tick fun m₀ h₀ => ?_
  -- after the step, every nested call may take up to a span
  cases s with
  | var name ty _ _ _ =>
    simp only [shallow_bind, shallow_pure]
    exact (shallow_declareLocal name ty).mono fun _ _ h => by rw [h]; omega
  | multi names ty _ =>
    simp only [shallow_bind, shallow_pure]
    refine (shallow_forM names _ (fun m' => m'.steps = m₀.steps)
      (fun n _ m' hm' => (shallow_declareLocal n ty).mono fun _ _ h => h.trans hm') _ rfl).mono
      fun _ _ h => by rw [h]; omega
  | assign name value _ =>
    simp only [shallow_bind, shallow_get, shallow_lift, Scope.assign_fuelFree, true_and,
      shallow_modify, shallow_pure]
    exact (evalExpr_of_has hs ih (hk.child .assign) (by omega)).mono
      fun _ _ h _ _ => by omega
  | ifElse cnd t e _ =>
    simp only [shallow_bind, shallow_truth, shallow_ite]
    refine (evalExpr_of_has hs ih (hk.child .ifCond) (by omega)).mono
      fun _ m₁ h₁ _ _ => ⟨fun _ => ?_, fun _ => ?_⟩
    · exact (ih.execBlock (fun s hs => ⟨k, hk.child (.ifThen hs)⟩) (by omega)).mono
        fun _ _ h => by omega
    · exact (ih.execBlock (fun s hs => ⟨k, hk.child (.ifElse hs)⟩) (by omega)).mono
        fun _ _ h => by omega
  | whileLoop cnd body post _ =>
    exact (ih.runLoop (hk.child .whileCond) (fun s hs => ⟨k, hk.child (.whileBody hs)⟩)
      (by rintro s rfl; exact ⟨k, hk.child .whilePost⟩) (by omega)).mono
      fun _ _ h => by omega
  | compound stmts _ =>
    exact (ih.execBlock (fun s hs => ⟨k, hk.child (.compound hs)⟩) (by omega)).mono
      fun _ _ h => by omega
  | returnWith v _ =>
    cases v with
    | none => simp; omega
    | some e =>
      simp only [shallow_bind, shallow_pure]
      exact (evalExpr_of_has hs ih (hk.child .returnValue) (by omega)).mono
        fun _ _ h => by omega
  | exprStmt e _ =>
    simp only [shallow_bind, shallow_pure]
    exact (ih.execExprStmt (hk.child .exprStmt) (by omega)).mono
      fun _ _ h => by omega
  | breakLoop _ | continueLoop _ => simp; omega
  | array _ _ _ _ _ _ | pointer _ _ _ _ _ _ _ | padding _ _ | typeDef _ _ | function _ _ _ _ =>
    simp

lemma runLoop_ends (hs : Setting p c W) (ih : Enough p c W F) {cnd : Expr} {body : List Stmt}
    {post : Option Stmt} {m : Machine} (hcnd : p.Has (.expr cnd))
    (hbody : ∀ s ∈ body, p.HasStmt s) (hpost : ∀ s, post = some s → p.HasStmt s)
    (hF : 1 + c.cost (p.span W) m.steps ≤ F + 1) :
    Ends (runLoop (F + 1) cnd body post) c (p.span W) m := by
  have := hs.sixteen_le_span
  unfold Ends
  simp only [runLoop, shallow_bind]
  -- each iteration counts a step, which pays for the condition, the body and the next one
  refine hs.tick fun m₀ h₀ => ?_
  refine (evalExpr_of_has hs ih hcnd (by omega)).mono fun _ m₁ h₁ => ?_
  simp only [shallow_truth, shallow_ite, shallow_pure, shallow_bind]
  refine fun _ _ => ⟨fun _ => by omega, fun _ => ?_⟩
  refine (ih.execBlock hbody (by omega)).mono fun flow m₂ h₂ => ?_
  cases flow with
  | brk | ret _ =>
    simp only [shallow_pure]
    omega
  | normal | cont =>
    -- the step statement, if any, and the next iteration
    cases post with
    | none => exact (ih.runLoop hcnd hbody hpost (by omega)).mono fun _ _ h => by omega
    | some st =>
      simp only [shallow_bind]
      exact (ih.execStmt (hpost st rfl) (by omega)).mono fun _ m₃ h₃ =>
        (ih.runLoop hcnd hbody hpost (by omega)).mono fun _ _ h => by omega

lemma execExprStmt_ends (hs : Setting p c W) (ih : Enough p c W F) {e : Expr} {m : Machine}
    (he : p.Has (.expr e)) (hF : p.span W + c.cost (p.span W) m.steps ≤ F + 1) :
    Ends (execExprStmt (F + 1) e) c (p.span W) m := by
  unfold Ends
  simp only [execExprStmt]
  split
  · -- a call whose result is dropped
    rename_i name ns args sp
    have hsz := he.sizeOf_expr_lt
    simp only [Expr.call.sizeOf_spec] at hsz
    have hr := hs.rank_add_le_span le_rfl (s := sizeOf args) (by omega) (o := 4) (by omega)
    simp only [shallow_withLine, shallow_bind, shallow_pure]
    exact (ih.callFunction le_rfl
      (fun a ha => hs.layered.grounded (Program.Holds.child he (.callArg ha))) (by omega)).mono
      fun _ _ h => h
  · simp only [shallow_bind, shallow_pure]
    exact (evalExpr_of_has hs ih he hF).mono fun _ _ h => h

/-! #### Members and types -/

/-- A type use of the program, built by a computation that may take a span. -/
lemma buildType_of_has (hs : Setting p c W) (ih : Enough p c W F) {ty : TypeDecl} {name : String}
    (hty : p.Has (.built ty)) {m : Machine} (hF : p.span W + c.cost (p.span W) m.steps ≤ F + 1) :
    Ends (buildType F ty name) c (p.span W) m :=
  ih.buildType le_rfl (hs.layered.grounded hty)
    (by have := hs.rank_add_le_span le_rfl (Program.Has.sizeOf_type_lt hty) (o := 7) (by omega); omega)

/-- A build where a placement says, by a computation that may take a span: at the cursor, or
at an address the program gives. -/
lemma place_ends (hs : Setting p c W) (ih : Enough p c W F) {β : Type} {pl : Placement}
    {build : Eval β} {m : Machine} (hpl : ∀ e, pl = .atOffset e → p.Has (.expr e))
    (hF : p.span W + c.cost (p.span W) m.steps ≤ F + 1)
    (hb : ∀ m', c.cost (p.span W) m'.steps ≤ c.cost (p.span W) m.steps →
      Ends build c (p.span W) m') :
    Ends (place (evalExpr F) pl build) c (p.span W) m := by
  cases pl with
  | cursor => exact hb m le_rfl
  | atOffset e =>
    unfold Ends
    simp only [place, shallow_bind, shallow_lift, Value.toUnsigned_fuelFree, true_and, shallow_ite,
      shallow_fault, shallow_atOffset]
    refine (evalExpr_of_has hs ih (hpl e rfl) hF).mono fun _ m₁ h₁ a _ => ⟨fun _ => by simp, ?_⟩
    exact fun _ => (hb { m₁ with cursor := a } h₁).mono fun _ _ h => h.trans h₁
  | input | output => simp [Ends, place]

lemma buildMember_ends (hs : Setting p c W) (ih : Enough p c W F) {s : Stmt} {m : Machine}
    (hst : p.HasStmt s) (hF : 1 + c.cost (p.span W) m.steps ≤ F + 1) :
    Ends (buildMember (F + 1) s) c (p.span W) m := by
  obtain ⟨k, hk⟩ := hst
  have := hs.sixteen_le_span
  unfold Ends
  rw [buildMember.eq_def]
  simp only [shallow_withNode, shallow_withLine, shallow_bind]
  refine hs.tick fun m₀ h₀ => ?_
  -- after the step, every nested call may take up to a span
  cases s with
  | var name ty pl attrs sp =>
    exact (ih.buildVar (.inl (hk.child .varType)) (by rintro e rfl; exact hk.child .varOffset)
      (by omega)).mono fun _ _ h => by omega
  | multi names ty sp =>
    exact (ends_forM fun n _ m' hm' => ih.buildVar (.inl (hk.child .multiType)) (by rintro e ⟨⟩)
      (by omega)).mono fun _ _ h => by omega
  | array name ty size pl attrs sp =>
    simp only [shallow_bind]
    refine (place_ends hs ih (by rintro e rfl; exact hk.child .arrayOffset) (by omega)
      fun m' hm' => ih.buildArray (m := m') (.inl (hk.child .arrayType))
        (by rintro e (rfl | rfl); exacts [hk.child .arrayCount, hk.child .arrayCond])
        (by omega)).mono fun node m₁ h₁ => ?_
    exact (shallow_emit node false attrs).mono fun _ _ h => by rw [h]; omega
  | pointer name target addrType addrEndian pl attrs sp =>
    simp only [shallow_bind]
    refine (place_ends hs ih (by rintro e rfl; exact hk.child .pointerOffset) (by omega)
      fun m' hm' => ih.buildPointer (m := m') (.inl (hk.child .pointerTarget)) (by omega)).mono
      fun node m₁ h₁ => ?_
    exact (shallow_emit node false attrs).mono fun _ _ h => by rw [h]; omega
  | padding size sp =>
    simp only [shallow_bind]
    refine (evalExpr_of_has hs ih (hk.child .padding) (by omega)).mono fun _ m₁ h₁ => ?_
    simp only [shallow_lift, Value.toUnsigned_fuelFree, true_and, shallow_ite, shallow_fault,
      shallow_bind, shallow_cursor, shallow_checkRange, shallow_newNode, shallow_setCursor,
      shallow_modifyScope]
    exact fun _ _ => ⟨fun _ => by simp, fun _ _ _ => by omega⟩
  | ifElse cnd t e sp =>
    simp only [shallow_bind]
    refine (evalExpr_of_has hs ih (hk.child .ifCond) (by omega)).mono fun _ m₁ h₁ => ?_
    simp only [shallow_truth]
    intro b _
    have hbody : ∀ s' ∈ (if b = true then t else e), p.HasStmt s' := by
      intro s' hs'
      split at hs'
      exacts [⟨k, hk.child (.ifThen hs')⟩, ⟨k, hk.child (.ifElse hs')⟩]
    exact (ends_forM fun s' hs' m' hm' => ih.buildMember (hbody s' hs') (by omega)).mono
      fun _ _ h => by omega
  | exprStmt e sp =>
    exact (ih.execExprStmt (hk.child .exprStmt) (by omega)).mono fun _ _ h => by omega
  | typeDef _ _ | function _ _ _ _ =>
    simp only [shallow_pure]
    omega
  | assign _ _ _ | whileLoop _ _ _ _ | compound _ _ | returnWith _ _ | breakLoop _
    | continueLoop _ => simp

lemma buildVar_ends (hs : Setting p c W) (ih : Enough p c W F) {name : String} {ty : TypeDecl}
    {pl : Placement} {attrs : List Attribute} {m : Machine} (hty : p.Has (.built ty))
    (hpl : ∀ e, pl = .atOffset e → p.Has (.expr e))
    (hF : p.span W + c.cost (p.span W) m.steps ≤ F + 1) :
    Ends (buildVar (F + 1) name ty pl attrs) c (p.span W) m := by
  cases pl with
  | input =>
    simp only [buildVar]
    exact Ends.of_steps (shallow_declareHost name ty true)
  | output =>
    simp only [buildVar]
    exact Ends.of_steps (shallow_declareHost name ty false)
  | cursor | atOffset e =>
    unfold Ends
    simp only [buildVar, shallow_bind]
    exact (place_ends hs ih hpl hF fun m' hm' => buildType_of_has hs ih hty (by omega)).mono
      fun _ m₁ h₁ => (shallow_emit _ _ attrs).mono fun _ _ h => by rw [h]; exact h₁

lemma buildType_ends (ih : Enough p c W F) {L : Nat} {ty : TypeDecl} {name : String}
    {m : Machine} (hL : L ≤ p.types.length) (hty : p.Grounded L (.built ty))
    (hF : rank W L (sizeOf ty) 7 + c.cost (p.span W) m.steps ≤ F + 1) :
    Ends (buildType (F + 1) ty name) c (p.span W) m := by
  unfold Ends
  simp only [buildType, shallow_bind, shallow_enter, shallow_get, shallow_ite, shallow_modify,
    shallow_leave, shallow_pure]
  intro _
  -- the body is built in the type's byte order, which is put back after
  constructor
  all_goals
    intro _
    refine Shallow.attempt (ih.buildBody hL hty (rank_le_of_lt hF (by omega) (by exact le_rfl)))
      (fun b m₂ h₂ => ?_) fun e _ he => (shallow_ofExcept_error e).mpr he
    rw [shallow_ofExcept_ok]
    exact (shallow_applyAttributes _ _).mono fun _ _ h => by rw [h]; exact h₂

lemma buildBody_ends (hs : Setting p c W) (ih : Enough p c W F) {L : Nat} {ty : TypeDecl}
    {name : String} {m : Machine} (hL : L ≤ p.types.length) (hty : p.Grounded L (.built ty))
    (hF : rank W L (sizeOf ty) 6 + c.cost (p.span W) m.steps ≤ F + 1) :
    Ends (buildBody (F + 1) ty name) c (p.span W) m := by
  have hsz := ty.sizeOf_body_lt
  unfold Ends
  simp only [buildBody]
  rcases hb : ty.body with b | ⟨bases, ms⟩ | ms | ⟨u, es⟩ | es | inner | q
  case builtin =>
    simp only [shallow_bind, shallow_pure]
    exact (shallow_buildBuiltin b name _).mono fun _ _ h => by rw [h]
  case struct =>
    rw [hb] at hsz
    simp only [TypeBody.struct.sizeOf_spec] at hsz
    simp only [shallow_bind, shallow_pure]
    exact ih.buildStruct hL (fun b' h' => hty.next (.part (hb ▸ .base h')))
      (fun s' h' => ⟨.member, Program.Has.body hty.1 (hb ▸ .structMember h')⟩)
      (rank_le_of_lt hF (by omega) le_rfl)
  case union =>
    simp only [shallow_bind, shallow_pure]
    exact ih.buildUnion (fun s' h' => ⟨.member, Program.Has.body hty.1 (hb ▸ .unionMember h')⟩)
      (by unfold rank at hF; omega)
  case enum =>
    rw [hb] at hsz
    simp only [TypeBody.enum.sizeOf_spec] at hsz
    simp only [shallow_bind, shallow_pure]
    exact ih.buildEnum hL (fun en h' => hty.next (.value (hb ▸ .enumValue h')))
      (rank_le_of_lt hF (by omega) le_rfl)
  case bitfield =>
    rw [hb] at hsz
    simp only [TypeBody.bitfield.sizeOf_spec] at hsz
    simp only [shallow_bind, shallow_pure]
    exact ih.buildBitfield hL (fun en h' => hty.next (.value (hb ▸ .bitfieldWidth h')))
      (rank_le_of_lt hF (by omega) le_rfl)
  case «alias» =>
    rw [hb] at hsz
    simp only [TypeBody.alias.sizeOf_spec] at hsz
    simp only [shallow_bind, shallow_pure]
    exact ih.buildType hL (hty.next (.part (hb ▸ .aliasTarget)))
      (rank_le_of_lt hF (by omega) le_rfl)
  case forward =>
    -- a forward reference is built from an earlier entry of the registry
    simp only [shallow_bind, shallow_read, hs.context.program]
    cases hD : p.typeNamed? q with
    | none => simp
    | some D =>
      obtain ⟨i, hi, hD', -⟩ := hs.layered.forward (hty.2.self q hb) hD
      have hr : rank W i (sizeOf D) 7 < rank W L (sizeOf ty) 6 :=
        rank_lt_of_level_lt hi (by have := Program.Has.sizeOf_type_lt hD'.1; have := hs.wide; omega)
      exact ih.buildType (by omega) hD' (by omega)

lemma buildStruct_ends (ih : Enough p c W F) {L : Nat} {bases : List TypeDecl}
    {members : List Stmt} {name tn : String} {m : Machine} (hL : L ≤ p.types.length)
    (hbases : ∀ b ∈ bases, p.Grounded L (.built b)) (hmembers : ∀ s ∈ members, p.HasStmt s)
    (hF : rank W L (sizeOf bases) 6 + c.cost (p.span W) m.steps ≤ F + 1) :
    Ends (buildStruct (F + 1) bases members name tn) c (p.span W) m := by
  unfold Ends
  simp only [buildStruct, shallow_bind, shallow_cursor, shallow_pushFrame]
  -- the frame is closed on either outcome of the bases and members
  refine Shallow.attempt (Q := fun _ m₂ => c.cost (p.span W) m₂.steps ≤ c.cost (p.span W) m.steps)
    ?_ (fun _ m₂ h₂ => by simp [h₂]) fun e _ he => by simp [he]
  rw [shallow_bind]
  -- the bases, each smaller than the list of them, then the members, each counting a step
  refine (ends_forM (S := p.span W) fun b hb m' hm' => ?_).mono fun _ m₁ h₁ => ?_
  · unfold Ends
    simp only [shallow_bind, shallow_splice]
    have := List.sizeOf_lt_of_mem hb
    exact (ih.buildType hL (hbases b hb) (rank_le_of_lt hF (by omega) hm')).mono fun _ _ h => h
  · dsimp only at h₁
    exact (ends_forM fun s hs' m' hm' => ih.buildMember (hmembers s hs')
      (by unfold rank at hF; omega)).mono fun _ _ h₂ => h₂.trans h₁

lemma buildUnion_ends (ih : Enough p c W F) {members : List Stmt} {name tn : String}
    {m : Machine} (hmembers : ∀ s ∈ members, p.HasStmt s)
    (hF : 2 + c.cost (p.span W) m.steps ≤ F + 1) :
    Ends (buildUnion (F + 1) members name tn) c (p.span W) m := by
  unfold Ends
  simp only [buildUnion, shallow_bind, shallow_cursor, shallow_pushFrame]
  refine Shallow.attempt (ends_foldlM (S := p.span W) fun s hs' _ m' hm' => ?_)
    (fun _ m₁ h₁ => by simp [h₁]) fun e _ he => by simp [he]
  unfold Ends
  simp only [shallow_bind, shallow_setCursor, shallow_cursor, shallow_pure]
  exact ih.buildMember (hmembers s hs') (by dsimp only at hm' ⊢; omega)

lemma buildEnum_ends (ih : Enough p c W F) {L : Nat} {u : Builtin} {es : List EnumEntry}
    {name tn : String} {m : Machine} (hL : L ≤ p.types.length)
    (hes : ∀ en ∈ es, p.Grounded L (.expr en.value))
    (hF : rank W L (sizeOf es) 5 + c.cost (p.span W) m.steps ≤ F + 1) :
    Ends (buildEnum (F + 1) u es name tn) c (p.span W) m := by
  unfold Ends
  simp only [buildEnum]
  split
  · simp only [shallow_bind, shallow_pure]
    refine (ih.enumEntries hL hes (rank_le_of_lt hF (by omega) le_rfl)).mono fun _ m₁ h₁ => ?_
    simp [h₁]
  · simp

lemma buildBitfield_ends (ih : Enough p c W F) {L : Nat} {es : List BitfieldEntry}
    {name tn : String} {m : Machine} (hL : L ≤ p.types.length)
    (hes : ∀ en ∈ es, p.Grounded L (.expr en.width))
    (hF : rank W L (sizeOf es) 5 + c.cost (p.span W) m.steps ≤ F + 1) :
    Ends (buildBitfield (F + 1) es name tn) c (p.span W) m := by
  unfold Ends
  simp only [buildBitfield, shallow_bind, shallow_cursor]
  refine (ends_foldlM (S := p.span W) fun en hen acc m' hm' => ?_).mono fun _ m₁ h₁ => ?_
  · -- each width is smaller than the list of entries
    obtain ⟨off, fields⟩ := acc
    have hsz := List.sizeOf_lt_of_mem hen
    have hw : sizeOf en.width < sizeOf en := by cases en; simp
    unfold Ends
    simp only [shallow_bind]
    refine (ih.evalExpr hL (hes en hen) (rank_le_of_lt hF (by omega) hm')).mono
      fun _ m₂ h₂ => ?_
    simp [h₂]
  · simp [h₁]

/-! #### Arrays and strings -/

lemma buildArray_ends (hs : Setting p c W) (ih : Enough p c W F) {name : String} {ty : TypeDecl}
    {size : ArraySize} {m : Machine} (hty : p.Has (.built ty))
    (hsize : ∀ e, size = .fixed e ∨ size = .whileCond e → p.Has (.expr e))
    (hF : p.span W + c.cost (p.span W) m.steps ≤ F + 1) :
    Ends (buildArray (F + 1) name ty size) c (p.span W) m := by
  have := hs.sixteen_le_span
  unfold Ends
  simp only [buildArray]
  split
  · exact ih.buildString hsize (by omega)
  · exact ih.buildString hsize (by omega)
  · simp only [shallow_bind, shallow_cursor]
    -- each way of counting the elements starts afresh at the same fuel, well below a span
    cases size with
    | fixed count =>
      simp only [shallow_bind, shallow_lift]
      refine (evalExpr_of_has hs ih (hsize count (.inl rfl)) (by omega)).mono
        fun _ m₁ h₁ => ?_
      simp only [Value.toUnsigned_fuelFree, shallow_checkArrayLength, true_and]
      refine fun _ _ _ => (ih.fixedElements hty (m := m₁) (by omega)).mono fun _ m₂ h₂ => ?_
      simp [h₂.trans h₁]
    | whileCond cnd =>
      have hc := hsize cnd (.inr rfl)
      have := hs.rank_add_le_span le_rfl hc.sizeOf_expr_lt (o := 5) (by omega)
      simp only [shallow_bind]
      refine (ih.whileElements hty hc (m := m) (by omega)).mono fun _ m₂ h₂ => ?_
      simp [h₂]
    | unsized =>
      simp only [shallow_bind]
      refine (ih.unsizedElements hty (m := m) (by omega)).mono fun _ m₂ h₂ => ?_
      simp [h₂]

lemma buildElement_counts (hs : Setting p c W) (ih : Enough p c W F) {ty : TypeDecl} {i : Nat}
    {m : Machine} (hty : p.Has (.built ty)) (hF : 1 + c.cost (p.span W) m.steps ≤ F + 1) :
    Counts (buildElement (F + 1) ty i) c (p.span W) m := by
  unfold Counts
  simp only [buildElement, shallow_bind]
  refine hs.tick fun m₁ h₁ => ?_
  refine (buildType_of_has hs ih hty (m := m₁) (by omega)).mono fun _ m₂ h₂ => ?_
  simp only [shallow_pure]
  omega

lemma fixedElements_ends (hs : Setting p c W) (ih : Enough p c W F) {ty : TypeDecl}
    {i n : Nat} {acc : List Node} {m : Machine} (hty : p.Has (.built ty))
    (hF : 2 + c.cost (p.span W) m.steps ≤ F + 1) :
    Ends (fixedElements (F + 1) ty i n acc) c (p.span W) m := by
  have := hs.sixteen_le_span
  unfold Ends
  simp only [fixedElements, shallow_ite, shallow_bind, shallow_pure]
  -- the element takes a step, which pays for the rest of the array at the same fuel
  refine ⟨fun _ => (ih.buildElement hty (m := m) (by omega)).mono fun _ m₁ h₁ => ?_,
    fun _ => le_rfl⟩
  exact (ih.fixedElements hty (m := m₁) (by omega)).mono fun _ _ h₂ => by omega

lemma whileElements_ends (hs : Setting p c W) (ih : Enough p c W F) {ty : TypeDecl}
    {cnd : Expr} {count : Nat} {acc : List Node} {m : Machine} (hty : p.Has (.built ty))
    (hc : p.Has (.expr cnd))
    (hF : rank W p.types.length (sizeOf cnd) 5 + c.cost (p.span W) m.steps ≤ F + 1) :
    Ends (whileElements (F + 1) ty cnd count acc) c (p.span W) m := by
  have := hs.sixteen_le_span
  have hr : 5 ≤ rank W p.types.length (sizeOf cnd) 5 := by unfold rank; omega
  unfold Ends
  simp only [whileElements, shallow_bind, shallow_truth]
  refine (ih.evalExpr le_rfl (hs.layered.grounded hc) (m := m)
    (rank_le_of_lt hF (by omega) le_rfl)).mono fun _ m₁ h₁ b _ => ?_
  simp only [shallow_ite, shallow_bind, shallow_checkArrayLength, shallow_pure]
  -- an element pays a span, which buys the next condition and the rest of the array
  refine ⟨fun _ _ => (ih.buildElement hty (m := m₁) (by omega)).mono fun _ m₂ h₂ => ?_,
    fun _ => h₁⟩
  exact (ih.whileElements hty hc (m := m₂) (by omega)).mono fun _ _ h₃ => by omega

lemma unsizedElements_ends (hs : Setting p c W) (ih : Enough p c W F) {ty : TypeDecl}
    {count : Nat} {acc : List Node} {m : Machine} (hty : p.Has (.built ty))
    (hF : 2 + c.cost (p.span W) m.steps ≤ F + 1) :
    Ends (unsizedElements (F + 1) ty count acc) c (p.span W) m := by
  have := hs.sixteen_le_span
  unfold Ends
  simp only [unsizedElements, shallow_bind, shallow_cursor, shallow_read, shallow_ite,
    shallow_checkArrayLength, shallow_pure, shallow_readBytes]
  refine ⟨fun _ _ => (ih.buildElement hty (m := m) (by omega)).mono fun _ m₁ h₁ _ _ => ?_,
    fun _ => le_rfl⟩
  -- an element that is not all zero paid a span for the rest of the array
  exact ⟨fun _ => by omega,
    fun _ => (ih.unsizedElements hty (m := m₁) (by omega)).mono fun _ _ h₂ => by omega⟩

lemma buildString_ends (hs : Setting p c W) (ih : Enough p c W F) {name : String} {ty : TypeDecl}
    {size : ArraySize} {unit : Nat} {m : Machine}
    (hsize : ∀ e, size = .fixed e ∨ size = .whileCond e → p.Has (.expr e))
    (hF : p.span W - 1 + c.cost (p.span W) m.steps ≤ F + 1) :
    Ends (buildString (F + 1) name ty size unit) c (p.span W) m := by
  have := hs.sixteen_le_span
  unfold Ends
  simp only [buildString, shallow_bind, shallow_cursor]
  cases size with
  | fixed count =>
    have hc := hsize count (.inl rfl)
    have := hs.rank_add_le_span le_rfl hc.sizeOf_expr_lt (o := 4) (by omega)
    simp only [shallow_bind]
    refine (ih.evalExpr le_rfl (hs.layered.grounded hc) (m := m) (by omega)).mono
      fun _ m₁ h₁ => ?_
    simp [h₁]
  | whileCond cnd =>
    have hc := hsize cnd (.inr rfl)
    have := hs.rank_add_le_span le_rfl hc.sizeOf_expr_lt (o := 5) (by omega)
    simp only [shallow_bind]
    refine (ih.whileChars hc (m := m) (by omega)).mono fun _ m₁ h₁ => ?_
    simp [h₁]
  | unsized =>
    simp only [shallow_bind]
    refine (ih.unsizedChars (m := m) (by omega)).mono fun _ m₁ h₁ => ?_
    simp [h₁]

lemma whileChars_ends (hs : Setting p c W) (ih : Enough p c W F) {cnd : Expr} {start unit : Nat}
    {m : Machine} (hc : p.Has (.expr cnd))
    (hF : rank W p.types.length (sizeOf cnd) 5 + c.cost (p.span W) m.steps ≤ F + 1) :
    Ends (whileChars (F + 1) cnd start unit) c (p.span W) m := by
  have := hs.sixteen_le_span
  unfold Ends
  simp only [whileChars, shallow_bind, shallow_truth]
  refine (ih.evalExpr le_rfl (hs.layered.grounded hc) (m := m)
    (rank_le_of_lt hF (by omega) le_rfl)).mono fun _ m₁ h₁ b _ => ?_
  simp only [shallow_ite, shallow_bind, shallow_cursor, shallow_checkArrayLength,
    shallow_checkRange, shallow_setCursor, shallow_pure]
  refine ⟨fun _ => hs.tick fun m₂ h₂ _ _ => ?_, fun _ => h₁⟩
  -- the character paid a span, which buys the next condition and the rest of the string
  exact (ih.whileChars hc (m := { m₂ with cursor := m₂.cursor + unit }) (by dsimp only; omega)).mono
    fun _ _ h₃ => by dsimp only at h₃; omega

lemma unsizedChars_ends (hs : Setting p c W) (ih : Enough p c W F) {unit : Nat} {m : Machine}
    (hF : 1 + c.cost (p.span W) m.steps ≤ F + 1) :
    Ends (unsizedChars (F + 1) unit) c (p.span W) m := by
  have := hs.sixteen_le_span
  unfold Ends
  simp only [unsizedChars, shallow_bind, shallow_cursor, shallow_read, shallow_ite, shallow_fault,
    shallow_readBytes, shallow_setCursor, shallow_pure]
  -- an overflowing cursor is a fault of its own, not one of fuel
  refine ⟨fun _ h => (by cases h), fun _ =>
    ⟨fun _ => hs.tick fun m₂ h₂ _ _ => ⟨fun _ => ?_, fun _ => by omega⟩, fun _ => le_rfl⟩⟩
  -- a character that is not zero paid a span for the rest of the string
  exact (ih.unsizedChars (m := { m₂ with cursor := m.cursor + unit }) (by dsimp only; omega)).mono
    fun _ _ h₃ => by dsimp only at h₃; omega

/-! #### Pointers -/

lemma buildPointer_ends (hs : Setting p c W) (ih : Enough p c W F) {name : String}
    {target : TypeDecl} {addrType : Builtin} {addrEndian : Option Endian}
    {attrs : List Attribute} {m : Machine} (hty : p.Has (.built target))
    (hF : p.span W + c.cost (p.span W) m.steps ≤ F + 1) :
    Ends (buildPointer (F + 1) name target addrType addrEndian attrs) c (p.span W) m := by
  have := hs.sixteen_le_span
  unfold Ends
  -- the target is built at the address from any state that costs no more, whatever the address
  have built : ∀ a {m₁ : Machine}, c.cost (p.span W) m₁.steps ≤ c.cost (p.span W) m.steps →
      Ends (atOffset a (buildType F target name)) c (p.span W) m₁ := fun a m₁ h₁ => by
    unfold Ends
    rw [shallow_atOffset]
    exact (buildType_of_has hs ih hty (by dsimp only; omega)).mono
      fun _ _ h => by dsimp only at h ⊢; omega
  simp only [buildPointer]
  split
  · simp only [shallow_bind, shallow_pure, shallow_cursor, shallow_endianFor, shallow_readBytes,
      shallow_setCursor]
    intro bs _
    split
    · simp only [shallow_pure, shallow_ite, shallow_fault, shallow_bind]
      refine ⟨fun _ => by simp, fun _ => (built _ (by exact le_rfl)).mono fun _ m₂ h₂ => ?_⟩
      dsimp only at h₂
      simp [h₂]
    · simp only [shallow_withLine, shallow_bind]
      split
      · -- the address read, moved by a function of the program, which may take most of a span
        simp only [shallow_pure, shallow_bind]
        refine shallow_roleFunction _ _ fun f hf => ?_
        refine (ih.callUser (hs.context.mem_function hf) ?_).mono fun r m₂ h₂ => ?_
        · dsimp only
          omega
        dsimp only at h₂
        cases r with
        | none => simp
        | some v =>
          simp only [shallow_bind, shallow_lift, Value.toUnsigned_fuelFree, shallow_pure,
            shallow_ite, shallow_fault, true_and]
          refine fun _ _ => ⟨fun _ => by simp, fun _ => (built _ h₂).mono fun _ m₃ h₃ => ?_⟩
          simp [h₃.trans h₂]
      · simp
  · simp

/-! #### Every amount of fuel -/

/-- One more unit of fuel than is enough is enough again. -/
lemma enough_succ (hs : Setting p c W) (ih : Enough p c W F) : Enough p c W (F + 1) where
  evalExpr := evalExpr_ends ih
  resolvePath := resolvePath_ends ih
  scopeMember := scopeMember_ends hs ih
  enumEntries := enumEntries_ends ih
  callFunction := callFunction_ends hs ih
  callUser := callUser_ends ih
  execBlock := execBlock_ends hs ih
  execStmt := execStmt_counts hs ih
  runLoop := runLoop_ends hs ih
  execExprStmt := execExprStmt_ends hs ih
  buildMember := buildMember_ends hs ih
  buildVar := buildVar_ends hs ih
  buildType := buildType_ends ih
  buildBody := buildBody_ends hs ih
  buildStruct := buildStruct_ends ih
  buildUnion := buildUnion_ends ih
  buildEnum := buildEnum_ends ih
  buildBitfield := buildBitfield_ends ih
  buildArray := buildArray_ends hs ih
  buildElement := buildElement_counts hs ih
  fixedElements := fixedElements_ends hs ih
  whileElements := whileElements_ends hs ih
  unsizedElements := unsizedElements_ends hs ih
  buildString := buildString_ends hs ih
  whileChars := whileChars_ends hs ih
  unsizedChars := unsizedChars_ends hs ih
  buildPointer := buildPointer_ends hs ih

/-- Every amount of fuel is enough, by induction on it. -/
theorem enough (hs : Setting p c W) (F : Nat) : Enough p c W F := by
  induction F with
  | zero => exact enough_zero hs
  | succ F ih => exact enough_succ hs ih

/-- A whole program never runs out of fuel when the fuel covers the cost of its steps. -/
lemma buildProgram_shallow (hs : Setting p c W) {m : Machine}
    (hF : 2 + c.cost (p.span W) m.steps ≤ F) : Shallow (buildProgram F p) c m fun _ _ => True := by
  have hstmt : ∀ s ∈ p.stmts, p.HasStmt s := fun _ hmem => ⟨.top, Program.Holds.stmt hmem⟩
  simp only [buildProgram, shallow_bind]
  -- each top-level member is built from a state that costs no more than the first
  exact (ends_forM (S := p.span W) fun s hmem m' hm' =>
    (enough hs F).buildMember (hstmt s hmem) (by omega)).mono fun _ _ _ => by simp

end Steps

end Eval

/-- Evaluation under a step limit terminates: a run of a parsed program in which no enumeration
is scoped by itself never runs out of fuel once the fuel passes a bound that depends only on the
program and the step limit. -/
theorem evaluation_terminates {tokens : Array Token} {p : Program}
    (hp : parseTokens tokens = .ok p) (hself : ¬ p.SelfScopedEnum) (data : ByteArray)
    (config : RunConfig) (inputs : List (String × Value)) (hsteps : 0 < config.maxSteps) :
    ∃ bound, ∀ fuel, bound ≤ fuel → ∀ e m',
      ((buildProgram fuel p).run (Context.of p data config)).run (Machine.initial inputs) =
        .error e m' → e.fault ≠ .outOfFuel := by
  have hs : Eval.Setting p (Context.of p data config) (8 * sizeOf p + 16) :=
    ⟨Program.layered_of_parse hp hself, Context.of_program p data config, hsteps, le_rfl⟩
  refine ⟨2 + (Context.of p data config).cost (p.span (8 * sizeOf p + 16)) 0, fun fuel hfuel => ?_⟩
  exact (Eval.buildProgram_shallow hs (m := Machine.initial inputs) hfuel).2

/-- `struct Node { u8 value; Node *next : u8; }; Node head @ 0;` -/
def tokensList : Array Token := #[
  tokenAt (.keyword "struct") 0 6, tokenAt (.ident "Node") 7 11, tokenAt (.symbol "\x7b") 12 13,
  tokenAt (.builtin (.unsigned .w8)) 14 16, tokenAt (.ident "value") 17 22,
  tokenAt (.symbol ";") 22 23, tokenAt (.ident "Node") 24 28, tokenAt (.symbol "*") 29 30,
  tokenAt (.ident "next") 30 34, tokenAt (.symbol ":") 35 36,
  tokenAt (.builtin (.unsigned .w8)) 37 39, tokenAt (.symbol ";") 39 40,
  tokenAt (.symbol "\x7d") 41 42, tokenAt (.symbol ";") 42 43, tokenAt (.ident "Node") 44 48,
  tokenAt (.ident "head") 49 53, tokenAt (.symbol "@") 54 55, tokenAt (.int 0) 56 57,
  tokenAt (.symbol ";") 57 58, tokenAt .eof 58 58]

/-- A list whose nodes point back to the first one still ends, over any data. -/
theorem evaluation_terminates_list :
    ∃ p, parseTokens tokensList = .ok p ∧ ¬ p.SelfScopedEnum ∧ ∀ data inputs, ∃ bound,
      ∀ fuel, bound ≤ fuel → ∀ e m',
        ((buildProgram fuel p).run (Context.of p data RunConfig.standard)).run
          (Machine.initial inputs) = .error e m' → e.fault ≠ .outOfFuel :=
  have hp := Except.eq_ok_get (by decide +kernel)
  have hself := Program.not_selfScopedEnum_of_isEnum (by decide +kernel)
  ⟨_, hp, hself, fun data inputs => evaluation_terminates hp hself data _ inputs (by decide)⟩

end ByteLayout

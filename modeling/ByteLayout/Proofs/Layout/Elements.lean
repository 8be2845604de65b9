import ByteLayout.Proofs.Layout.Build
import ByteLayout.Proofs.Eval.Limits

set_option autoImplicit false

/-!
# How arrays count their elements

An array that is not a string builds its elements one after the other from the cursor, the
element `i` under the name `[i]`, and is as large as its elements together. How many elements
it has depends on the form of its size:

* a fixed count builds as many elements as the count evaluates to;
* a `while` condition is evaluated before each element, with the cursor where the element
  would start, and the array ends at the first evaluation that is false, so that a condition
  false from the start gives an empty array of no bytes;
* an unsized array ends after its first element whose bytes are all zero, or once the
  cursor reaches the end of the data, and so is empty only when it starts there.

## Main definitions

* `elementName` — the name of element `i`.
* `Expr.CountsAs`, `Expr.TestsAs` — an expression evaluated to a count, or to a truth value.
* `WhileRan` — the states a `while` loop passes through, and what it evaluates and builds.
* `ArraySize.Counts` — what the form of an array's size says of its elements.
* `ArrayCounted` — what a successful build of an array promises.

## Main results

* `buildType_name` — a type builds a node under the name it is given.
* `fixedElements_counted`, `whileElements_counted`, `unsizedElements_counted` — the three
  loops of the array builder.
* `arrayConstructionLaw` — the construction law of arrays, and the empty `while` array.
-/

namespace ByteLayout

open Eval

/-- The name of element `i` of an array. -/
def elementName (i : Nat) : String := "[" ++ toString i ++ "]"

/-- The expression `count` evaluated from `m`, at some fuel, to a value whose unsigned integer
is `n`. -/
def Expr.CountsAs (c : Context) (m : Machine) (count : Expr) (n : Nat) : Prop :=
  ∃ fuel v m', ((evalExpr fuel count).run c).run m = .ok v m' ∧ v.toUnsigned = .ok n

/-- The condition `cnd` evaluated from `m`, at some fuel, to a value whose truth is `b`. -/
def Expr.TestsAs (c : Context) (m : Machine) (cnd : Expr) (b : Bool) : Prop :=
  ∃ fuel v m', ((evalExpr fuel cnd).run c).run m = .ok v m' ∧ v.toBool = .ok b

/-- How an unsized array built from `m` ended: every element before the last has a byte that
is not zero, the last one is all zero or ends at the end of the data or past it, and there is
no element only when the array starts at the end of the data or past it. -/
structure UnsizedEnds (c : Context) (m : Machine) (es : List Node) : Prop where
  nonzero : ∀ e ∈ es.dropLast, ∃ bs, Data.read c.data e.offset e.size = .ok bs ∧ ∃ b ∈ bs, b ≠ 0
  last : ∀ e, es.getLast? = some e →
    (∃ bs, Data.read c.data e.offset e.size = .ok bs ∧ ∀ b ∈ bs, b = 0) ∨
      c.data.size ≤ e.offset + e.size
  empty : es = [] → c.data.size ≤ m.cursor

/-- A `while` loop from `m` that built the elements `es` of type `ty`, numbered from `count`,
passing through the states `ms`, the first of them `m`: in each the cursor is at the start of
the next element, and the condition held in each but the last and failed in the last; each
element was built from the state the condition's evaluation left into the next state. -/
def WhileRan (c : Context) (ty : TypeDecl) (cnd : Expr) (count : Nat) (m : Machine)
    (es : List Node) : Prop :=
  ∃ ms : List Machine, ms.length = es.length + 1 ∧ ms.head? = some m ∧
    (∀ j (hj : j < ms.length), ms[j].cursor = m.cursor + ((es.take j).map Node.size).sum ∧
      cnd.TestsAs c ms[j] (decide (j < es.length))) ∧
    ∀ j (hj : j + 1 < ms.length), ∃ e fuel v m', es[j]? = some e ∧
      ((evalExpr fuel cnd).run c).run ms[j] = .ok v m' ∧ v.toBool = .ok true ∧
      ((buildElement fuel ty (count + j)).run c).run m' = .ok e ms[j + 1]

/-- What the form of an array's size says of the elements `es` of type `ty` built from `m`:
their number is the count; or the `while` loop ran through them, the condition holding before
every element and not after the last; or the unsized array ended as it should. -/
def ArraySize.Counts (c : Context) (ty : TypeDecl) (m : Machine) (es : List Node) :
    ArraySize → Prop
  | .fixed count => count.CountsAs c m es.length
  | .whileCond cnd => WhileRan c ty cnd 0 m es
  | .unsized => UnsizedEnds c m es

/-- What a successful build of an array of `ty` whose size has the form `form` promises of its
node: it starts at the cursor, its elements are named `[0]`, `[1]`, … in order, it is as large
as they are together, and their number is what the form of the size says. -/
structure ArrayCounted (c : Context) (ty : TypeDecl) (form : ArraySize) (m : Machine) (N : Node) :
    Prop where
  offset : N.offset = m.cursor
  names : N.children.map Node.name = (List.range N.children.length).map elementName
  size : N.size = (N.children.map Node.size).sum
  counts : form.Counts c ty m N.children

/-! ### Names -/

section Names

variable {c : Context} {m : Machine}

lemma Wp.of_post {α : Type} {x : Eval α} {P : α → Machine → Prop} (h : ∀ a m', P a m') :
    Wp x c m P :=
  fun a m' _ => h a m'

@[simp] lemma Node.name_setColor (k : Nat) (n : Node) : (n.setColor k).name = n.name := by
  rw [Node.setColor_eq]

lemma wp_applyAttribute_name (node : Node) (attr : Attribute) :
    Wp (applyAttribute node attr) c m fun r _ => r.1.name = node.name := by
  unfold applyAttribute
  split
  · simp
  · rename_i tv _
    rcases attr.value with _ | v <;> cases tv <;> simp only [wp_fault, wp_bind, wp_pure]
    -- every attribute but `color` returns the node with one presentation field changed
    all_goals
      split <;> (try simp only [wp_bind, wp_lift, wp_pure, wp_ite, wp_fault, Node.name_setColor,
        implies_true, and_self])
      all_goals first
        | exact Wp.of_post fun _ _ => trivial
        | split
          · simp only [wp_bind, wp_pure]
            exact Wp.of_post fun _ _ => trivial
          · simp

/-- Attributes never change a node's name; the `name` attribute sets the shown name. -/
lemma wp_applyAttributes_name (node : Node) (attrs : List Attribute) :
    Wp (applyAttributes node attrs) c m fun r _ => r.1.name = node.name := by
  unfold applyAttributes
  simp only [wp_bind, wp_cursor]
  refine wp_foldlM attrs _ (fun (r : Node × Bool) _ => r.1.name = node.name) ?_ _ m rfl
  rintro attr - ⟨n, i⟩ _ hn
  simp only [wp_bind, wp_withLine]
  exact (wp_applyAttribute_name n attr).mono fun r _ hr => by
    simpa only [wp_setCursor, wp_pure, hr] using hn

lemma wp_newNode_name (name tn : String) (o s : Nat) (k : NodeKind) :
    Wp (newNode name tn o s k) c m fun N _ => N.name = name := by
  simp [Node.fresh]

/-- A type builds a node under the name it is given, whatever its body and attributes.

**Proof sketch.** Induction on the fuel, for `buildType` and `buildBody` together: an alias
and a forward reference build their target under the same name, every other body ends in a
fresh node of that name, and attributes keep it. -/
theorem buildType_name (fuel : Nat) :
    (∀ ty name c m, Wp (buildType fuel ty name) c m fun b _ => b.node.name = name) ∧
    (∀ ty name c m, Wp (buildBody fuel ty name) c m fun b _ => b.node.name = name) := by
  induction fuel with
  | zero => exact ⟨fun _ _ _ _ => by simp [buildType], fun _ _ _ _ => by simp [buildBody]⟩
  | succ fuel ih =>
    refine ⟨fun ty name c m => ?_, fun ty name c m => ?_⟩
    · -- the body is built under the name, and the attributes keep it
      rw [wp_buildType]
      intro _
      refine (ih.2 ty name c _).mono fun b m₂ hb => ?_
      exact (wp_applyAttributes_name b.node ty.attrs).mono fun r _ hr => by
        simpa [hr] using hb
    · simp only [buildBody]
      rcases ty.body with b | ⟨bases, ms⟩ | ms | ⟨u, es⟩ | es | inner | q
      case builtin =>
        simp only [wp_bind, wp_pure, Eval.buildBuiltin]
        split
        · simp [Node.fresh]
        · split <;> simp
      case struct =>
        cases fuel
        · simp [buildStruct]
        · simp only [wp_bind, wp_pure, buildStruct, wp_cursor, wp_pushFrame]
          exact Wp.of_post fun _ _ => Wp.of_post fun _ _ => by simp [Node.fresh]
      case union =>
        cases fuel
        · simp [buildUnion]
        · simp only [wp_bind, wp_pure, buildUnion, wp_cursor, wp_pushFrame]
          exact Wp.of_post fun _ _ => by simp [Node.fresh]
      case enum =>
        cases fuel
        · simp [buildEnum]
        · rcases hs : u.size? with _ | size <;>
            simp only [wp_bind, wp_pure, wp_fault, buildEnum, hs]
          exact Wp.of_post fun _ _ => by simp [Node.fresh]
      case bitfield =>
        cases fuel
        · simp [buildBitfield]
        · simp only [wp_bind, wp_pure, buildBitfield, wp_cursor]
          exact Wp.of_post fun _ _ => by simp [Node.fresh]
      case «alias» =>
        simp only [wp_bind, wp_pure]
        exact (ih.1 inner name c m).mono fun b _ hb => hb
      case forward =>
        simp only [wp_bind, wp_read]
        split
        · exact ih.1 _ name c m
        · simp

lemma buildElement_named (fuel : Nat) (ty : TypeDecl) (i : Nat) :
    Wp (buildElement fuel ty i) c m fun e m' => Laid m e m' ∧ e.name = elementName i := by
  refine ((buildSpec fuel).buildElement ty i c m).and ?_ |>.mono fun e m' h => ⟨h.1.toLaid, h.2⟩
  cases fuel with
  | zero => simp [buildElement]
  | succ fuel =>
    simp only [buildElement, wp_bind, wp_tick, wp_pure]
    exact fun _ => (buildType_name fuel).1 ty _ c _

end Names

/-! ### The three loops -/

section Loops

variable {c : Context} {ty : TypeDecl}

/-- The elements `es` built from `m` to `m'` after the `acc` ones, the first of them numbered
`count`: the loop returns them after the earlier ones, they cover the cursor's advance end to
end, and each is named by its number. -/
structure Counted (count : Nat) (m : Machine) (acc r es : List Node) (m' : Machine) : Prop where
  result : r = acc.reverse ++ es
  tiles : Node.Tiles es m.cursor m'.cursor
  names : es.map Node.name = (List.range' count es.length).map elementName

namespace Counted

variable {count : Nat} {m m₁ m₂ m' : Machine} {acc r es : List Node} {e : Node}

lemma done (h : m'.cursor = m.cursor) : Counted count m acc acc.reverse [] m' :=
  ⟨by simp, h.symm, rfl⟩

/-- An element numbered `count` built at the cursor, then the rest of the loop. -/
lemma cons (hc : m₁.cursor = m.cursor) (he : Laid m₁ e m₂) (hn : e.name = elementName count)
    (h : Counted (count + 1) m₂ (e :: acc) r es m') : Counted count m acc r (e :: es) m' :=
  ⟨by simp [h.result], ⟨he.offset.trans hc, by rw [he.offset, ← he.cursor]; exact h.tiles⟩,
    by simp [h.names, List.range'_succ, hn]⟩

end Counted

lemma wp_evalExpr_run {m : Machine} {P : Value → Machine → Prop} (fuel : Nat) (e : Expr)
    (h : ∀ v m₁, ((evalExpr fuel e).run c).run m = .ok v m₁ → m.SameLayout m₁ → P v m₁) :
    Wp (evalExpr fuel e) c m P :=
  fun v m₁ hv => h v m₁ hv ((exprKeepsLayout fuel).evalExpr e c m v m₁ hv)

/-- The loop of a fixed count builds the elements from `i` up to the count. -/
theorem fixedElements_counted (fuel : Nat) : ∀ (i n : Nat) (acc : List Node) (m : Machine),
    Wp (fixedElements fuel ty i n acc) c m fun r m' =>
      ∃ es, Counted i m acc r es m' ∧ es.length = n - i := by
  induction fuel with
  | zero => intros; simp [fixedElements]
  | succ fuel ih =>
    intro i n acc m
    simp only [fixedElements, wp_ite, wp_bind, wp_pure]
    refine ⟨fun hi => (buildElement_named fuel ty i).mono fun e m₁ he => ?_,
      fun hi => ⟨[], .done rfl, by simp; omega⟩⟩
    refine (ih (i + 1) n (e :: acc) m₁).mono fun r m' h => ?_
    obtain ⟨es, hes, hlen⟩ := h
    exact ⟨e :: es, .cons rfl he.1 he.2 hes, by simp; omega⟩

/-- The `while` loop evaluates its condition before each element, with the cursor at the
element's start, and stops at the first evaluation that is false. -/
theorem whileElements_counted (fuel : Nat) (cnd : Expr) : ∀ (count : Nat) (acc : List Node)
    (m : Machine), Wp (whileElements fuel ty cnd count acc) c m fun r m' =>
      ∃ es, Counted count m acc r es m' ∧ WhileRan c ty cnd count m es := by
  induction fuel with
  | zero => intros; simp [whileElements]
  | succ fuel ih =>
    intro count acc m
    simp only [whileElements, wp_bind]
    refine wp_evalExpr_run fuel cnd fun v m₁ hv h₁ => ?_
    simp only [wp_truth, wp_ite, wp_checkArrayLength, wp_bind, wp_pure]
    intro b hb
    refine ⟨fun hbt _ => ((buildElement_named fuel ty count).and (wp_ran _ c m₁)).mono
      fun e m₂ he => ?_, fun hbf => ⟨[], .done h₁.cursor, [m], rfl, rfl, fun j hj => ?_,
        fun j hj => absurd hj (by simp)⟩⟩
    · -- one element, built from where the condition left the state, then the rest of the loop
      refine (ih (count + 1) (e :: acc) m₂).mono fun r m' h => ?_
      obtain ⟨es, hes, ms, hlen, hhead, hms, hsteps⟩ := h
      obtain ⟨rest, rfl⟩ := List.head?_eq_some_iff.mp hhead
      refine ⟨e :: es, .cons h₁.cursor he.1.1 he.1.2 hes, m :: m₂ :: rest, by simp [hlen], rfl,
        fun j hj => ?_, fun j hj => ?_⟩
      · cases j with
        | zero => exact ⟨by simp, fuel, v, m₁, hv, by simp [hb, hbt]⟩
        | succ j =>
          obtain ⟨hcur, htest⟩ := hms j (by simpa using hj)
          refine ⟨?_, by simpa using htest⟩
          simp only [List.getElem_cons_succ, hcur, he.1.1.cursor, h₁.cursor,
            List.take_succ_cons, List.map_cons, List.sum_cons]
          omega
      · cases j with
        | zero => exact ⟨e, fuel, v, m₁, rfl, hv, by simp [hb, hbt], he.2⟩
        | succ j =>
          obtain ⟨e', f, v', m', he', hv', hb', hel⟩ := hsteps j (by simpa using hj)
          refine ⟨e', f, v', m', by simpa using he', by simpa using hv', hb', ?_⟩
          rw [show count + (j + 1) = count + 1 + j by omega]
          simpa using hel
    · -- the first evaluation is false: no element
      obtain rfl : j = 0 := by simpa using hj
      exact ⟨by simp, fuel, v, m₁, hv, by simp [hb, hbf]⟩

/-- The unsized loop goes on while the cursor is inside the data and stops after the first
element whose bytes are all zero. -/
theorem unsizedElements_counted (fuel : Nat) : ∀ (count : Nat) (acc : List Node) (m : Machine),
    Wp (unsizedElements fuel ty count acc) c m fun r m' =>
      ∃ es, Counted count m acc r es m' ∧ UnsizedEnds c m es := by
  induction fuel with
  | zero => intros; simp [unsizedElements]
  | succ fuel ih =>
    intro count acc m
    simp only [unsizedElements, wp_bind, wp_cursor, wp_read, wp_ite, wp_checkArrayLength,
      wp_readBytes, wp_pure]
    refine ⟨fun hin _ => (buildElement_named fuel ty count).mono fun e m₁ he bs hbs =>
      ⟨fun hz => ?_, fun hnz => ?_⟩, fun hout => ⟨[], .done rfl, ⟨by simp, by simp,
        fun _ => Nat.le_of_not_lt hout⟩⟩⟩
    · -- an all-zero element ends the array
      refine ⟨[e], .cons rfl he.1 he.2 (.done rfl), ⟨by simp, fun e' he' => ?_, by simp⟩⟩
      obtain rfl : e' = e := by simpa using he'.symm
      exact .inl ⟨bs, hbs, by simpa using hz⟩
    · refine (ih (count + 1) (e :: acc) m₁).mono fun r m' h => ?_
      obtain ⟨es, hes, hU⟩ := h
      have hnz' : ∃ b ∈ bs, b ≠ 0 := by simpa using hnz
      refine ⟨e :: es, .cons rfl he.1 he.2 hes, ⟨fun x hx => ?_, fun x hx => ?_, by simp⟩⟩
      · -- the elements before the last: this one, then those of the rest before its last
        cases es with
        | nil => simp at hx
        | cons e₁ es =>
          rcases List.mem_cons.mp (by simpa [List.dropLast_cons_cons] using hx) with rfl | hx
          · exact ⟨bs, hbs, hnz'⟩
          · exact hU.nonzero x hx
      · cases es with
        | nil =>
          -- the rest built nothing, so this element ended at the end of the data
          obtain rfl : x = e := by simpa using hx.symm
          exact .inr (by rw [he.1.offset, ← he.1.cursor]; exact hU.empty rfl)
        | cons e₁ es => exact hU.last x (by simpa using hx)

end Loops

/-! ### Arrays -/

section Arrays

variable {c : Context} {m : Machine}

lemma run_cursor : ((cursor : Eval Nat).run c).run m = .ok m.cursor m := rfl

/-- A node made while the node limit allows one more. -/
lemma run_newNode (name tn : String) (o s : Nat) (k : NodeKind)
    (h : ¬(0 < c.config.maxPatterns ∧ c.config.maxPatterns < m.patterns + 1)) :
    ((newNode name tn o s k).run c).run m =
      .ok ({ Node.fresh name tn o s k with endian := m.endian }) ({ m with patterns := m.patterns + 1 }) := by
  have h' : ¬(0 < c.config.maxPatterns ∧ c.config.maxPatterns ≤ m.patterns) := by omega
  simp only [newNode, countPattern, config, run_bind, run_modify, run_read, run_pure, run_get,
    run_ite]
  simp [h']

/-- The array node over the elements a loop built from the cursor. -/
lemma wp_arrayNode_counted {m₁ : Machine} {ty : TypeDecl} {r es : List Node} (name : String)
    (form : ArraySize) (h : Counted 0 m [] r es m₁) (hcounts : form.Counts c ty m es) :
    Wp (do
      let k ← cursor
      let node ← newNode name ty.displayName m.cursor (k - m.cursor) .array
      return { node with children := r }) c m₁ fun N _ => ArrayCounted c ty form m N := by
  obtain ⟨rfl, htiles, hnames⟩ := h
  have hend := htiles.eq_add_sum
  simp only [wp_cursor, wp_bind, wp_newNode, wp_pure]
  intro _
  refine ⟨rfl, by simpa [List.range_eq_range'] using hnames, ?_, by simpa using hcounts⟩
  simp only [Node.fresh]
  omega

/-- A successful build of an array that is not a string lays its elements from the cursor,
named `[0]`, `[1]`, …, as many as the form of its size says. -/
theorem buildArray_counted (fuel : Nat) (name : String) (ty : TypeDecl) (form : ArraySize)
    (hchar : ty.asBuiltin? ≠ some .char) (hchar16 : ty.asBuiltin? ≠ some .char16) :
    Wp (buildArray fuel name ty form) c m fun N _ => ArrayCounted c ty form m N := by
  cases fuel with
  | zero => simp [buildArray]
  | succ fuel =>
    rw [buildArray]
    split
    · exact absurd ‹_› hchar
    · exact absurd ‹_› hchar16
    · rw [wp_bind, wp_cursor]
      rcases form with count | cnd | _ <;> dsimp only <;> rw [wp_bind]
      · -- the count is evaluated first, with the cursor where it was
        refine wp_evalExpr_run fuel count fun v m₁ hv h₁ => ?_
        rw [wp_bind, wp_lift]
        intro n hn
        rw [wp_bind, wp_checkArrayLength]
        intro _
        rw [wp_bind]
        refine (fixedElements_counted fuel 0 n [] m₁).mono fun r m₂ h => ?_
        obtain ⟨es, ⟨hr, htiles, hnames⟩, hlen⟩ := h
        exact wp_arrayNode_counted name _ ⟨hr, h₁.cursor ▸ htiles, hnames⟩
          ⟨fuel, v, m₁, hv, by rw [hn, hlen, Nat.sub_zero]⟩
      · exact (whileElements_counted fuel cnd 0 [] m).mono fun r m₂ h =>
          h.elim fun es h => wp_arrayNode_counted name _ h.1 h.2
      · exact (unsizedElements_counted fuel 0 [] m).mono fun r m₂ h =>
          h.elim fun es h => wp_arrayNode_counted name _ h.1 h.2

/-- A `while` array whose condition is false from the start is an empty node of no bytes, not
a failure, when the node limit allows one more node. -/
theorem buildArray_while_empty (fuel : Nat) (name : String) (ty : TypeDecl) (cnd : Expr)
    (hchar : ty.asBuiltin? ≠ some .char) (hchar16 : ty.asBuiltin? ≠ some .char16)
    {v : Value} {m₁ : Machine} (hv : ((evalExpr fuel cnd).run c).run m = .ok v m₁)
    (hb : v.toBool = .ok false)
    (hlim : ¬(0 < c.config.maxPatterns ∧ c.config.maxPatterns < m₁.patterns + 1)) :
    ∃ N m', ((buildArray (fuel + 2) name ty (.whileCond cnd)).run c).run m = .ok N m' ∧
      N.children = [] ∧ N.size = 0 := by
  have hw : ((whileElements (fuel + 1) ty cnd 0 []).run c).run m = .ok ([]) m₁ := by
    simp only [whileElements, run_bind, hv, truth, hb, lift]
    rfl
  have hc : m₁.cursor = m.cursor := ((exprKeepsLayout fuel).evalExpr cnd c m v m₁ hv).cursor
  rw [buildArray]
  split
  · exact absurd ‹_› hchar
  · exact absurd ‹_› hchar16
  · simp only [run_bind, run_cursor, hw, hc, Nat.sub_self, run_newNode _ _ _ _ _ hlim]
    exact ⟨_, _, rfl, rfl, rfl⟩

end Arrays

/-- The construction law of arrays that are not strings: every successful build lays the
elements from the cursor, named `[0]`, `[1]`, … in order, is as large as they are together,
and has as many of them as the count says, as the condition allowed (true before each element,
with the cursor at its start, and false after the last, each time in the state the loop had
reached, each element built from where the condition left it) or as the unsized array's end
allowed (all zero, or the end of the data). A `while` array whose condition is false at once is an
empty node, not a failure.

**Proof sketch.** One lemma per loop of the builder, each by induction on the fuel, records
the elements, their names and the evaluations; the array node is laid over what the loop
built (`buildArray_counted`). The empty `while` array is a run computed step by step. -/
theorem arrayConstructionLaw (fuel : Nat) (name : String) (ty : TypeDecl) (c : Context)
    (m : Machine) (hchar : ty.asBuiltin? ≠ some .char) (hchar16 : ty.asBuiltin? ≠ some .char16) :
    (∀ form, Wp (buildArray fuel name ty form) c m fun N _ => ArrayCounted c ty form m N) ∧
    (∀ cnd v m₁, ((evalExpr fuel cnd).run c).run m = .ok v m₁ → v.toBool = .ok false →
      ¬(0 < c.config.maxPatterns ∧ c.config.maxPatterns < m₁.patterns + 1) →
      ∃ N m', ((buildArray (fuel + 2) name ty (.whileCond cnd)).run c).run m = .ok N m' ∧
        N.children = [] ∧ N.size = 0) :=
  ⟨fun form => buildArray_counted fuel name ty form hchar hchar16,
    fun cnd _ _ hv hb hlim => buildArray_while_empty fuel name ty cnd hchar hchar16 hv hb hlim⟩

/-- `u8 a[while (false)];` over two bytes is an empty array of no bytes. -/
theorem arrayConstructionLaw_whileFalse :
    (TypeDecl.ofBuiltin (.unsigned .w8) none ⟨0, 0, 1⟩).asBuiltin? ≠ some .char ∧
    (TypeDecl.ofBuiltin (.unsigned .w8) none ⟨0, 0, 1⟩).asBuiltin? ≠ some .char16 ∧
    ∃ N m', ((buildArray 3 "a" (TypeDecl.ofBuiltin (.unsigned .w8) none ⟨0, 0, 1⟩)
      (.whileCond (.lit (.bool false) ⟨0, 0, 1⟩))).run
        (Context.of ⟨[], []⟩ (ByteArray.mk #[1, 0]) RunConfig.standard)).run
        (Machine.initial []) = .ok N m' ∧ N.children = [] ∧ N.size = 0 :=
  ⟨by decide, by decide,
    (arrayConstructionLaw 1 "a" _ _ _ (by decide) (by decide)).2 _ (.bool false) _ rfl rfl
      (by decide)⟩

end ByteLayout

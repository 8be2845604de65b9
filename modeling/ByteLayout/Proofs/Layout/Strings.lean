import ByteLayout.Proofs.Eval.NodeCount
import ByteLayout.Proofs.Layout.Elements
import ByteLayout.Proofs.Layout.Fits

set_option autoImplicit false

/-!
# Strings and the arrays of their code units

An array of `char` or `char16` is a string: its builder reads the characters by a loop of its
own and makes one node, where the array of `u8` or `u16` with the same size builds a node for
every unit. With every limit disabled the two builds agree, both failing or both succeeding
with nodes of one offset and size and the cursor left at one place, except in three cases:

* a fixed count of zero placed past the end of the data: the string checks the empty range at
  its start and fails, the array builds no element and succeeds;
* an unsized `char16` string whose scan of units that are not zero comes to a last single
  byte: the string stops before that byte, the `u16` array builds an element over it and fails;
* an unsized string whose scan comes to the end of the data, or starts past it, less than a
  character below `2 ^ 64`: the string's test for one more character adds the cursor and the
  width on 64 bits and overflows, the array sees no data left and succeeds.

## Main definitions

* `RunConfig.Unlimited` — a configuration with all four limits disabled.
* `Data.ScanStops` — where an unsized scan over units that are not zero stops.
* `Data.ShortTail`, `Data.TopTail` — a scan that stops at a part of the data shorter than a
  unit, or at the end of the data at the top of the 64-bit space.
* `RunsAlike`, `BuildsAlike` — two runs that end alike, as loops and as builds.
* `ArraySize.StringDiverges` — where a string and the array of its units part ways.

## Main results

* `run_buildElement`, `buildElement_fails` — an element of a builtin type, with no limits.
* `whileChars_alike`, `unsizedChars_alike`, `fixedElements_run` — the loops side by side.
* `stringArrayAlike` — a string builds alike with the array of its units exactly when the two
  do not part ways.

## Design

The loops are compared by induction on their fuel, each step of one against a step of the
other, with states that differ in their node count alone: the array makes a node for each
element, and evaluation does not see that count (`Eval.countBlindAt`), so a `while` condition
evaluates alike on both sides.
-/

namespace ByteLayout

open Eval

/-- A configuration with the step, recursion, array and node limits all disabled. -/
structure RunConfig.Unlimited (cfg : RunConfig) : Prop where
  steps : cfg.maxSteps = 0
  recursion : cfg.maxRecursionDepth = 0
  arrays : cfg.maxArrayLength = 0
  patterns : cfg.maxPatterns = 0

/-- The state one step further, with the cursor `s` bytes on. -/
def Machine.advance (m : Machine) (s : Nat) : Machine :=
  { m with cursor := m.cursor + s, steps := m.steps + 1 }

@[simp] lemma Machine.advance_cursor (m : Machine) (s : Nat) :
    (m.advance s).cursor = m.cursor + s := rfl

@[simp] lemma TypeDecl.asBuiltin?_ofBuiltin (b : Builtin) (e : Option Endian) (sp : Span) :
    (TypeDecl.ofBuiltin b e sp).asBuiltin? = some b := rfl

lemma IntWidth.bytes_pos (w : IntWidth) : 0 < w.bytes := by
  cases w <;> decide

/-! ### Runs of the primitives with no limits -/

section Run

variable {c : Context} {m : Machine}

lemma run_tick (hU : c.config.Unlimited) :
    ((tick).run c).run m = .ok () ({ m with steps := m.steps + 1 }) := by
  simp only [tick, config, run_bind, run_modify, run_read, run_get, run_ite, run_fault, run_pure]
  simp [hU.steps]

lemma run_enter (hU : c.config.Unlimited) :
    ((enter).run c).run m = .ok () ({ m with depth := m.depth + 1 }) := by
  simp only [enter, config, run_bind, run_modify, run_read, run_get, run_ite, run_fault, run_pure]
  simp [hU.recursion]

lemma run_checkArrayLength (hU : c.config.Unlimited) (n : Nat) :
    ((checkArrayLength n).run c).run m = .ok () m := by
  simp only [checkArrayLength, config, run_bind, run_read, run_ite, run_fault, run_pure]
  simp [hU.arrays]

lemma run_newNode_unlimited (hU : c.config.Unlimited) (name tn : String) (o s : Nat)
    (k : NodeKind) :
    ((newNode name tn o s k).run c).run m =
      .ok ({ Node.fresh name tn o s k with endian := m.endian }) (m.withPatterns (m.patterns + 1)) :=
  run_newNode name tn o s k (by rw [hU.patterns]; omega)

lemma run_checkRange (o s : Nat) :
    ((checkRange o s).run c).run m =
      if o + s ≤ c.data.size then .ok () m
      else .error (EvalError.ofFault (.outOfBounds o s c.data.size)) m := by
  simp only [checkRange, run_bind, run_read, run_ite, run_fault, run_pure]
  split <;> split <;> first | rfl | omega

lemma run_readBytes (o s : Nat) :
    ((readBytes o s).run c).run m = match Data.read c.data o s with
      | .ok bs => .ok bs m
      | .error f => .error (EvalError.ofFault f) m := by
  simp only [readBytes, run_bind, run_read, run_lift]
  cases Data.read c.data o s <;> rfl

lemma run_setCursor (n : Nat) :
    ((setCursor n).run c).run m = .ok () ({ m with cursor := n }) := rfl

end Run

/-! ### One element -/

section Element

variable {c : Context} {m : Machine} {b : Builtin} {s : Nat}

/-- An element of a builtin type that fits the data is a node at the cursor as large as the
type, one step further, and one node more. -/
lemma run_buildElement (hU : c.config.Unlimited) (hs : b.size? = some s) (e : Option Endian)
    (sp : Span) (k i : Nat) (hin : m.cursor + s ≤ c.data.size) :
    ∃ N, N.offset = m.cursor ∧ N.size = s ∧
      ((buildElement (k + 3) (TypeDecl.ofBuiltin b e sp) i).run c).run m =
        .ok N ((m.advance s).withPatterns (m.patterns + 1)) := by
  simp only [buildElement, buildType, buildBody, TypeDecl.ofBuiltin, applyAttributes, List.foldlM,
    buildBuiltin, hs, run_bind, run_tick hU, run_enter hU, run_get, run_modify, run_pure,
    run_cursor, run_ite, run_checkRange, if_pos hin, run_newNode_unlimited hU, run_setCursor, leave,
    run_attempt, MonadExcept.ofExcept]
  -- the type's own byte order, if it has one, is set for the node and restored after it
  cases e <;> exact ⟨_, rfl, rfl, rfl⟩

/-- An element of a builtin type that does not fit the data fails, at any fuel. -/
lemma buildElement_fails (hU : c.config.Unlimited) (hs : b.size? = some s) (e : Option Endian)
    (sp : Span) (k i : Nat) (hout : c.data.size < m.cursor + s) :
    ∃ err m', ((buildElement k (TypeDecl.ofBuiltin b e sp) i).run c).run m = .error err m' := by
  rcases k with _ | _ | _ | k
  · simp only [buildElement, run_fault]
    exact ⟨_, _, rfl⟩
  · simp only [buildElement, buildType, run_bind, run_tick hU, run_fault]
    exact ⟨_, _, rfl⟩
  · simp only [buildElement, buildType, buildBody, run_bind, run_tick hU, run_enter hU, run_get,
      run_ite, run_modify, run_attempt, run_fault]
    cases e <;> exact ⟨_, _, rfl⟩
  · simp only [buildElement, buildType, buildBody, TypeDecl.ofBuiltin, buildBuiltin, hs, run_bind,
      run_tick hU, run_enter hU, run_get, run_modify, run_pure, run_cursor, run_ite,
      run_checkRange, if_neg (Nat.not_le.mpr hout), run_attempt]
    cases e <;> exact ⟨_, _, rfl⟩

end Element

/-! ### The loops side by side -/

/-- Two runs that both fail, or both succeed with states that differ in their node count
alone. -/
def RunsAlike {α β : Type} (r : EStateM.Result EvalError Machine α)
    (r' : EStateM.Result EvalError Machine β) : Prop :=
  (∃ err m err' m', r = .error err m ∧ r' = .error err' m') ∨
    ∃ a m b p, r = .ok a m ∧ r' = .ok b (m.withPatterns p)

section Loops

variable {c : Context} (hU : c.config.Unlimited) {b : Builtin} {s : Nat}
  (hs : b.size? = some s) (hpos : 0 < s) (e : Option Endian) (sp : Span)
include hU hs hpos

/-- A `while` string and the `while` array of its units, from states that differ in their
node count alone, run alike: each evaluates the condition with the cursor at the same place,
and reads a character where the other builds an element.

The induction is on the fuel, which both loops spend one at a time; the data left, at most
the fuel less four, keeps enough fuel for every element that fits. -/
theorem whileChars_alike (cnd : Expr) (start k : Nat) :
    ∀ (m : Machine) (p count : Nat) (acc : List Node), c.data.size + 4 ≤ k + m.cursor →
      RunsAlike (((whileChars k cnd start s).run c).run m)
        (((whileElements k (TypeDecl.ofBuiltin b e sp) cnd count acc).run c).run
          (m.withPatterns p)) := by
  induction k with
  | zero =>
    intro m p count acc _
    simp only [whileChars, whileElements, run_fault]
    exact .inl ⟨_, _, _, _, rfl, rfl⟩
  | succ k ih =>
    intro m p count acc hk
    simp only [whileChars, whileElements, run_bind, ((countBlindAt k).evalExpr cnd).blind]
    rcases hv : ((evalExpr k cnd).run c).run m with ⟨v, m₁⟩ | ⟨err, m₁⟩
    swap
    · exact .inl ⟨err, _, err, _, rfl, rfl⟩
    -- the condition is evaluated alike on both sides, and leaves the cursor where it was
    have hcur : m₁.cursor = m.cursor := ((exprKeepsLayout k).evalExpr cnd c m v m₁ hv).cursor
    simp only [countedAs, truth, run_lift]
    rcases hb : v.toBool with f | _ | _
    · exact .inl ⟨_, _, _, _, rfl, rfl⟩
    · exact .inr ⟨(), m₁, acc.reverse, p, rfl, rfl⟩
    simp only [if_true, run_bind, run_tick hU, run_cursor, run_checkArrayLength hU,
      run_checkRange]
    by_cases hin : m₁.cursor + s ≤ c.data.size
    · -- the element fits: one more step on both sides, then the rest of the loop
      obtain ⟨k, rfl⟩ : ∃ k', k = k' + 3 := ⟨k - 3, by omega⟩
      obtain ⟨N, -, -, hN⟩ := run_buildElement hU hs e sp k count (m := m₁.withPatterns p) hin
      rw [hN, if_pos hin]
      simp only [run_setCursor]
      exact ih (m₁.advance s) (p + 1) (count + 1) (N :: acc) (by simp; omega)
    · obtain ⟨err, m₂, herr⟩ := buildElement_fails hU hs e sp k count (m := m₁.withPatterns p)
        (by simpa using hin)
      rw [herr, if_neg hin]
      exact .inl ⟨_, _, _, _, rfl, rfl⟩

end Loops

/-- From `cur`, the unsized scan in units of `s` bytes passes only whole units of the data with
a byte that is not zero, and stops at a position `p` with no whole unit left such that `P p`. -/
def Data.ScanStops (data : ByteArray) (cur s : Nat) (P : Nat → Prop) : Prop :=
  ∃ j, data.size < cur + s * j + s ∧ P (cur + s * j) ∧
    ∀ i < j, ∃ bs, Data.read data (cur + s * i) s = .ok bs ∧ ∃ x ∈ bs, x ≠ 0

/-- The unsized scan comes to a last part of the data shorter than a unit, and that unit would
end below `2 ^ 64`. -/
def Data.ShortTail (data : ByteArray) (cur s : Nat) : Prop :=
  Data.ScanStops data cur s fun p => p < data.size ∧ p + s < 2 ^ 64

/-- The unsized scan comes to the end of the data, or starts past it, less than a unit below
`2 ^ 64`: the test for one more unit adds past 64 bits. -/
def Data.TopTail (data : ByteArray) (cur s : Nat) : Prop :=
  Data.ScanStops data cur s fun p => data.size ≤ p ∧ 2 ^ 64 ≤ p + s

namespace Data

variable {data : ByteArray} {cur s : Nat} {bs : List Nat} {P : Nat → Prop}

lemma read_inside (h : cur + s ≤ data.size) :
    Data.read data cur s = .ok ((data.extract cur (cur + s)).toList.map (·.toNat)) := by
  simp [Data.read, h]

/-- With no whole unit left, the scan stops where it is. -/
lemma scanStops_of_out (hout : data.size < cur + s) : ScanStops data cur s P ↔ P cur := by
  constructor
  · rintro ⟨j, -, hP, hunits⟩
    rcases j with _ | j
    · simpa using hP
    · -- a unit passed would lie in the data
      obtain ⟨bs, hbs, -⟩ := hunits 0 (Nat.succ_pos j)
      have := Data.le_of_read hbs
      simp only [Nat.mul_zero, Nat.add_zero] at this
      omega
  · intro hP
    exact ⟨0, by simpa using hout, by simpa using hP, fun _ h => absurd h (Nat.not_lt_zero _)⟩

/-- A scan that meets a unit of zeros ends there, before any stop of the scan. -/
lemma not_scanStops_of_zero (hbs : Data.read data cur s = .ok bs) (hz : ∀ x ∈ bs, x = 0) :
    ¬ScanStops data cur s P := by
  rintro ⟨j, hj, -, hunits⟩
  have hle := Data.le_of_read hbs
  rcases j with _ | j
  · omega
  · obtain ⟨bs', hbs', x, hx, hx0⟩ := hunits 0 (Nat.succ_pos j)
    rw [Nat.mul_zero, Nat.add_zero, hbs] at hbs'
    cases hbs'
    exact hx0 (hz x hx)

/-- Past a whole unit with a byte that is not zero, the scan stops where it would have. -/
lemma scanStops_step (hbs : Data.read data cur s = .ok bs) (hnz : ∃ x ∈ bs, x ≠ 0) :
    ScanStops data cur s P ↔ ScanStops data (cur + s) s P := by
  have hle := Data.le_of_read hbs
  constructor
  · rintro ⟨j, hj, hP, hunits⟩
    rcases j with _ | j
    · omega
    refine ⟨j, by rw [Nat.mul_succ] at hj; omega, by rwa [Nat.mul_succ, ← Nat.add_assoc,
      Nat.add_right_comm] at hP, fun i hi => ?_⟩
    have := hunits (i + 1) (by omega)
    rwa [Nat.mul_succ, ← Nat.add_assoc, Nat.add_right_comm] at this
  · rintro ⟨j, hj, hP, hunits⟩
    refine ⟨j + 1, by rw [Nat.mul_succ]; omega, by rwa [Nat.mul_succ, ← Nat.add_assoc,
      Nat.add_right_comm], fun i hi => ?_⟩
    rcases i with _ | i
    · exact ⟨bs, by simpa using hbs, hnz⟩
    · have := hunits i (by omega)
      rwa [Nat.mul_succ, ← Nat.add_assoc, Nat.add_right_comm]

end Data

section Loops

variable {c : Context} (hU : c.config.Unlimited) {b : Builtin} {s : Nat}
  (hs : b.size? = some s) (hpos : 0 < s) (e : Option Endian) (sp : Span)
include hU hs hpos

/-- An unsized string and the unsized array of its units, from states that differ in their
node count alone, over data of fewer than `2 ^ 64` bytes: where the scan comes to a short
tail the string stops and the array fails; where it comes to the end of the data less than a
unit below `2 ^ 64` the string's test overflows and the array stops; elsewhere they run
alike.

The induction is on the fuel, as for `whileChars_alike`; at every unit the three outcomes are
told apart by where the unit ends: in the data, past it below `2 ^ 64`, or at `2 ^ 64` and
beyond. -/
theorem unsizedChars_alike (hdata : c.data.size < 2 ^ 64) (k : Nat) :
    ∀ (m : Machine) (p count : Nat) (acc : List Node), 0 < k → c.data.size + 4 ≤ k + m.cursor →
      (Data.ShortTail c.data m.cursor s →
        (∃ m', ((unsizedChars k s).run c).run m = .ok () m') ∧
        ∃ err m', ((unsizedElements k (TypeDecl.ofBuiltin b e sp) count acc).run c).run
          (m.withPatterns p) = .error err m') ∧
      (Data.TopTail c.data m.cursor s →
        (∃ m', ((unsizedChars k s).run c).run m = .error (EvalError.ofFault .addOverflow) m') ∧
        ∃ es m', ((unsizedElements k (TypeDecl.ofBuiltin b e sp) count acc).run c).run
          (m.withPatterns p) = .ok es m') ∧
      (¬Data.ShortTail c.data m.cursor s → ¬Data.TopTail c.data m.cursor s →
        RunsAlike (((unsizedChars k s).run c).run m)
          (((unsizedElements k (TypeDecl.ofBuiltin b e sp) count acc).run c).run
            (m.withPatterns p))) := by
  induction k with
  | zero => intros; omega
  | succ k ih =>
    intro m p count acc _ hk
    simp only [unsizedChars, unsizedElements, run_bind, run_cursor, run_read,
      Machine.withPatterns_cursor, run_ite]
    by_cases hin : m.cursor + s ≤ c.data.size
    · -- a whole unit is left, below `2 ^ 64`: both sides read it
      obtain ⟨k, rfl⟩ : ∃ k', k = k' + 3 := ⟨k - 3, by omega⟩
      obtain ⟨N, hNo, hNs, hN⟩ := run_buildElement hU hs e sp k count (m := m.withPatterns p) hin
      obtain ⟨bs, hread⟩ : ∃ bs, Data.read c.data m.cursor s = .ok bs :=
        ⟨_, Data.read_inside hin⟩
      rw [if_neg (by omega), if_pos hin, if_pos (by omega), run_checkArrayLength hU]
      simp only [run_tick hU, run_readBytes, hread, run_setCursor, hN, hNo, hNs,
        Machine.withPatterns_cursor]
      by_cases hz : bs.all (· == 0) = true
      · -- an all-zero unit ends both
        have hzero : ∀ x ∈ bs, x = 0 := by simpa using hz
        simp only [hz, Bool.not_true, Bool.false_eq_true, if_false, if_true, run_pure]
        exact ⟨fun h => absurd h (Data.not_scanStops_of_zero hread hzero),
          fun h => absurd h (Data.not_scanStops_of_zero hread hzero),
          fun _ _ => .inr ⟨(), m.advance s, _, p + 1, rfl, rfl⟩⟩
      · -- a unit with a byte that is not zero: both go on one unit further
        have hnz : ∃ x ∈ bs, x ≠ 0 := by simpa using hz
        simp only [hz, Bool.not_false, Bool.false_eq_true, if_false, if_true, Data.ShortTail,
          Data.TopTail, Data.scanStops_step hread hnz]
        exact ih (m.advance s) (p + 1) (count + 1) (N :: acc) (by omega) (by simp; omega)
    have hout : c.data.size < m.cursor + s := by omega
    simp only [Data.ShortTail, Data.TopTail, Data.scanStops_of_out hout]
    by_cases htop : m.cursor + s ≥ 2 ^ 64
    · rw [if_pos htop]
      by_cases hlt : m.cursor < c.data.size
      · -- the string's test overflows, and the element does not fit
        obtain ⟨err, m₂, herr⟩ := buildElement_fails hU hs e sp k count (m := m.withPatterns p)
          (by simpa using hin)
        rw [if_pos hlt, run_checkArrayLength hU]
        simp only [herr]
        exact ⟨fun h => absurd h.2 (by omega), fun h => absurd h.1 (by omega),
          fun _ _ => .inl ⟨_, _, _, _, rfl, rfl⟩⟩
      · -- past the end of the data: the string's test overflows, the array stops
        rw [if_neg hlt]
        exact ⟨fun h => absurd h.1 hlt, fun _ => ⟨⟨_, rfl⟩, _, _, rfl⟩,
          fun _ h => absurd ⟨by omega, htop⟩ h⟩
    rw [if_neg htop, if_neg hin]
    by_cases hlt : m.cursor < c.data.size
    · -- a last part shorter than a unit: the string stops before it, the element fails on it
      obtain ⟨err, m₂, herr⟩ := buildElement_fails hU hs e sp k count (m := m.withPatterns p)
        (by simpa using hin)
      rw [if_pos hlt, run_checkArrayLength hU]
      simp only [herr]
      exact ⟨fun _ => ⟨⟨m, rfl⟩, _, _, rfl⟩, fun h => absurd h.2 htop,
        fun h => absurd ⟨hlt, by omega⟩ h⟩
    · -- at the end of the data or past it: both stop
      rw [if_neg hlt]
      exact ⟨fun h => absurd h.1 hlt, fun h => absurd h.2 htop,
        fun _ _ => .inr ⟨(), m, acc.reverse, p, rfl, rfl⟩⟩

/-- The elements `i` to `n - 1` of a fixed count, from the cursor: they are built when they
fit the data, with the cursor after the last, and fail otherwise. -/
theorem fixedElements_run (n k : Nat) :
    ∀ (i : Nat) (acc : List Node) (m : Machine), 4 ≤ k → c.data.size + 4 ≤ k + m.cursor →
      ((n ≤ i ∨ m.cursor + (n - i) * s ≤ c.data.size) →
        ∃ es m', ((fixedElements k (TypeDecl.ofBuiltin b e sp) i n acc).run c).run m =
          .ok es m' ∧ m'.cursor = m.cursor + (n - i) * s) ∧
      (¬(n ≤ i ∨ m.cursor + (n - i) * s ≤ c.data.size) →
        ∃ err m', ((fixedElements k (TypeDecl.ofBuiltin b e sp) i n acc).run c).run m =
          .error err m') := by
  induction k with
  | zero => intros; omega
  | succ k ih =>
    intro i acc m hk4 hk
    simp only [fixedElements, run_ite, run_bind, run_pure]
    by_cases hi : i < n
    · rw [if_pos hi]
      -- the elements left after this one
      obtain ⟨d, hd⟩ : ∃ d, n - i = d + 1 := ⟨n - i - 1, by omega⟩
      have hd' : n - (i + 1) = d := by omega
      have hds : (n - i) * s = d * s + s := by rw [hd, Nat.succ_mul]
      have hlast : n ≤ i + 1 → d * s = 0 := fun h => by
        rw [show d = 0 by omega, Nat.zero_mul]
      by_cases hin : m.cursor + s ≤ c.data.size
      · -- the rest fits exactly when the whole does
        have hrest : (n ≤ i + 1 ∨ m.cursor + s + d * s ≤ c.data.size) ↔
            m.cursor + (n - i) * s ≤ c.data.size := by
          rw [hds]
          omega
        obtain ⟨k, rfl⟩ : ∃ k', k = k' + 3 := ⟨k - 3, by omega⟩
        obtain ⟨N, -, -, hN⟩ := run_buildElement hU hs e sp k i hin
        rw [hN]
        obtain ⟨hok, hfail⟩ := ih (i + 1) (N :: acc) ((m.advance s).withPatterns (m.patterns + 1))
          (by omega) (by simp; omega)
        simp only [Machine.withPatterns_cursor, Machine.advance_cursor, hd'] at hok hfail
        refine ⟨fun h => ?_, fun h => hfail (by rw [hrest]; omega)⟩
        obtain ⟨es, m', hrun, hcur⟩ := hok (hrest.mpr (by omega))
        exact ⟨es, m', hrun, by rw [hcur, hds]; omega⟩
      · obtain ⟨err, m₂, herr⟩ := buildElement_fails hU hs e sp k i (m := m) (by omega)
        rw [herr]
        exact ⟨fun h => absurd h (by omega), fun _ => ⟨err, m₂, rfl⟩⟩
    · rw [if_neg hi]
      exact ⟨fun _ => ⟨_, m, rfl, by simp; omega⟩, fun h => absurd (.inl (by omega)) h⟩

end Loops

/-! ### The nodes at the end -/

/-- The node a string builder makes once its characters are read from `start`. -/
def stringNode (name : String) (ty : TypeDecl) (start unit : Nat) : Eval Node := do
  let size := (← cursor) - start
  let node ← if unit = 1 then newNode name "char" start size .string
    else newNode name "char16" start size .string16
  return if ty.endian.isSome then { node with endian := ty.endian } else node

/-- The node an array builder makes once its elements are built from `start`. -/
def arrayNode (name : String) (ty : TypeDecl) (start : Nat) (elements : List Node) :
    Eval Node := do
  let size := (← cursor) - start
  let node ← newNode name ty.displayName start size .array
  return { node with children := elements }

section Equations

variable {c : Context} {m : Machine} (fuel : Nat) (name : String)

lemma run_buildString_fixed (ty : TypeDecl) (count : Expr) (unit : Nat) :
    ((buildString (fuel + 1) name ty (.fixed count) unit).run c).run m =
      ((do
        let n ← lift (← evalExpr fuel count).toUnsigned
        checkArrayLength n
        if n ≥ 2 ^ 64 || n * unit ≥ 2 ^ 64 then fault (.stringTooLong n)
        checkRange m.cursor (n * unit)
        setCursor (m.cursor + n * unit)
        stringNode name ty m.cursor unit).run c).run m := by
  simp only [buildString, stringNode, run_bind, run_cursor]

lemma run_buildString_whileCond (ty : TypeDecl) (cnd : Expr) (unit : Nat) :
    ((buildString (fuel + 1) name ty (.whileCond cnd) unit).run c).run m =
      ((whileChars fuel cnd m.cursor unit >>= fun _ =>
        stringNode name ty m.cursor unit).run c).run m := rfl

lemma run_buildString_unsized (ty : TypeDecl) (unit : Nat) :
    ((buildString (fuel + 1) name ty .unsized unit).run c).run m =
      ((unsizedChars fuel unit >>= fun _ => stringNode name ty m.cursor unit).run c).run m := rfl

variable (w : IntWidth) (e : Option Endian) (sp : Span)

lemma run_buildArray_fixed (count : Expr) :
    ((buildArray (fuel + 1) name (TypeDecl.ofBuiltin (.unsigned w) e sp) (.fixed count)).run
        c).run m =
      ((do
        let n ← lift (← evalExpr fuel count).toUnsigned
        checkArrayLength n
        let elements ← fixedElements fuel (TypeDecl.ofBuiltin (.unsigned w) e sp) 0 n []
        arrayNode name (TypeDecl.ofBuiltin (.unsigned w) e sp) m.cursor elements).run c).run m := by
  simp only [buildArray, TypeDecl.asBuiltin?_ofBuiltin, arrayNode, run_bind, run_cursor]

lemma run_buildArray_whileCond (cnd : Expr) :
    ((buildArray (fuel + 1) name (TypeDecl.ofBuiltin (.unsigned w) e sp) (.whileCond cnd)).run
        c).run m =
      ((whileElements fuel (TypeDecl.ofBuiltin (.unsigned w) e sp) cnd 0 [] >>=
        arrayNode name (TypeDecl.ofBuiltin (.unsigned w) e sp) m.cursor).run c).run m := by
  simp only [buildArray, TypeDecl.asBuiltin?_ofBuiltin, arrayNode, run_bind, run_cursor]

lemma run_buildArray_unsized :
    ((buildArray (fuel + 1) name (TypeDecl.ofBuiltin (.unsigned w) e sp) .unsized).run c).run m =
      ((unsizedElements fuel (TypeDecl.ofBuiltin (.unsigned w) e sp) 0 [] >>=
        arrayNode name (TypeDecl.ofBuiltin (.unsigned w) e sp) m.cursor).run c).run m := by
  simp only [buildArray, TypeDecl.asBuiltin?_ofBuiltin, arrayNode, run_bind, run_cursor]

end Equations

/-- Two builds that both fail, or both succeed with nodes of one offset and size and the
cursor left at one place. -/
def BuildsAlike (r r' : EStateM.Result EvalError Machine Node) : Prop :=
  (∃ err m err' m', r = .error err m ∧ r' = .error err' m') ∨
    ∃ N m N' m', r = .ok N m ∧ r' = .ok N' m' ∧ N.offset = N'.offset ∧
      N.size = N'.size ∧ m.cursor = m'.cursor

section Nodes

variable {c : Context} (hU : c.config.Unlimited) (name : String)
include hU

lemma run_stringNode (ty : TypeDecl) (start unit : Nat) (m : Machine) :
    ∃ N, N.offset = start ∧ N.size = m.cursor - start ∧
      ((stringNode name ty start unit).run c).run m = .ok N (m.withPatterns (m.patterns + 1)) := by
  simp only [stringNode, run_bind, run_cursor, run_ite, run_newNode_unlimited hU, run_pure]
  split <;> split <;> exact ⟨_, rfl, rfl, rfl⟩

lemma run_arrayNode (ty : TypeDecl) (start : Nat) (es : List Node) (m : Machine) :
    ∃ N, N.offset = start ∧ N.size = m.cursor - start ∧
      ((arrayNode name ty start es).run c).run m = .ok N (m.withPatterns (m.patterns + 1)) := by
  simp only [arrayNode, run_bind, run_cursor, run_newNode_unlimited hU, run_pure]
  exact ⟨_, rfl, rfl, rfl⟩

/-- Loops that run alike from one start end in builds alike. -/
lemma buildsAlike_of_runsAlike {x : Eval Unit} {y : Eval (List Node)} {m m' : Machine}
    (h : RunsAlike ((x.run c).run m) ((y.run c).run m')) (tyC tyU : TypeDecl) (start unit : Nat) :
    BuildsAlike (((x >>= fun _ => stringNode name tyC start unit).run c).run m)
      (((y >>= arrayNode name tyU start).run c).run m') := by
  rw [run_bind, run_bind]
  rcases h with ⟨err, m₁, err', m₁', hx, hy⟩ | ⟨_, m₁, es, p, hx, hy⟩
  · rw [hx, hy]
    exact .inl ⟨err, m₁, err', m₁', rfl, rfl⟩
  · obtain ⟨N, hNo, hNs, hN⟩ := run_stringNode hU name tyC start unit m₁
    obtain ⟨N', hNo', hNs', hN'⟩ := run_arrayNode hU name tyU start es (m₁.withPatterns p)
    simp only [hx, hy, hN, hN']
    exact .inr ⟨_, _, _, _, rfl, rfl, hNo.trans hNo'.symm, by rw [hNs, hNs']; rfl, rfl⟩

end Nodes

/-! ### Strings against the arrays of their units -/

/-- Where a string of `unit`-byte characters and the array of its units part ways, built from
`m` with its count evaluated at `fuel`: a fixed count of zero placed past the end of the data,
and an unsized scan that comes to a last part of the data shorter than a unit or to the end
of the data less than a unit below `2 ^ 64`. -/
def ArraySize.StringDiverges (c : Context) (fuel : Nat) (m : Machine) (unit : Nat) :
    ArraySize → Prop
  | .fixed count => ∃ v m₁, ((evalExpr fuel count).run c).run m = .ok v m₁ ∧
      v.toUnsigned = .ok 0 ∧ c.data.size < m.cursor
  | .whileCond _ => False
  | .unsized => Data.ShortTail c.data m.cursor unit ∨ Data.TopTail c.data m.cursor unit

lemma stringDiverges_fixed_iff {c : Context} {fuel : Nat} {m m₁ : Machine} {unit : Nat}
    {count : Expr} {v : Value} (hv : ((evalExpr fuel count).run c).run m = .ok v m₁) :
    (ArraySize.fixed count).StringDiverges c fuel m unit ↔
      v.toUnsigned = .ok 0 ∧ c.data.size < m.cursor := by
  simp [ArraySize.StringDiverges, hv]

section Forms

variable {c : Context} (hU : c.config.Unlimited) (w : IntWidth) (name : String) (tyC : TypeDecl)
  (e : Option Endian) (sp : Span) (fuel : Nat) (m : Machine) (hfuel : c.data.size + 4 ≤ fuel)
include hU hfuel

/-- A fixed count: the string takes the range of its characters in one check at its start,
the array builds its elements one after the other. -/
theorem fixedString_alike (hdata : c.data.size < 2 ^ 64) (count : Expr) :
    BuildsAlike (((buildString (fuel + 1) name tyC (.fixed count) w.bytes).run c).run m)
      (((buildArray (fuel + 1) name (TypeDecl.ofBuiltin (.unsigned w) e sp) (.fixed count)).run
        c).run m) ↔
    ¬(ArraySize.fixed count).StringDiverges c fuel m w.bytes := by
  rw [run_buildString_fixed, run_buildArray_fixed]
  simp only [run_bind]
  rcases hv : ((evalExpr fuel count).run c).run m with ⟨v, m₁⟩ | ⟨err, m₁⟩
  swap
  · simp only [ArraySize.StringDiverges, hv, reduceCtorEq, false_and, exists_false,
      not_false_eq_true, iff_true]
    exact .inl ⟨err, m₁, err, m₁, rfl, rfl⟩
  have hcur : m₁.cursor = m.cursor := ((exprKeepsLayout fuel).evalExpr count c m v m₁ hv).cursor
  rw [stringDiverges_fixed_iff hv]
  simp only [run_lift]
  rcases hn : v.toUnsigned with f | n
  · simp only [reduceCtorEq, false_and, not_false_eq_true, iff_true]
    exact .inl ⟨_, _, _, _, rfl, rfl⟩
  simp only [run_checkArrayLength hU, Except.ok.injEq]
  have hu := w.bytes_pos
  obtain ⟨hok, hfail⟩ := fixedElements_run hU (b := .unsigned w) rfl hu e sp n fuel 0 [] m₁
    (by omega) (by omega)
  simp only [Nat.sub_zero, hcur] at hok hfail
  by_cases hfit : m.cursor + n * w.bytes ≤ c.data.size
  · -- both take the whole range: the string is not too long for the data
    have hsmall : ¬((decide (n ≥ 2 ^ 64) || decide (n * w.bytes ≥ 2 ^ 64)) = true) := by
      have : n ≤ n * w.bytes := Nat.le_mul_of_pos_right n hu
      simp only [Bool.or_eq_true, decide_eq_true_eq, not_or]
      omega
    obtain ⟨es, m', hrun, hc'⟩ := hok (.inr hfit)
    obtain ⟨N, hNo, hNs, hN⟩ := run_stringNode hU name tyC m.cursor w.bytes
      { m₁ with cursor := m.cursor + n * w.bytes }
    obtain ⟨N', hNo', hNs', hN'⟩ :=
      run_arrayNode hU name (TypeDecl.ofBuiltin (.unsigned w) e sp) m.cursor es m'
    simp only [if_neg hsmall, run_bind, run_checkRange, if_pos hfit, run_setCursor, hN, hrun,
      hN']
    refine iff_of_true (.inr ⟨_, _, _, _, rfl, rfl, hNo.trans hNo'.symm, ?_, by simp [hc']⟩)
      (by omega)
    rw [hNs, hNs', hc']
  · -- the string refuses what does not fit; the array too, unless it is empty
    simp only [run_ite, run_bind, run_fault, run_checkRange, if_neg hfit]
    by_cases hn0 : n = 0
    · subst hn0
      obtain ⟨es, m', hrun, -⟩ := hok (.inl le_rfl)
      obtain ⟨N', -, -, hN'⟩ :=
        run_arrayNode hU name (TypeDecl.ofBuiltin (.unsigned w) e sp) m.cursor es m'
      simp only [hrun, hN']
      refine iff_of_false ?_ (by simp only [true_and, not_not]; omega)
      rintro (⟨_, _, _, _, -, h⟩ | ⟨_, _, _, _, h, -⟩)
      · cases h
      · split at h <;> cases h
    · obtain ⟨err, m₂, herr⟩ := hfail (by omega)
      simp only [herr]
      refine iff_of_true ?_ (by omega)
      split <;> exact .inl ⟨_, _, _, _, rfl, rfl⟩

/-- A `while` condition: the two never part ways. -/
theorem whileString_alike (cnd : Expr) :
    BuildsAlike (((buildString (fuel + 1) name tyC (.whileCond cnd) w.bytes).run c).run m)
      (((buildArray (fuel + 1) name (TypeDecl.ofBuiltin (.unsigned w) e sp) (.whileCond cnd)).run
        c).run m) ↔
    ¬(ArraySize.whileCond cnd).StringDiverges c fuel m w.bytes := by
  rw [run_buildString_whileCond, run_buildArray_whileCond]
  have h := whileChars_alike hU (b := .unsigned w) rfl w.bytes_pos e sp cnd m.cursor fuel m
    m.patterns 0 [] (by omega)
  rw [Machine.withPatterns_self] at h
  exact iff_of_true (buildsAlike_of_runsAlike hU name h _ _ _ _) not_false

/-- No size: the two part ways exactly where the scan comes to a short tail or to the end of
the data at the top of the 64-bit space. -/
theorem unsizedString_alike (hdata : c.data.size < 2 ^ 64) :
    BuildsAlike (((buildString (fuel + 1) name tyC .unsized w.bytes).run c).run m)
      (((buildArray (fuel + 1) name (TypeDecl.ofBuiltin (.unsigned w) e sp) .unsized).run
        c).run m) ↔
    ¬ArraySize.unsized.StringDiverges c fuel m w.bytes := by
  rw [run_buildString_unsized, run_buildArray_unsized]
  obtain ⟨hshort, htop, hlong⟩ := unsizedChars_alike hU (b := .unsigned w) rfl w.bytes_pos e sp
    hdata fuel m m.patterns 0 [] (by omega) (by omega)
  rw [Machine.withPatterns_self] at hshort htop hlong
  simp only [ArraySize.StringDiverges, not_or]
  by_cases ht : Data.ShortTail c.data m.cursor w.bytes
  · -- the string is made, the array fails
    obtain ⟨⟨m', hc⟩, err, m'', hu⟩ := hshort ht
    obtain ⟨N, -, -, hN⟩ := run_stringNode hU name tyC m.cursor w.bytes m'
    rw [run_bind, run_bind, hc, hu]
    simp only [hN]
    refine iff_of_false ?_ fun h => h.1 ht
    rintro (⟨_, _, _, _, h, -⟩ | ⟨_, _, _, _, -, h, -⟩) <;> cases h
  by_cases ht' : Data.TopTail c.data m.cursor w.bytes
  · -- the string's test overflows, the array is made
    obtain ⟨⟨m', hc⟩, es, m'', hu⟩ := htop ht'
    obtain ⟨N', -, -, hN'⟩ :=
      run_arrayNode hU name (TypeDecl.ofBuiltin (.unsigned w) e sp) m.cursor es m''
    rw [run_bind, run_bind, hc, hu]
    simp only [hN']
    refine iff_of_false ?_ fun h => h.2 ht'
    rintro (⟨_, _, _, _, -, h⟩ | ⟨_, _, _, _, h, -⟩) <;> cases h
  · exact iff_of_true (buildsAlike_of_runsAlike hU name (hlong ht ht') _ _ _ _) ⟨ht, ht'⟩

end Forms

/-- **Strings against the arrays of their units.** With every limit disabled and data of fewer
than `2 ^ 64` bytes, a `char` (or `char16`) array and the `u8` (or `u16`) array with the same
size, from the same state, either both fail or both succeed with nodes of one offset and size
and the cursor left at one place, exactly when they do not part ways
(`ArraySize.StringDiverges`). The string builder sits one call below the array builder, so
the string is given one fuel more, and its count and loop run at the fuel `fuel` of the
array's; the fuel covers the data with four to spare, enough for every element that fits.

**Proof sketch.** By the form of the size. A fixed count is evaluated alike; the string
checks its range once, the array element by element (`fixedElements_run`). A `while` and an
unsized loop are compared step by step with the element loop (`whileChars_alike`,
`unsizedChars_alike`), and loops that run alike end in nodes alike
(`buildsAlike_of_runsAlike`). -/
theorem stringArrayAlike {c : Context} (hU : c.config.Unlimited) (hdata : c.data.size < 2 ^ 64)
    {cb : Builtin} {w : IntWidth} (hb : (cb = .char ∧ w = .w8) ∨ (cb = .char16 ∧ w = .w16))
    (name : String) (e e' : Option Endian) (sp sp' : Span) (size : ArraySize) (fuel : Nat)
    (m : Machine) (hfuel : c.data.size + 4 ≤ fuel) :
    BuildsAlike (((buildArray (fuel + 2) name (TypeDecl.ofBuiltin cb e sp) size).run c).run m)
      (((buildArray (fuel + 1) name (TypeDecl.ofBuiltin (.unsigned w) e' sp') size).run c).run m) ↔
    ¬size.StringDiverges c fuel m w.bytes := by
  have hstr : buildArray (fuel + 2) name (TypeDecl.ofBuiltin cb e sp) size =
      buildString (fuel + 1) name (TypeDecl.ofBuiltin cb e sp) size w.bytes := by
    rcases hb with ⟨rfl, rfl⟩ | ⟨rfl, rfl⟩ <;> simp only [buildArray, TypeDecl.asBuiltin?_ofBuiltin] <;> rfl
  rw [hstr]
  cases size with
  | fixed count => exact fixedString_alike hU w name _ e' sp' fuel m hfuel hdata count
  | whileCond cnd => exact whileString_alike hU w name _ e' sp' fuel m hfuel cnd
  | unsized => exact unsizedString_alike hU w name _ e' sp' fuel m hfuel hdata

/-- `char16 s[]` and `u16 s[]` over the bytes `01 00 05`: the string stops after its one
character, before the last byte, where the array fails on its second element. And `char s[]`
and `u8 s[]` at the last 64-bit address over no data: the string's test adds past 64 bits,
where the array stops at once. -/
theorem stringArrayAlike_edges :
    ¬BuildsAlike
      (((buildArray 9 "s" (TypeDecl.ofBuiltin .char16 none ⟨0, 6, 1⟩) .unsized).run
        (Context.of ⟨[], []⟩ (ByteArray.mk #[1, 0, 5]) ⟨0, 0, 0, 0, .little⟩)).run
        (Machine.initial []))
      (((buildArray 8 "s" (TypeDecl.ofBuiltin (.unsigned .w16) none ⟨0, 3, 1⟩) .unsized).run
        (Context.of ⟨[], []⟩ (ByteArray.mk #[1, 0, 5]) ⟨0, 0, 0, 0, .little⟩)).run
        (Machine.initial [])) ∧
    ¬BuildsAlike
      (((buildArray 6 "s" (TypeDecl.ofBuiltin .char none ⟨0, 4, 1⟩) .unsized).run
        (Context.of ⟨[], []⟩ ByteArray.empty ⟨0, 0, 0, 0, .little⟩)).run
        { Machine.initial [] with cursor := 2 ^ 64 - 1 })
      (((buildArray 5 "s" (TypeDecl.ofBuiltin (.unsigned .w8) none ⟨0, 2, 1⟩) .unsized).run
        (Context.of ⟨[], []⟩ ByteArray.empty ⟨0, 0, 0, 0, .little⟩)).run
        { Machine.initial [] with cursor := 2 ^ 64 - 1 }) :=
  ⟨fun h => (stringArrayAlike ⟨rfl, rfl, rfl, rfl⟩ (by decide) (.inr ⟨rfl, rfl⟩) "s" none none
      ⟨0, 6, 1⟩ ⟨0, 3, 1⟩ .unsized 7 (Machine.initial []) (by decide)).mp h
      (.inl ⟨1, by decide, ⟨by decide, by decide⟩, fun i hi => ⟨[1, 0], by
        obtain rfl : i = 0 := by omega
        decide +kernel, 1, by simp, by decide⟩⟩),
    fun h => (stringArrayAlike ⟨rfl, rfl, rfl, rfl⟩ (by decide) (.inl ⟨rfl, rfl⟩) "s" none none
      ⟨0, 4, 1⟩ ⟨0, 2, 1⟩ .unsized 4 _ (by decide)).mp h
      (.inr ⟨0, by decide, ⟨by decide, by decide⟩, fun _ hi => absurd hi (Nat.not_lt_zero _)⟩)⟩

/-- `char s[0] @ 100;` -/
def tokensNoCharsFar : Array Token := #[
  tokenAt (.builtin .char) 0 4, tokenAt (.ident "s") 5 6, tokenAt (.symbol "[") 6 7,
  tokenAt (.int 0) 7 8, tokenAt (.symbol "]") 8 9, tokenAt (.symbol "@") 10 11,
  tokenAt (.int 100) 12 15, tokenAt (.symbol ";") 15 16, tokenAt .eof 16 16]

/-- `u8 s[0] @ 100;` -/
def tokensNoBytesFar : Array Token := #[
  tokenAt (.builtin (.unsigned .w8)) 0 2, tokenAt (.ident "s") 3 4, tokenAt (.symbol "[") 4 5,
  tokenAt (.int 0) 5 6, tokenAt (.symbol "]") 6 7, tokenAt (.symbol "@") 8 9,
  tokenAt (.int 100) 10 13, tokenAt (.symbol ";") 13 14, tokenAt .eof 14 14]

lemma Except.eq_error_of_map {ε α β : Type} {x : Except ε α} {f : α → β} {err : ε}
    (h : x.map f = .error err) : x = .error err := by
  cases x <;> simp_all [Except.map]

/-- `char s[] @ 0xFFFFFFFFFFFFFFFF;` -/
def tokensCharsTop : Array Token := #[
  tokenAt (.builtin .char) 0 4, tokenAt (.ident "s") 5 6, tokenAt (.symbol "[") 6 7,
  tokenAt (.symbol "]") 7 8, tokenAt (.symbol "@") 9 10,
  tokenAt (.int 0xFFFFFFFFFFFFFFFF) 11 29, tokenAt (.symbol ";") 29 30, tokenAt .eof 30 30]

/-- `u8 s[] @ 0xFFFFFFFFFFFFFFFF;` -/
def tokensBytesTop : Array Token := #[
  tokenAt (.builtin (.unsigned .w8)) 0 2, tokenAt (.ident "s") 3 4, tokenAt (.symbol "[") 4 5,
  tokenAt (.symbol "]") 5 6, tokenAt (.symbol "@") 7 8,
  tokenAt (.int 0xFFFFFFFFFFFFFFFF) 9 27, tokenAt (.symbol ";") 27 28, tokenAt .eof 28 28]

/-- With every limit disabled, an empty `char` string placed past the end of four bytes is
refused, while the empty `u8` array placed there is a node of no bytes; and an unsized `char`
string at the last 64-bit address over no data stops the run on an overflow, while the
unsized `u8` array there is a node of no bytes. -/
theorem charArrays_part_from_byteArrays :
    ((∃ p, parseTokens tokensNoCharsFar = .ok p ∧
      runProgram p (ByteArray.mk #[0, 0, 0, 0]) ⟨0, 0, 0, 0, .little⟩ [] =
        .error ⟨.outOfBounds 100 0 4, some 1, some "s"⟩) ∧
    ∃ p, parseTokens tokensNoBytesFar = .ok p ∧
      ∃ ev, runProgram p (ByteArray.mk #[0, 0, 0, 0]) ⟨0, 0, 0, 0, .little⟩ [] = .ok ev ∧
        ∃ N ∈ ev.patterns, N.offset = 100 ∧ N.size = 0) ∧
    ((∃ p, parseTokens tokensCharsTop = .ok p ∧
      runProgram p ByteArray.empty ⟨0, 0, 0, 0, .little⟩ [] =
        .error ⟨.addOverflow, some 1, some "s"⟩) ∧
    ∃ p, parseTokens tokensBytesTop = .ok p ∧
      ∃ ev, runProgram p ByteArray.empty ⟨0, 0, 0, 0, .little⟩ [] = .ok ev ∧
        ∃ N ∈ ev.patterns, N.offset = 2 ^ 64 - 1 ∧ N.size = 0) :=
  ⟨⟨⟨_, Except.eq_ok_get (by decide +kernel),
      Except.eq_error_of_map (f := fun _ => ()) (by decide +kernel)⟩,
    _, Except.eq_ok_get (by decide +kernel), _, Except.eq_ok_get (by decide +kernel),
    _, List.head_mem (List.ne_nil_of_length_pos (by decide +kernel)), by decide +kernel,
    by decide +kernel⟩,
  ⟨⟨_, Except.eq_ok_get (by decide +kernel),
      Except.eq_error_of_map (f := fun _ => ()) (by decide +kernel)⟩,
    _, Except.eq_ok_get (by decide +kernel), _, Except.eq_ok_get (by decide +kernel),
    _, List.head_mem (List.ne_nil_of_length_pos (by decide +kernel)), by decide +kernel,
    by decide +kernel⟩⟩

end ByteLayout

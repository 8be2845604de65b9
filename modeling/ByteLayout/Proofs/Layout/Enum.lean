import ByteLayout.Proofs.Layout.Fits
import ByteLayout.Proofs.Eval.Limits
import ByteLayout.Proofs.Value.Operators

set_option autoImplicit false

/-!
# Enum tables

An enum's table pairs each entry with a value: the entry's expression, evaluated one entry
after the other, cast to the underlying type in little endian and kept to the type's width.
An entry written without a value gets from the parser the previous entry's expression plus
one, and the first such entry the literal zero. So a later entry evaluates the previous
expression once more and adds one. That is the previous value plus one, modulo the width,
when the previous expression evaluates steadily to an integer, as every integer constant
expression does: it reads nothing from the state and gives one value at every fuel.

A double breaks the law: the cast to an integer type truncates toward zero, so
`A = -0.5, B` gives `A` the value zero and `B`, which evaluates `-0.5 + 1 = 0.5`, the value
zero as well.

## Main definitions

* `Expr.Constant` — integer constant expressions: integer, truth and character literals,
  the operators, casts to integer types and the sizes of builtin types.
* `Expr.Steady` — every successful evaluation from a state keeps it and gives one integer
  operand.
* `NodeKind.enumTable` — the table of an enum node.

## Main results

* `Expr.Constant.steady` — integer constant expressions evaluate steadily.
* `run_enumEntries_cons` — the table of an enum, one entry at a time.
* `enumAutoIncrement` — the table names the entries in order, a literal zero gives zero, and
  an entry that adds one to a constant previous expression gets the previous value plus one.
* `enumHalfBelowZero_repeats` — `A = -0.5, B` gives both entries the value zero.
-/

namespace ByteLayout

open Eval

/-! ### Integer operands stay integer operands -/

lemma except_bind_eq_ok {α β : Type} {x : Except EvalFault α} {f : α → Except EvalFault β}
    {b : β} : (x >>= f) = .ok b ↔ ∃ a, x = .ok a ∧ f a = .ok b := by
  cases x <;> simp [bind, Except.bind]

namespace Value

variable {a v w : Value}

lemma isInteger_valueOf (s : Bool) (x : Int) : (Word.valueOf s x).IsInteger := by
  cases s
  · have h1 := Word.readAs_nonneg x
    have h2 : Word.readAs false x < 2 ^ 128 := Int.emod_lt_of_pos _ (by positivity)
    simp only [Word.valueOf, Bool.false_eq_true, if_false, IsInteger]
    omega
  · have h1 := Int.le_bmod (x := x) (m := 2 ^ 128) (by positivity)
    have h2 := Int.bmod_lt (x := x) (m := 2 ^ 128) (by positivity)
    simp only [Word.valueOf, if_true, IsInteger, Word.readAs]
    norm_num at h1 h2 ⊢
    omega

lemma isInteger_arith {s : Bool} {op : BinOp} {x y : Int} (h : Word.arith s op x y = .ok w) :
    w.IsInteger := by
  cases op <;> simp only [Word.arith] at h
  case div | mod =>
    split_ifs at h
    cases h
    exact isInteger_valueOf _ _
  case logAnd | logOr | logXor | eq | ne | lt | gt | le | ge => cases h; trivial
  all_goals cases h; exact isInteger_valueOf _ _

lemma isInteger_complement (v : Value) : v.complement.IsInteger := by
  cases v with
  | bool b => trivial
  | _ => exact isInteger_valueOf _ _

lemma isInteger_unary {op : UnaryOp} (hv : v.IsInteger) (h : unary op v = .ok w) :
    w.IsInteger := by
  cases op with
  | plus =>
    cases v <;> simp only [IsInteger] at hv <;> cases h <;> assumption
  | neg =>
    rw [unary_neg_of_isInteger hv] at h
    cases h
    exact isInteger_valueOf _ _
  | not =>
    rw [unary_not_of_isInteger hv] at h
    cases h
    trivial
  | bitNot =>
    rw [unary_bitNot_of_isInteger hv] at h
    cases h
    exact isInteger_complement v

lemma isInteger_binary {op : BinOp} {b : Value} (ha : a.IsInteger) (hb : b.IsInteger)
    (h : binary op a b = .ok w) : w.IsInteger := by
  rw [binary_of_isInteger op ha hb] at h
  exact isInteger_arith h

lemma isInteger_signExtend (n : Nat) (w : IntWidth) :
    (sint (Word.signExtend n w.bits)).IsInteger := by
  rw [Word.signExtend_eq_bmod n w.bits w.bits_pos w.bits_le]
  have hle : (2 : Int) ^ w.bits ≤ 2 ^ 128 := pow_le_pow_right₀ (by norm_num) w.bits_le
  have h1 := Int.le_bmod (x := n) (m := 2 ^ w.bits) (by positivity)
  have h2 := Int.bmod_lt (x := n) (m := 2 ^ w.bits) (by positivity)
  simp only [IsInteger]
  push_cast at h1 h2 ⊢
  omega

lemma isInteger_cast {ty : Builtin} {e : Endian} (hf : ty ≠ .float) (hd : ty ≠ .double)
    (hs : ty ≠ .str) (hv : v.IsInteger) (h : v.cast ty e = .ok w) : w.IsInteger := by
  have hu := toUnsigned_of_isInteger hv
  cases ty with
  | unsigned iw =>
    rw [cast_unsigned hu] at h
    cases h
    have hlt := Word.ofWidth_lt iw.bytes_le (Word.readAs false v.integer).toNat e
    have hle : 2 ^ (8 * iw.bytes) ≤ 2 ^ 128 := Nat.pow_le_pow_right (by norm_num) iw.bits_le
    exact lt_of_lt_of_le hlt hle
  | signed iw =>
    rw [cast_signed hu] at h
    cases h
    exact isInteger_signExtend _ iw
  | float => exact absurd rfl hf
  | double => exact absurd rfl hd
  | str => exact absurd rfl hs
  | auto => cases h; exact hv
  | bool | char | char16 =>
    simp only [cast, toBool_of_isInteger hv, hu, except_ok_bind] at h
    cases h
    trivial

lemma integer_valueOf (s : Bool) (x : Int) : (Word.valueOf s x).integer = Word.readAs s x := by
  cases s
  · exact Int.toNat_of_nonneg (Word.readAs_nonneg x)
  · rfl

/-- Adding one to an integer operand adds one to its word, in its low `k ≤ 128` bits. -/
lemma toUnsigned_add_one (hv : v.IsInteger) (h : binary .add v (.uint 1) = .ok w) {k : Nat}
    (hk : k ≤ 128) :
    ∃ u u', v.toUnsigned = .ok u ∧ w.toUnsigned = .ok u' ∧ u' % 2 ^ k = (u + 1) % 2 ^ k := by
  have h1 : (uint 1).IsInteger := by norm_num [IsInteger]
  rw [binary_of_isInteger .add hv h1] at h
  simp only [Word.arith] at h
  cases h
  refine ⟨_, _, toUnsigned_of_isInteger hv, toUnsigned_of_isInteger (isInteger_valueOf _ _), ?_⟩
  rw [integer_valueOf, Word.readAs_false_readAs]
  -- both words are the integer plus one in their low `k` bits
  set s := v.isSigned || (uint 1).isSigned
  have hX : Word.readAs false (Word.readAs s v.integer + Word.readAs s (uint 1).integer) % 2 ^ k =
      (v.integer % 2 ^ k + 1 % 2 ^ k) % 2 ^ k := by
    rw [Word.readAs_emod_two_pow false _ hk, Int.add_emod, Word.readAs_emod_two_pow _ _ hk,
      Word.readAs_emod_two_pow _ _ hk]
    rfl
  have hI : (Word.readAs false v.integer + 1) % 2 ^ k =
      (v.integer % 2 ^ k + 1 % 2 ^ k) % 2 ^ k := by
    rw [Int.add_emod, Word.readAs_emod_two_pow false _ hk]
  rw [← Int.natCast_inj]
  push_cast
  rw [Int.toNat_of_nonneg (Word.readAs_nonneg _), Int.toNat_of_nonneg (Word.readAs_nonneg _), hX,
    hI]

/-- An integer type keeps the low bits of a value's word, whichever its signedness. -/
lemma cast_toUnsigned_mod {iw : IntWidth} {b : Builtin}
    (hb : b ∈ [Builtin.unsigned iw, .signed iw])
    {u n : Nat} (hu : v.toUnsigned = .ok u) (h : (v.cast b .little >>= toUnsigned) = .ok n) :
    n % 2 ^ iw.bits = u % 2 ^ iw.bits := by
  simp only [List.mem_cons, List.not_mem_nil, or_false] at hb
  rcases hb with rfl | rfl
  · rw [cast_unsigned hu, except_ok_bind] at h
    cases h
    simp [Word.ofWidth_little iw.bytes_le, IntWidth.bits]
  · rw [cast_signed hu, except_ok_bind] at h
    cases h
    rw [Word.wrap_signExtend_mod _ _ iw.bits_pos iw.bits_le]
    simp [Word.ofWidth_little iw.bytes_le, IntWidth.bits]

end Value

/-! ### Steady expressions -/

namespace Eval

variable {α β : Type} {c : Context} {m : Machine}

/-- Every successful run of `x` from `m` keeps the state and gives the value `r` holds. -/
def Yields (x : Eval α) (c : Context) (m : Machine) (r : Except EvalFault α) : Prop :=
  Wp x c m fun a m' => r = .ok a ∧ m' = m

lemma Yields.bind {x : Eval α} {f : α → Eval β} {r : Except EvalFault α}
    {g : α → Except EvalFault β} (hx : Yields x c m r)
    (hf : ∀ a, r = .ok a → Yields (f a) c m (g a)) :
    Yields (x >>= f) c m (r >>= g) := by
  unfold Yields at hx ⊢
  rw [wp_bind]
  refine hx.mono fun a m' h => ?_
  obtain ⟨ha, rfl⟩ := h
  rw [ha]
  exact hf a ha

lemma yields_pure (a : α) : Yields (pure a : Eval α) c m (.ok a) := by
  simp [Yields]

lemma yields_lift (e : Except EvalFault α) : Yields (lift e) c m e := by
  simp [Yields]

lemma yields_withLine {x : Eval α} {r : Except EvalFault α} (l : Nat) :
    Yields (withLine l x) c m r ↔ Yields x c m r :=
  wp_withLine l x

lemma yields_fault (f : EvalFault) (r : Except EvalFault α) : Yields (fault f) c m r :=
  wp_fault f

lemma yields_ite (p : Prop) [Decidable p] {x y : Eval α} {r r' : Except EvalFault α}
    (hx : p → Yields x c m r) (hy : ¬p → Yields y c m r') :
    Yields (if p then x else y) c m (if p then r else r') := by
  split
  · exact hx ‹_›
  · exact hy ‹_›

end Eval

/-- Integer constant expressions: integer literals of the 128-bit range, truth values and
characters, combined by the operators, cast to types other than the floating-point ones and
`str`, and the sizes of builtin types. -/
inductive Expr.Constant : Expr → Prop
  | int {n : Nat} (s : Span) : n < 2 ^ 128 → Expr.Constant (.lit (.int n) s)
  | bool (b : Bool) (s : Span) : Expr.Constant (.lit (.bool b) s)
  | char (ch : Char) (s : Span) : Expr.Constant (.lit (.char ch) s)
  | unary (op : UnaryOp) {x : Expr} (s : Span) : x.Constant → (Expr.unary op x s).Constant
  | binary (op : BinOp) {l r : Expr} (s : Span) :
      l.Constant → r.Constant → (Expr.binary op l r s).Constant
  | ternary {x t f : Expr} (s : Span) :
      x.Constant → t.Constant → f.Constant → (Expr.ternary x t f s).Constant
  | cast {ty : Builtin} (e : Option Endian) {x : Expr} (s : Span) :
      ty ≠ .float → ty ≠ .double → ty ≠ .str → x.Constant →
      (Expr.cast ty e x s).Constant
  | sizeOfType (ty : Builtin) (s : Span) : (Expr.sizeOfType ty s).Constant

/-- An expression whose evaluations from a state all agree: at every fuel, a successful
evaluation keeps the state and gives the value that `r` holds, an integer operand. -/
def Expr.Steady (c : Context) (e : Expr) : Prop :=
  ∀ m, ∃ r : Except EvalFault Value, (∀ v, r = .ok v → v.IsInteger) ∧
    ∀ k, Yields (evalExpr k e) c m r

/-- The operators other than the two that short-circuit evaluate both operands. -/
lemma evalExpr_binary {op : BinOp} (h₁ : op ≠ .logAnd) (h₂ : op ≠ .logOr) (k : Nat)
    (l r : Expr) (s : Span) :
    evalExpr (k + 1) (.binary op l r s) = withLine s.line (do
      let a ← evalExpr k l
      let b ← evalExpr k r
      lift (Value.binary op a b)) := by
  cases op
  case logAnd => exact absurd rfl h₁
  case logOr => exact absurd rfl h₂
  all_goals rfl

/-- The outcome of `&&` or `||` from the outcomes of its operands: when the left operand's
truth satisfies `p` the result is `b₀` and the right operand is not looked at. -/
def shortCircuit (rl rr : Except EvalFault Value) (p : Bool → Prop) [DecidablePred p]
    (b₀ : Bool) : Except EvalFault Value :=
  rl >>= fun a => a.toBool >>= fun x =>
    if p x then .ok (.bool b₀) else rr >>= fun b => b.toBool >>= fun y => .ok (.bool y)

lemma isInteger_shortCircuit {rl rr : Except EvalFault Value} {p : Bool → Prop}
    [DecidablePred p] {b₀ : Bool} {w : Value} (h : shortCircuit rl rr p b₀ = .ok w) :
    w.IsInteger := by
  obtain ⟨a, -, h⟩ := except_bind_eq_ok.1 h
  obtain ⟨x, -, h⟩ := except_bind_eq_ok.1 h
  split at h
  · cases h
    trivial
  · obtain ⟨b, -, h⟩ := except_bind_eq_ok.1 h
    obtain ⟨y, -, h⟩ := except_bind_eq_ok.1 h
    cases h
    trivial

/-- Integer constant expressions evaluate steadily.

**Proof sketch.** Induction on the expression. Each case evaluates its operands, which keep
the state and give their one outcome, and combines them as the evaluator does; the outcome is
that combination computed in `Except`, and the operators and casts make integer operands of
integer operands. -/
theorem Expr.Constant.steady {e : Expr} (h : e.Constant) (c : Context) : e.Steady c := by
  induction h with
  | @int n s hn =>
    intro m
    refine ⟨.ok (.uint n), ?_, fun k => ?_⟩
    · rintro v ⟨⟩
      exact hn
    · cases k with
      | zero => exact yields_fault _ _
      | succ k =>
        simp only [evalExpr, yields_withLine]
        exact yields_pure _
  | bool b s =>
    intro m
    refine ⟨.ok (.bool b), ?_, fun k => ?_⟩
    · rintro v ⟨⟩
      trivial
    · cases k with
      | zero => exact yields_fault _ _
      | succ k =>
        simp only [evalExpr, yields_withLine]
        exact yields_pure _
  | char ch s =>
    intro m
    refine ⟨.ok (.char ch), ?_, fun k => ?_⟩
    · rintro v ⟨⟩
      trivial
    · cases k with
      | zero => exact yields_fault _ _
      | succ k =>
        simp only [evalExpr, yields_withLine]
        exact yields_pure _
  | unary op s _ ih =>
    intro m
    obtain ⟨r, hr, hx⟩ := ih m
    refine ⟨r >>= Value.unary op, fun w hw => ?_, fun k => ?_⟩
    · obtain ⟨a, ha, hw⟩ := except_bind_eq_ok.1 hw
      exact Value.isInteger_unary (hr a ha) hw
    · cases k with
      | zero => exact yields_fault _ _
      | succ k =>
        simp only [evalExpr, yields_withLine]
        exact (hx k).bind fun a _ => yields_lift _
  | binary op s _ _ ihl ihr =>
    intro m
    obtain ⟨rl, hrl, hl⟩ := ihl m
    obtain ⟨rr, hrr, hr⟩ := ihr m
    -- `&&` and `||` evaluate their right operand only when the left one does not decide
    by_cases h₁ : op = .logAnd
    · subst h₁
      refine ⟨shortCircuit rl rr (fun x => (!x) = true) false,
        fun w hw => isInteger_shortCircuit hw, fun k => ?_⟩
      cases k with
      | zero => exact yields_fault _ _
      | succ k =>
        simp only [evalExpr, yields_withLine, truth]
        exact (hl k).bind fun a _ => (yields_lift _).bind fun x _ =>
          yields_ite _ (fun _ => yields_pure _) fun _ =>
            (hr k).bind fun b _ => (yields_lift _).bind fun y _ => yields_pure _
    by_cases h₂ : op = .logOr
    · subst h₂
      refine ⟨shortCircuit rl rr (fun x => x = true) true,
        fun w hw => isInteger_shortCircuit hw, fun k => ?_⟩
      cases k with
      | zero => exact yields_fault _ _
      | succ k =>
        simp only [evalExpr, yields_withLine, truth]
        exact (hl k).bind fun a _ => (yields_lift _).bind fun x _ =>
          yields_ite _ (fun _ => yields_pure _) fun _ =>
            (hr k).bind fun b _ => (yields_lift _).bind fun y _ => yields_pure _
    refine ⟨rl >>= fun a => rr >>= fun b => Value.binary op a b, fun w hw => ?_, fun k => ?_⟩
    · obtain ⟨a, ha, hw⟩ := except_bind_eq_ok.1 hw
      obtain ⟨b, hb, hw⟩ := except_bind_eq_ok.1 hw
      exact Value.isInteger_binary (hrl a ha) (hrr b hb) hw
    · cases k with
      | zero => exact yields_fault _ _
      | succ k =>
        rw [evalExpr_binary h₁ h₂, yields_withLine]
        exact (hl k).bind fun a _ => (hr k).bind fun b _ => yields_lift _
  | ternary s _ _ _ ihc iht ihf =>
    intro m
    obtain ⟨rc, hrc, hc⟩ := ihc m
    obtain ⟨rt, hrt, ht⟩ := iht m
    obtain ⟨rf, hrf, hf⟩ := ihf m
    refine ⟨rc >>= fun a => a.toBool >>= fun b => if b = true then rt else rf, fun w hw => ?_,
      fun k => ?_⟩
    · obtain ⟨a, -, hw⟩ := except_bind_eq_ok.1 hw
      obtain ⟨b, -, hw⟩ := except_bind_eq_ok.1 hw
      split at hw
      · exact hrt w hw
      · exact hrf w hw
    · cases k with
      | zero => exact yields_fault _ _
      | succ k =>
        simp only [evalExpr, yields_withLine, truth]
        exact (hc k).bind fun a _ => (yields_lift _).bind fun b _ =>
          yields_ite _ (fun _ => ht k) (fun _ => hf k)
  | @cast ty e x s hf hd hs _ ih =>
    intro m
    obtain ⟨r, hr, hx⟩ := ih m
    refine ⟨r >>= fun v => v.cast ty (e.getD .little), fun w hw => ?_, fun k => ?_⟩
    · obtain ⟨a, ha, hw⟩ := except_bind_eq_ok.1 hw
      exact Value.isInteger_cast hf hd hs (hr a ha) hw
    · cases k with
      | zero => exact yields_fault _ _
      | succ k =>
        simp only [evalExpr, yields_withLine]
        exact (hx k).bind fun a _ => yields_lift _
  | sizeOfType ty s =>
    intro m
    cases hsz : ty.size? with
    | none =>
      refine ⟨.error (.sizeOfType ty.name), by rintro v ⟨⟩, fun k => ?_⟩
      cases k with
      | zero => exact yields_fault _ _
      | succ k =>
        simp only [evalExpr, yields_withLine, hsz]
        exact yields_fault _ _
    | some n =>
      have hn := Builtin.size?_le hsz
      refine ⟨.ok (.uint n), ?_, fun k => ?_⟩
      · rintro v ⟨⟩
        simp only [Value.IsInteger]
        omega
      · cases k with
        | zero => exact yields_fault _ _
        | succ k =>
          simp only [evalExpr, yields_withLine, hsz]
          exact yields_pure _

/-! ### The table of an enum -/

lemma enumEntries_cons (fuel : Nat) (b : Builtin) (e : EnumEntry) (es : List EnumEntry) :
    enumEntries (fuel + 1) b (e :: es) = (do
      let v ← evalExpr fuel e.value
      let n ← lift (← lift (v.cast b .little)).toUnsigned
      let t ← enumEntries (fuel + 1) b es
      return (e.name, n % 2 ^ (b.size?.getD 16 * 8)) :: t) := by
  simp only [enumEntries, List.mapM_cons, bind_assoc, pure_bind]

lemma run_enumEntries_cons (fuel : Nat) (b : Builtin) (e : EnumEntry) (es : List EnumEntry)
    (c : Context) (m m' : Machine) (t : List (String × Nat)) :
    ((enumEntries (fuel + 1) b (e :: es)).run c).run m = .ok t m' ↔
      ∃ v n m₁ t', ((evalExpr fuel e.value).run c).run m = .ok v m₁ ∧
        (v.cast b .little >>= Value.toUnsigned) = .ok n ∧
        ((enumEntries (fuel + 1) b es).run c).run m₁ = .ok t' m' ∧
        t = (e.name, n % 2 ^ (b.size?.getD 16 * 8)) :: t' := by
  rw [enumEntries_cons]
  simp only [run_bind, run_lift, run_pure]
  rcases hv : ((evalExpr fuel e.value).run c).run m with ⟨v, m₁⟩ | ⟨f, m₁⟩
  swap
  · simp
  rcases hc : v.cast b .little with f | cv
  · simp [hc, bind, Except.bind]
  rcases hu : cv.toUnsigned with f | n
  · simp [hc, hu]
  rcases hr : ((enumEntries (fuel + 1) b es).run c).run m₁ with ⟨ts, m₂⟩ | ⟨f, m₂⟩
  swap
  · simp [hc, hu, hr]
  simp only [hc, hu, hr, EStateM.Result.ok.injEq]
  constructor
  · rintro ⟨rfl, rfl⟩
    exact ⟨v, n, m₁, ts, ⟨rfl, rfl⟩, by rw [hc]; exact hu, hr, rfl⟩
  · rintro ⟨v', n', m₁', ts', ⟨rfl, rfl⟩, hn, hr', rfl⟩
    rw [hc, Value.except_ok_bind, hu, Except.ok.injEq] at hn
    rw [hr, EStateM.Result.ok.injEq] at hr'
    obtain ⟨rfl, rfl⟩ := hr'
    exact ⟨by rw [hn], rfl⟩

section Table

variable {fuel : Nat} {b : Builtin} {c : Context}

lemma run_enumEntries_nil (m : Machine) :
    ((enumEntries (fuel + 1) b []).run c).run m = .ok ([]) m :=
  rfl

/-- The table names the entries in their order. -/
lemma enumEntries_names {es : List EnumEntry} {m m' : Machine} {t : List (String × Nat)}
    (h : ((enumEntries (fuel + 1) b es).run c).run m = .ok t m') :
    t.map Prod.fst = es.map EnumEntry.name := by
  induction es generalizing m t with
  | nil =>
    rw [run_enumEntries_nil] at h
    cases h
    rfl
  | cons e es ih =>
    obtain ⟨v, n, m₁, t', -, -, hr, rfl⟩ := (run_enumEntries_cons fuel b e es c m m' t).1 h
    simp [ih hr]

/-- The bits an enum of an integer type keeps of its values. -/
lemma enumBits_eq {iw : IntWidth} (hb : b ∈ [Builtin.unsigned iw, .signed iw]) :
    b.size?.getD 16 * 8 = iw.bits := by
  simp only [List.mem_cons, List.not_mem_nil, or_false] at hb
  rcases hb with rfl | rfl <;> simp [Builtin.size?, IntWidth.bits, Nat.mul_comm]

lemma yields_evalExpr_lit (k : Nat) (v : Literal) (s : Span) (m : Machine) :
    Yields (evalExpr k (.lit v s)) c m (.ok v.value) := by
  cases k with
  | zero => exact yields_fault _ _
  | succ k =>
    simp only [evalExpr, yields_withLine]
    exact yields_pure _

/-- The expression the parser gives an entry written without a value adds one to the
previous entry's expression. -/
lemma yields_add_one {e : Expr} {m : Machine} {r : Except EvalFault Value}
    (he : ∀ k, Yields (evalExpr k e) c m r) (k : Nat) (s : Span) :
    Yields (evalExpr k (.binary .add e (.lit (.int 1) s) s)) c m
      (r >>= fun a => Value.binary .add a (.uint 1)) := by
  cases k with
  | zero => exact yields_fault _ _
  | succ k =>
    rw [evalExpr_binary (by decide) (by decide), yields_withLine]
    exact (he k).bind fun a _ => (yields_evalExpr_lit k _ s m).bind fun _ _ => yields_lift _

/-- An entry whose expression is the literal zero has the value zero. -/
lemma enumEntries_zero {iw : IntWidth} (hb : b ∈ [Builtin.unsigned iw, .signed iw])
    {es : List EnumEntry} {m m' : Machine} {t : List (String × Nat)}
    (h : ((enumEntries (fuel + 1) b es).run c).run m = .ok t m') :
    ∀ (i : Nat) (e : EnumEntry) (s : Span), es[i]? = some e → e.value = .lit (.int 0) s →
      (t[i]?).map Prod.snd = some 0 := by
  induction es generalizing m t with
  | nil => simp
  | cons e₀ es ih =>
    obtain ⟨v₀, n₀, m₁, t', hv₀, hn₀, hr, rfl⟩ :=
      (run_enumEntries_cons fuel b e₀ es c m m' t).1 h
    rintro (_ | i) e s he hz
    · simp only [List.getElem?_cons_zero, Option.some.injEq] at he
      subst he
      rw [hz] at hv₀
      obtain ⟨hv, -⟩ := yields_evalExpr_lit fuel _ s m v₀ m₁ hv₀
      simp only [Literal.value, Except.ok.injEq] at hv
      subst hv
      have h₀ := Value.cast_toUnsigned_mod hb rfl hn₀
      simp [enumBits_eq hb, h₀]
    · simp only [List.getElem?_cons_succ] at he ⊢
      exact ih hr i e s he hz

/-- An entry whose expression is an integer constant expression plus one, right after the
entry with that expression, has the value after that entry's, modulo `2 ^ iw.bits`. -/
lemma enumEntries_increment {iw : IntWidth} (hb : b ∈ [Builtin.unsigned iw, .signed iw])
    {es : List EnumEntry} {m m' : Machine} {t : List (String × Nat)}
    (h : ((enumEntries (fuel + 1) b es).run c).run m = .ok t m') :
    ∀ (i : Nat) (e e' : EnumEntry) (s : Span), es[i]? = some e → es[i + 1]? = some e' →
      e.value.Constant →
      e'.value = .binary .add e.value (.lit (.int 1) s) s →
      (t[i + 1]?).map Prod.snd = (t[i]?).map fun p => (p.2 + 1) % 2 ^ iw.bits := by
  induction es generalizing m t with
  | nil => simp
  | cons e₀ es ih =>
    obtain ⟨v₀, n₀, m₁, t', hv₀, hn₀, hr, rfl⟩ :=
      (run_enumEntries_cons fuel b e₀ es c m m' t).1 h
    rintro (_ | i) e e' s he he' hc hv
    · cases es with
      | nil => simp at he'
      | cons e₁ es =>
        obtain ⟨v₁, n₁, m₂, t'', hv₁, hn₁, -, rfl⟩ :=
          (run_enumEntries_cons fuel b e₁ es c m₁ m' t').1 hr
        simp only [List.getElem?_cons_zero, Option.some.injEq, List.getElem?_cons_succ] at he he'
        subst he he'
        -- the first expression keeps the state, and the second one evaluates it again
        obtain ⟨r, hri, hy⟩ := hc.steady c m
        obtain ⟨hr₀, rfl⟩ := hy fuel v₀ m₁ hv₀
        rw [hv] at hv₁
        obtain ⟨hadd, -⟩ := yields_add_one hy fuel s v₁ m₂ hv₁
        rw [hr₀, Value.except_ok_bind] at hadd
        obtain ⟨u₀, u₁, hu₀, hu₁, hu⟩ :=
          Value.toUnsigned_add_one (hri v₀ hr₀) hadd iw.bits_le
        have h₀ := Value.cast_toUnsigned_mod hb hu₀ hn₀
        have h₁ := Value.cast_toUnsigned_mod hb hu₁ hn₁
        simp only [List.getElem?_cons_zero, List.getElem?_cons_succ, Option.map_some,
          enumBits_eq hb, Option.some.injEq]
        rw [h₁, hu, h₀, Nat.mod_add_mod]
    · simp only [List.getElem?_cons_succ] at he he' ⊢
      exact ih hr i e e' s he he' hc hv

end Table

/-! ### The auto-increment law -/

/-- **Enum tables.** The table an enum of an integer type resolves to names its entries in
their order; an entry whose expression is the literal zero (what the parser gives a first
entry written without a value) has the value zero; and an entry whose expression is the
previous entry's plus one (what the parser gives a later entry written without a value) has
the previous value plus one, modulo `2 ^ iw.bits`, when the previous expression is an integer
constant expression.

**Proof sketch.** The table is built entry by entry (`run_enumEntries_cons`). The zero case
evaluates a literal. In the increment case the previous expression is evaluated twice;
constant expressions keep the state and give one value (`Expr.Constant.steady`), an integer
operand, whose word plus one is the word of the sum (`Value.toUnsigned_add_one`), and both
casts keep the low bits of the words (`Value.cast_toUnsigned_mod`). -/
theorem enumAutoIncrement {iw : IntWidth} {b : Builtin}
    (hb : b ∈ [Builtin.unsigned iw, .signed iw])
    (fuel : Nat) (es : List EnumEntry) (c : Context) (m m' : Machine) (t : List (String × Nat))
    (h : ((enumEntries (fuel + 1) b es).run c).run m = .ok t m') :
    t.map Prod.fst = es.map EnumEntry.name ∧
    (∀ (i : Nat) (e : EnumEntry) (s : Span), es[i]? = some e → e.value = .lit (.int 0) s →
      (t[i]?).map Prod.snd = some 0) ∧
    (∀ (i : Nat) (e e' : EnumEntry) (s : Span), es[i]? = some e → es[i + 1]? = some e' →
      e.value.Constant → e'.value = .binary .add e.value (.lit (.int 1) s) s →
      (t[i + 1]?).map Prod.snd = (t[i]?).map fun p => (p.2 + 1) % 2 ^ iw.bits) :=
  ⟨enumEntries_names h, enumEntries_zero hb h, enumEntries_increment hb h⟩

/-- `A = 255, B` in a `u8` enum: `B` wraps around to zero. -/
theorem enumAutoIncrement_wrapsAround :
    ((enumEntries 3 (.unsigned .w8)
        [⟨"A", .lit (.int 255) ⟨0, 0, 1⟩⟩,
          ⟨"B", .binary .add (.lit (.int 255) ⟨0, 0, 1⟩) (.lit (.int 1) ⟨0, 0, 1⟩)
            ⟨0, 0, 1⟩⟩]).run
        (Context.of ⟨[], []⟩ (ByteArray.mk #[]) RunConfig.standard)).run (Machine.initial []) =
      .ok ([("A", 255), ("B", 0)]) (Machine.initial []) ∧
    ([("A", 255), ("B", 0)][1]?).map Prod.snd =
      ([("A", 255), ("B", 0)][0]?).map fun p => (p.2 + 1) % 2 ^ IntWidth.w8.bits :=
  by
  refine ⟨?run, (enumAutoIncrement (by simp) 2 _ _ _ _ _ ?run).2.2 0 _ _ ⟨0, 0, 1⟩ rfl rfl
    (.int _ (by norm_num)) rfl⟩
  rfl

/-- The table of an enum node; no entries for other kinds. -/
def NodeKind.enumTable : NodeKind → List (String × Nat)
  | .enum t => t
  | _ => []

/-- `enum E : u8 { A = -0.5, B }; E e @ 0;` -/
def tokensEnumHalf : Array Token := #[
  tokenAt (.keyword "enum") 0 4, tokenAt (.ident "E") 5 6, tokenAt (.symbol ":") 7 8,
  tokenAt (.builtin (.unsigned .w8)) 9 11, tokenAt (.symbol "\x7b") 12 13,
  tokenAt (.ident "A") 14 15, tokenAt (.symbol "=") 16 17, tokenAt (.symbol "-") 18 19,
  tokenAt (.float ⟨0x3FE0000000000000⟩) 19 22, tokenAt (.symbol ",") 22 23,
  tokenAt (.ident "B") 24 25, tokenAt (.symbol "\x7d") 26 27, tokenAt (.symbol ";") 27 28,
  tokenAt (.ident "E") 29 30, tokenAt (.ident "e") 31 32, tokenAt (.symbol "@") 33 34,
  tokenAt (.int 0) 35 36, tokenAt (.symbol ";") 36 37, tokenAt .eof 37 37]

/-- An entry after a double does not take the previous value plus one: `B` evaluates
`-0.5 + 1 = 0.5`, and the cast truncates both doubles to zero, where the law asks for one. -/
theorem enumHalfBelowZero_repeats :
    ∃ p, parseTokens tokensEnumHalf = .ok p ∧
      ∃ ev, runProgram p (ByteArray.mk #[0]) RunConfig.standard [] = .ok ev ∧
        ∃ N ∈ ev.patterns, N.kind.enumTable = [("A", 0), ("B", 0)] :=
  ⟨_, Except.eq_ok_get (by decide +kernel), _, Except.eq_ok_get (by decide +kernel),
    _, List.head_mem (List.ne_nil_of_length_pos (by decide +kernel)), by decide +kernel⟩

end ByteLayout

import ByteLayout.Proofs.Syntax.Valid

set_option autoImplicit false

/-!
# Parsed programs are valid

Every program the parser returns is made of valid pieces against its own registry: each
statement stands in a place that admits it, and each type use, anywhere in the statements or
in the registered declarations, is a builtin, a forward reference to a registered name or a
copy of the registered declaration of its name, with its byte order possibly replaced. The
registry holds one entry per type declaration of the program, under its name, in the order
of the declarations.

## Main results

* `Parse.funValid` — function statements are valid, at every fuel.
* `Parse.topValid` — each top-level statement extends a coherent registry by the
  types it declares, and is valid against the registry that results.
* `parseTokens_wellFormed` — a parsed program is well formed, so valid
  (`Program.WellFormed.valid`), and its registry is the list of its type declarations, each
  under its own name, every name once.

## Design

The registry only grows between top-level statements: a declaration opens its name, reads
its body against the registry as it is, then registers itself, and its trailing attributes
change only its own entry. Validity against a registry is kept when the registry grows by
fresh names (`Piece.Sound.mono`), so what was read stays valid as the program goes on. The
parsers that only read are stepped over by their specifications in `Proofs/Syntax/Valid`.
-/

namespace ByteLayout

/-- Validity is kept when one more name is open. -/
lemma Piece.Sound.opened {R : List (String × TypeDecl)} {O : List String} {x : Piece}
    (h : x.Sound R O) (q : String) : x.Sound R (O ++ [q]) := by
  have h' := Piece.Sound.mono (E := []) h fun o ho => .inr (List.mem_append_left [q] ho)
  rwa [List.append_nil] at h'

namespace Parse

/-! ### Function bodies -/

section Functions

variable {R : List (String × TypeDecl)} {O : List String}

/-- The specification of each function of the parser of function bodies at one fuel. -/
structure FunValid (R : List (String × TypeDecl)) (O : List String) (fuel : Nat) : Prop where
  functionStatement : ValidRun R O (functionStatement fuel) fun st => (Piece.stmt .body st).Sound R O
  assignment : ValidRun R O (assignment fuel) fun st => (Piece.stmt .body st).Sound R O
  localDeclaration : ValidRun R O (localDeclaration fuel) fun st => (Piece.stmt .body st).Sound R O
  statementBody : ValidRun R O (statementBody fuel) fun ss =>
    ∀ st ∈ ss, (Piece.stmt .body st).Sound R O
  statementBlock : ∀ what acc, (∀ st ∈ acc, (Piece.stmt .body st).Sound R O) →
    ValidRun R O (statementBlock fuel what acc) fun ss => ∀ st ∈ ss, (Piece.stmt .body st).Sound R O

variable {fuel : Nat}

/-- An assignment `name op= value` is written out with a path to `name`, which has no
pieces of its own. -/
lemma assignment_valid (hRO : Coherent R O) :
    ValidRun R O (assignment (fuel + 1)) fun st => (Piece.stmt .body st).Sound R O := by
  intro s h₁ h₂
  simp only [assignment, wp_bind]
  refine KeepsTypes.stays _ h₁ h₂ fun span s h₁ h₂ => KeepsTypes.stays _ h₁ h₂ fun name s h₁ h₂ => ?_
  refine KeepsTypes.stays _ h₁ h₂ fun _ s h₁ h₂ => KeepsTypes.stays _ h₁ h₂ fun _ s h₁ h₂ => ?_
  refine (exprValid hRO fuel).expr.wp h₁ h₂ fun rhs s h₁ h₂ hr => ValidRun.ret h₁ h₂ ?_
  refine Piece.sound_stmt .bodyAssign fun y hy => ?_
  cases hy
  split
  · exact hr
  · exact Piece.sound_expr fun y hy => by
      cases hy with
      | binaryLeft => exact Piece.sound_expr fun z hz => by cases hz with | pathIndex hi => simp at hi
      | binaryRight => exact hr

lemma localDeclaration_valid (hRO : Coherent R O) :
    ValidRun R O (localDeclaration (fuel + 1)) fun st => (Piece.stmt .body st).Sound R O := by
  intro s h₁ h₂
  simp only [localDeclaration, wp_bind]
  refine KeepsTypes.stays _ h₁ h₂ fun span s h₁ h₂ => ?_
  refine (typeUse_valid hRO true).wp h₁ h₂ fun ty s h₁ h₂ hty => ?_
  refine KeepsTypes.stays _ h₁ h₂ fun _ s h₁ h₂ => ?_
  split
  · simp only [wp_bind]
    refine (memberVariable_valid (k := .body) (by decide) hty span).wp h₁ h₂
      fun d s h₁ h₂ hd => KeepsTypes.stays _ h₁ h₂ fun _ s h₁ h₂ => ?_
    split
    · exact ValidRun.ret h₁ h₂ hd
    split
    · -- an initialized variable is declared, then assigned
      simp only [wp_bind]
      refine (exprValid hRO fuel).expr.wp h₁ h₂ fun v s h₁ h₂ hv => ValidRun.ret h₁ h₂ ?_
      refine Piece.sound_stmt .bodyCompound fun y hy => ?_
      cases hy with
      | compound hm =>
        simp only [List.mem_cons, List.mem_nil_iff, or_false] at hm
        rcases hm with rfl | rfl
        · exact hd
        · exact Piece.sound_stmt .bodyAssign fun z hz => by
            cases hz
            exact hv
    · simp
  · simp

/-- A statement of a function body: an assignment, a `return`, `break` or `continue`, a
conditional, a loop, a call or a local declaration. -/
lemma functionStatement_valid (hRO : Coherent R O) (ih : FunValid R O fuel) :
    ValidRun R O (functionStatement (fuel + 1)) fun st => (Piece.stmt .body st).Sound R O := by
  intro s h₁ h₂
  -- each form is tried in turn; the branches are taken apart by `wp_ite`, as `split` would
  -- simplify the whole of the untried rest at every step
  simp -zeta only [functionStatement, wp_bind]
  refine KeepsTypes.stays _ h₁ h₂ fun span s h₁ h₂ => KeepsTypes.stays _ h₁ h₂ fun _ s h₁ h₂ => ?_
  refine (wp_ite _ _ _).mpr ⟨fun _ => ?_, fun _ => ?_⟩
  · simp only [wp_bind]
    exact ih.assignment.wp h₁ h₂ fun a s h₁ h₂ ha =>
      KeepsTypes.stays _ h₁ h₂ fun _ s h₁ h₂ => ValidRun.ret h₁ h₂ ha
  rw [wp_bind]
  refine KeepsTypes.stays _ h₁ h₂ fun _ s h₁ h₂ => (wp_ite _ _ _).mpr ⟨fun _ => ?_, fun _ => ?_⟩
  · -- `return`, with a value or without
    simp only [wp_bind]
    refine KeepsTypes.stays _ h₁ h₂ fun _ s h₁ h₂ => ?_
    split
    · simp only [pure_bind, wp_bind]
      exact KeepsTypes.stays _ h₁ h₂ fun _ s h₁ h₂ =>
        ValidRun.ret h₁ h₂ (Piece.sound_stmt .bodyReturn fun _ hy => by cases hy)
    · simp only [pure_bind, wp_bind]
      refine (exprValid hRO fuel).expr.wp h₁ h₂ fun v s h₁ h₂ hv => ?_
      refine KeepsTypes.stays _ h₁ h₂ fun _ s h₁ h₂ => ValidRun.ret h₁ h₂ ?_
      exact Piece.sound_stmt .bodyReturn fun y hy => by
        cases hy
        exact hv
  rw [wp_bind]
  refine KeepsTypes.stays _ h₁ h₂ fun _ s h₁ h₂ => (wp_ite _ _ _).mpr ⟨fun _ => ?_, fun _ => ?_⟩
  · simp only [wp_bind]
    exact KeepsTypes.stays _ h₁ h₂ fun _ s h₁ h₂ =>
      ValidRun.ret h₁ h₂ (Piece.sound_stmt .bodyBreak fun _ hy => by cases hy)
  rw [wp_bind]
  refine KeepsTypes.stays _ h₁ h₂ fun _ s h₁ h₂ => (wp_ite _ _ _).mpr ⟨fun _ => ?_, fun _ => ?_⟩
  · simp only [wp_bind]
    exact KeepsTypes.stays _ h₁ h₂ fun _ s h₁ h₂ =>
      ValidRun.ret h₁ h₂ (Piece.sound_stmt .bodyContinue fun _ hy => by cases hy)
  rw [wp_bind]
  refine KeepsTypes.stays _ h₁ h₂ fun _ s h₁ h₂ => (wp_ite _ _ _).mpr ⟨fun _ => ?_, fun _ => ?_⟩
  · -- a conditional
    simp only [wp_bind]
    refine (exprValid hRO fuel).expr.wp h₁ h₂ fun c s h₁ h₂ hc => ?_
    refine KeepsTypes.stays _ h₁ h₂ fun _ s h₁ h₂ => ?_
    split
    · simp only [wp_bind]
      refine ih.statementBody.wp h₁ h₂ fun t s h₁ h₂ ht => ?_
      refine KeepsTypes.stays _ h₁ h₂ fun _ s h₁ h₂ => ?_
      have hif : ∀ e, (∀ st ∈ e, (Piece.stmt .body st).Sound R O) →
          (Piece.stmt .body (.ifElse c t e span)).Sound R O := fun e he =>
        Piece.sound_stmt .bodyIf fun y hy => by
          cases hy with
          | ifCond => exact hc
          | ifThen hm => exact ht _ hm
          | ifElse hm => exact he _ hm
      split
      · simp only [wp_bind]
        exact ih.statementBody.wp h₁ h₂ fun e s h₁ h₂ he => ValidRun.ret h₁ h₂ (hif e he)
      · simp only [pure_bind]
        exact ValidRun.ret h₁ h₂ (hif [] (by simp))
    · simp
  rw [wp_bind]
  refine KeepsTypes.stays _ h₁ h₂ fun _ s h₁ h₂ => (wp_ite _ _ _).mpr ⟨fun _ => ?_, fun _ => ?_⟩
  · -- a `while` loop
    simp only [wp_bind]
    refine (exprValid hRO fuel).expr.wp h₁ h₂ fun c s h₁ h₂ hc => ?_
    refine KeepsTypes.stays _ h₁ h₂ fun _ s h₁ h₂ => ?_
    split
    · simp only [wp_bind]
      refine ih.statementBody.wp h₁ h₂ fun b s h₁ h₂ hb => ValidRun.ret h₁ h₂ ?_
      refine Piece.sound_stmt .bodyWhile fun y hy => ?_
      cases hy with
      | whileCond => exact hc
      | whileBody hm => exact hb _ hm
    · simp
  rw [wp_bind]
  refine KeepsTypes.stays _ h₁ h₂ fun _ s h₁ h₂ => (wp_ite _ _ _).mpr ⟨fun _ => ?_, fun _ => ?_⟩
  · -- a `for` loop is its declaration followed by a `while` loop with a step
    simp only [wp_bind]
    refine ih.localDeclaration.wp h₁ h₂ fun init s h₁ h₂ hinit => ?_
    refine KeepsTypes.stays _ h₁ h₂ fun _ s h₁ h₂ => ?_
    split
    · simp only [wp_bind]
      refine (exprValid hRO fuel).expr.wp h₁ h₂ fun c s h₁ h₂ hc => ?_
      refine KeepsTypes.stays _ h₁ h₂ fun _ s h₁ h₂ => ?_
      split
      · simp only [wp_bind]
        refine KeepsTypes.stays _ h₁ h₂ fun _ s h₁ h₂ => ?_
        split
        · simp only [wp_bind]
          refine ih.assignment.wp h₁ h₂ fun step s h₁ h₂ hstep => ?_
          refine KeepsTypes.stays _ h₁ h₂ fun _ s h₁ h₂ => ?_
          split
          · simp only [wp_bind]
            refine ih.statementBody.wp h₁ h₂ fun b s h₁ h₂ hb => ValidRun.ret h₁ h₂ ?_
            refine Piece.sound_stmt .bodyCompound fun y hy => ?_
            cases hy with
            | compound hm =>
              simp only [List.mem_cons, List.mem_nil_iff, or_false] at hm
              rcases hm with rfl | rfl
              · exact hinit
              · refine Piece.sound_stmt .bodyWhile fun z hz => ?_
                cases hz with
                | whileCond => exact hc
                | whileBody hm => exact hb _ hm
                | whilePost => exact hstep
          · simp
        · simp
      · simp
    · simp
  -- a call or a local declaration, before its semicolon
  simp only [wp_bind, pure_bind]
  refine KeepsTypes.stays _ h₁ h₂ fun _ s h₁ h₂ => ?_
  split
  · simp only [wp_bind]
    refine (call_valid hRO fuel).wp h₁ h₂ fun c s h₁ h₂ hc =>
      KeepsTypes.stays _ h₁ h₂ fun _ s h₁ h₂ => ValidRun.ret h₁ h₂ ?_
    obtain ⟨⟨name, ns, as, sp, rfl⟩, hc⟩ := hc
    exact Piece.sound_stmt .call fun y hy => by
      cases hy
      exact hc
  simp only [wp_bind]
  refine KeepsTypes.stays _ h₁ h₂ fun _ s h₁ h₂ => ?_
  split
  · simp only [wp_bind]
    exact ih.localDeclaration.wp h₁ h₂ fun d s h₁ h₂ hd =>
      KeepsTypes.stays _ h₁ h₂ fun _ s h₁ h₂ => ValidRun.ret h₁ h₂ hd
  · simp

lemma statementBlock_valid (ih : FunValid R O fuel) (what : String) (acc : List Stmt)
    (hacc : ∀ st ∈ acc, (Piece.stmt .body st).Sound R O) :
    ValidRun R O (statementBlock (fuel + 1) what acc) fun ss =>
      ∀ st ∈ ss, (Piece.stmt .body st).Sound R O := by
  intro s h₁ h₂
  simp only [statementBlock, wp_bind]
  refine KeepsTypes.stays _ h₁ h₂ fun _ s h₁ h₂ => ?_
  split
  · exact ValidRun.ret h₁ h₂ hacc
  simp only [wp_bind]
  refine KeepsTypes.stays _ h₁ h₂ fun _ s h₁ h₂ => ?_
  split
  · simp
  rw [wp_bind]
  refine ih.functionStatement.wp h₁ h₂ fun st s h₁ h₂ hst => ih.statementBlock what _ ?_ s h₁ h₂
  exact List.forall_mem_append.mpr ⟨hacc, List.forall_mem_singleton.mpr hst⟩

lemma statementBody_valid (ih : FunValid R O fuel) :
    ValidRun R O (statementBody (fuel + 1)) fun ss => ∀ st ∈ ss, (Piece.stmt .body st).Sound R O := by
  intro s h₁ h₂
  simp only [statementBody, wp_bind]
  refine KeepsTypes.stays _ h₁ h₂ fun _ s h₁ h₂ => ?_
  split
  · exact ih.statementBlock _ [] (by simp) s h₁ h₂
  · rw [wp_bind]
    exact ih.functionStatement.wp h₁ h₂ fun st s h₁ h₂ hst => ValidRun.ret h₁ h₂ (by simpa using hst)

/-- Every statement the parser of function bodies returns is valid, at every fuel. -/
theorem funValid (hRO : Coherent R O) (fuel : Nat) : FunValid R O fuel := by
  induction fuel with
  | zero =>
    constructor <;> intros <;> intro s _ _ <;>
      simp [functionStatement, assignment, localDeclaration, statementBody, statementBlock]
  | succ fuel ih =>
    exact ⟨functionStatement_valid hRO ih, assignment_valid hRO, localDeclaration_valid hRO,
      statementBody_valid ih, statementBlock_valid ih⟩

end Functions

/-! ### Top-level statements that read against the registry -/

section Reading

variable {R : List (String × TypeDecl)} {O : List String}

lemma parameters_valid (hRO : Coherent R O) (fuel : Nat) : ∀ unnamed acc,
    (∀ p ∈ acc, (Piece.use p.ty).Sound R O) →
    ValidRun R O (parameters fuel unnamed acc) fun ps => ∀ p ∈ ps, (Piece.use p.ty).Sound R O := by
  induction fuel with
  | zero =>
    intro _ _ _ s _ _
    simp [parameters]
  | succ fuel ih =>
    intro unnamed acc hacc s h₁ h₂
    simp only [parameters, wp_bind]
    refine (typeUse_valid hRO true).wp h₁ h₂ fun ty s h₁ h₂ hty => ?_
    have hps : ∀ name, ∀ p ∈ acc ++ [⟨name, ty⟩], (Piece.use p.ty).Sound R O := fun _ =>
      List.forall_mem_append.mpr ⟨hacc, List.forall_mem_singleton.mpr hty⟩
    refine KeepsTypes.stays _ h₁ h₂ fun _ s h₁ h₂ => ?_
    -- the parameter is named or counted; the rest is the same
    split <;> simp only [wp_bind, pure_bind]
    on_goal 1 => refine KeepsTypes.stays _ h₁ h₂ fun _ s h₁ h₂ => ?_
    all_goals
      refine KeepsTypes.stays _ h₁ h₂ fun _ s h₁ h₂ => ?_
      split
      · exact ih _ _ (hps _) s h₁ h₂
      simp only [wp_bind]
      refine KeepsTypes.stays _ h₁ h₂ fun _ s h₁ h₂ => ?_
      split
      · exact ValidRun.ret h₁ h₂ (hps _)
      · simp

/-- A function is defined at the top level; its parameters' types name the registry and
its body is valid. -/
lemma function_valid (hRO : Coherent R O) (fuel : Nat) :
    ValidRun R O (function fuel) fun st => st.typeEntry? = none ∧ (Piece.stmt .top st).Sound R O := by
  intro s h₁ h₂
  simp only [function, wp_bind]
  refine KeepsTypes.stays _ h₁ h₂ fun span s h₁ h₂ => KeepsTypes.stays _ h₁ h₂ fun _ s h₁ h₂ => ?_
  refine KeepsTypes.stays _ h₁ h₂ fun _ s h₁ h₂ => KeepsTypes.stays _ h₁ h₂ fun _ s h₁ h₂ => ?_
  refine (wp_ite _ _ _).mpr ⟨fun _ => by simp, fun _ => ?_⟩
  -- the name is recorded among the functions, which the registry does not see
  simp only [wp_bind, wp_modify]
  refine KeepsTypes.stays _ h₁ h₂ fun _ s h₁ h₂ => ?_
  -- with no parameters or with some, the body follows
  split <;> simp only [wp_bind, pure_bind]
  on_goal 1 => have hps : ∀ p ∈ ([] : List Param), (Piece.use p.ty).Sound R O := by simp
  on_goal 2 => refine (parameters_valid hRO fuel 0 [] (by simp)).wp h₁ h₂ fun ps s h₁ h₂ hps => ?_
  all_goals
    refine KeepsTypes.stays _ h₁ h₂ fun _ s h₁ h₂ => ?_
    split
    · simp only [wp_bind]
      refine ((funValid hRO fuel).statementBlock _ [] (by simp)).wp h₁ h₂
        fun b s h₁ h₂ hb => ValidRun.ret h₁ h₂ ⟨rfl, ?_⟩
      refine Piece.sound_stmt .topFunction fun y hy => ?_
      cases hy with
      | param hp => exact hps _ hp
      | functionBody hm => exact hb _ hm
    · simp

/-- Enum values are valid expressions; an implicit value adds one to the previous value. -/
lemma enumEntries_valid (hRO : Coherent R O) (fuel : Nat) : ∀ acc,
    (∀ en ∈ acc, (Piece.expr en.value).Sound R O) →
    ValidRun R O (enumEntries fuel acc) fun es => ∀ en ∈ es, (Piece.expr en.value).Sound R O := by
  induction fuel with
  | zero =>
    intro _ _ s _ _
    simp [enumEntries]
  | succ fuel ih =>
    intro acc hacc s h₁ h₂
    simp only [enumEntries]
    rw [wp_bind]
    refine KeepsTypes.stays _ h₁ h₂ fun _ s h₁ h₂ =>
      (wp_ite _ _ _).mpr ⟨fun _ => ValidRun.ret h₁ h₂ hacc, fun _ => ?_⟩
    -- after each entry, a comma and more entries or the closing brace
    have tail : ∀ en : EnumEntry, (Piece.expr en.value).Sound R O → ∀ s' : ParserState,
        s'.types = R → s'.openTypes = O →
        Wp (do
          if ← accept [.sym ","] then enumEntries fuel (acc ++ [en])
          else if ← accept [.sym "\x7d"] then pure (acc ++ [en])
          else fail .missingEnumComma) s' fun es s'' =>
            s''.types = R ∧ s''.openTypes = O ∧ ∀ en ∈ es, (Piece.expr en.value).Sound R O := by
      intro en hen s h₁ h₂
      have hes := List.forall_mem_append.mpr ⟨hacc, List.forall_mem_singleton.mpr hen⟩
      simp only [wp_bind]
      refine KeepsTypes.stays _ h₁ h₂ fun _ s h₁ h₂ => ?_
      split
      · exact ih _ hes s h₁ h₂
      simp only [wp_bind]
      refine KeepsTypes.stays _ h₁ h₂ fun _ s h₁ h₂ => ?_
      split
      · exact ValidRun.ret h₁ h₂ hes
      · simp
    simp only [wp_bind, pure_bind]
    refine KeepsTypes.stays _ h₁ h₂ fun span s h₁ h₂ => KeepsTypes.stays _ h₁ h₂ fun _ s h₁ h₂ => ?_
    split
    · -- an explicit value
      simp only [wp_bind]
      refine KeepsTypes.stays _ h₁ h₂ fun _ s h₁ h₂ => ?_
      refine (exprValid hRO fuel).expr.wp h₁ h₂ fun v s h₁ h₂ hv => ?_
      simpa only [wp_bind] using tail _ hv s h₁ h₂
    simp only [wp_bind]
    refine KeepsTypes.stays _ h₁ h₂ fun _ s h₁ h₂ => ?_
    split
    · -- the previous value plus one, or zero
      simp only [wp_bind]
      refine KeepsTypes.stays _ h₁ h₂ fun _ s h₁ h₂ => ?_
      split
      · simpa only [wp_bind] using
          tail ⟨_, .lit (.int 0) span⟩ (Piece.sound_leaf fun _ hy => by cases hy) s h₁ h₂
      · rename_i prev hprev
        have hv : (Piece.expr (.binary .add prev.value (.lit (.int 1) span) span)).Sound R O :=
          Piece.sound_expr fun y hy => by
            cases hy with
            | binaryLeft => exact hacc _ (List.mem_of_getLast? hprev)
            | binaryRight => exact Piece.sound_leaf fun _ hy => by cases hy
        simpa only [wp_bind] using tail ⟨_, _⟩ hv s h₁ h₂
    · simp

lemma bitfieldEntries_valid (hRO : Coherent R O) (fuel : Nat) : ∀ acc,
    (∀ en ∈ acc, (Piece.expr en.width).Sound R O) →
    ValidRun R O (bitfieldEntries fuel acc) fun es => ∀ en ∈ es, (Piece.expr en.width).Sound R O := by
  induction fuel with
  | zero =>
    intro _ _ s _ _
    simp [bitfieldEntries]
  | succ fuel ih =>
    intro acc hacc s h₁ h₂
    simp only [bitfieldEntries]
    rw [wp_bind]
    refine KeepsTypes.stays _ h₁ h₂ fun _ s h₁ h₂ =>
      (wp_ite _ _ _).mpr ⟨fun _ => ValidRun.ret h₁ h₂ hacc, fun _ => ?_⟩
    -- after each entry, its semicolon and the entries after it
    have tail : ∀ en : BitfieldEntry, (Piece.expr en.width).Sound R O → ∀ s' : ParserState,
        s'.types = R → s'.openTypes = O →
        Wp expectSemicolon s' fun _ t => Wp (bitfieldEntries fuel (acc ++ [en])) t fun es u =>
          u.types = R ∧ u.openTypes = O ∧ ∀ en ∈ es, (Piece.expr en.width).Sound R O := by
      intro en hen s h₁ h₂
      exact KeepsTypes.stays _ h₁ h₂ fun _ s h₁ h₂ => ih _
        (List.forall_mem_append.mpr ⟨hacc, List.forall_mem_singleton.mpr hen⟩) s h₁ h₂
    simp only [wp_bind]
    refine KeepsTypes.stays _ h₁ h₂ fun _ s h₁ h₂ => ?_
    split
    · -- a named entry
      simp only [wp_bind]
      refine KeepsTypes.stays _ h₁ h₂ fun _ s h₁ h₂ => ?_
      exact (exprValid hRO fuel).expr.wp h₁ h₂ fun v s h₁ h₂ hv =>
        (wp_pure _).mpr (tail ⟨_, v, false⟩ hv s h₁ h₂)
    simp only [wp_bind]
    refine KeepsTypes.stays _ h₁ h₂ fun _ s h₁ h₂ => ?_
    split
    · -- padding
      simp only [wp_bind]
      exact (exprValid hRO fuel).expr.wp h₁ h₂ fun v s h₁ h₂ hv =>
        (wp_pure _).mpr (tail ⟨_, v, true⟩ hv s h₁ h₂)
    · simp

/-- Bases are copies of registered declarations. -/
lemma bases_valid (hRO : Coherent R O) (fuel : Nat) : ∀ acc,
    (∀ b ∈ acc, (Piece.use b).Sound R O) →
    ValidRun R O (bases fuel acc) fun bs => ∀ b ∈ bs, (Piece.use b).Sound R O := by
  induction fuel with
  | zero =>
    intro _ _ s _ _
    simp [bases]
  | succ fuel ih =>
    intro acc hacc s h₁ h₂
    simp only [bases, wp_bind]
    refine KeepsTypes.stays _ h₁ h₂ fun _ s h₁ h₂ => KeepsTypes.stays _ h₁ h₂ fun base s h₁ h₂ => ?_
    refine (instantiateFinished?_valid hRO base).wp h₁ h₂ fun r s h₁ h₂ hr => ?_
    split
    · simp
    rename_i d
    have hbs := List.forall_mem_append.mpr ⟨hacc, List.forall_mem_singleton.mpr (hr d rfl)⟩
    simp only [wp_bind]
    refine KeepsTypes.stays _ h₁ h₂ fun _ s h₁ h₂ => ?_
    split
    · exact ih _ hbs s h₁ h₂
    · exact ValidRun.ret h₁ h₂ hbs

/-- A top-level placement is a variable placed anywhere, or an array or a pointer placed with
`@`. -/
lemma placement_valid (hRO : Coherent R O) (fuel : Nat) :
    ValidRun R O (placement fuel) fun st => st.typeEntry? = none ∧ (Piece.stmt .top st).Sound R O := by
  intro s h₁ h₂
  simp only [placement, wp_bind]
  refine KeepsTypes.stays _ h₁ h₂ fun span s h₁ h₂ => ?_
  refine (typeUse_valid hRO false).wp h₁ h₂ fun ty s h₁ h₂ hty => ?_
  refine KeepsTypes.stays _ h₁ h₂ fun _ s h₁ h₂ => ?_
  split
  · -- an array
    simp only [wp_bind]
    refine KeepsTypes.stays _ h₁ h₂ fun _ s h₁ h₂ => KeepsTypes.stays _ h₁ h₂ fun _ s h₁ h₂ => ?_
    refine (arraySize_valid hRO fuel).wp h₁ h₂ fun size s h₁ h₂ hsize => ?_
    refine KeepsTypes.stays _ h₁ h₂ fun _ s h₁ h₂ => ?_
    split
    · simp only [wp_bind]
      refine (exprValid hRO fuel).expr.wp h₁ h₂ fun e s h₁ h₂ he => ValidRun.ret h₁ h₂ ⟨rfl, ?_⟩
      refine Piece.sound_stmt .topArray fun y hy => ?_
      cases hy with
      | arrayType => exact hty
      | arrayCount => exact hsize _ (.inl rfl)
      | arrayCond => exact hsize _ (.inr rfl)
      | arrayOffset => exact he
    · simp
  simp only [wp_bind]
  refine KeepsTypes.stays _ h₁ h₂ fun _ s h₁ h₂ => ?_
  split
  · -- a variable, placed anywhere
    simp only [wp_bind]
    refine KeepsTypes.stays _ h₁ h₂ fun name s h₁ h₂ => KeepsTypes.stays _ h₁ h₂ fun _ s h₁ h₂ => ?_
    have hvar : ∀ pl : Placement, (∀ e, pl = .atOffset e → (Piece.expr e).Sound R O) →
        (Piece.stmt .top (.var name ty pl [] span)).Sound R O := fun pl hpl =>
      Piece.sound_stmt .topVar fun y hy => by
        cases hy with
        | varType => exact hty
        | varOffset => exact hpl _ rfl
    split
    · simp only [wp_bind, pure_bind]
      exact (exprValid hRO fuel).expr.wp h₁ h₂ fun e s h₁ h₂ he =>
        ValidRun.ret h₁ h₂ ⟨rfl, hvar _ fun _ h => by cases h; exact he⟩
    simp only [wp_bind, pure_bind]
    refine KeepsTypes.stays _ h₁ h₂ fun _ s h₁ h₂ => ?_
    split
    · exact ValidRun.ret h₁ h₂ ⟨rfl, hvar _ fun _ h => by cases h⟩
    simp only [wp_bind]
    refine KeepsTypes.stays _ h₁ h₂ fun _ s h₁ h₂ => ?_
    split
    · exact ValidRun.ret h₁ h₂ ⟨rfl, hvar _ fun _ h => by cases h⟩
    · exact ValidRun.ret h₁ h₂ ⟨rfl, hvar _ fun _ h => by cases h⟩
  simp only [wp_bind]
  refine KeepsTypes.stays _ h₁ h₂ fun _ s h₁ h₂ => ?_
  split
  · -- a pointer, placed with `@`
    simp only [wp_bind]
    refine (pointerTail_valid ty span).wp h₁ h₂ fun r s h₁ h₂ hr => ?_
    obtain ⟨n, b, en, rfl⟩ := hr
    refine KeepsTypes.stays _ h₁ h₂ fun _ s h₁ h₂ => ?_
    split
    · simp only [wp_bind, Stmt.placedAt]
      refine (exprValid hRO fuel).expr.wp h₁ h₂ fun e s h₁ h₂ he => ValidRun.ret h₁ h₂ ⟨rfl, ?_⟩
      refine Piece.sound_stmt .topPointer fun y hy => ?_
      cases hy with
      | pointerTarget => exact hty
      | pointerOffset => exact he
    · simp
  · simp

end Reading

/-! ### Declarations -/

section Declarations

variable {R : List (String × TypeDecl)} {O : List String} {s : ParserState}

lemma isSome_lookup_of_mem {l : List (String × TypeDecl)} {q : String}
    (h : q ∈ l.map Prod.fst) : (l.lookup q).isSome := by
  rw [Option.isSome_iff_ne_none, Ne, List.lookup_eq_none_iff]
  obtain ⟨p, hp, rfl⟩ := List.mem_map.mp h
  exact fun hall => by simpa using hall p hp

/-- A claimed name is neither registered nor open, and is open afterwards. -/
lemma openType_fresh (name : String) (off : Int) (h₁ : s.types = R) (h₂ : s.openTypes = O)
    {P : String → ParserState → Prop}
    (k : ∀ q s', q ∉ R.map Prod.fst → q ∉ O → s'.types = R → s'.openTypes = O ++ [q] → P q s') :
    Wp (openType name off) s P := by
  simp only [openType, isKnownType, wp_bind, wp_get, wp_ite, wp_failAt, wp_modify, wp_pure,
    Bool.or_eq_true, List.contains_iff_mem, not_or]
  refine ⟨fun _ => trivial, fun hko => k _ _ (fun hm => hko.1 ?_) (h₂ ▸ hko.2) h₁ (by rw [h₂])⟩
  exact isSome_lookup_of_mem (h₁ ▸ hm)

/-- Opening a fresh name keeps a registry coherent. -/
lemma Coherent.opened (hRO : Coherent R O) {q : String} (hq : q ∉ R.map Prod.fst) :
    Coherent R (O ++ [q]) where
  nodup := hRO.nodup
  keyed := hRO.keyed
  declared := hRO.declared
  fresh o ho := by
    rcases List.mem_append.mp ho with ho | ho
    · exact hRO.fresh o ho
    · rw [List.mem_singleton.mp ho]
      exact hq
  valid e he := (hRO.valid e he).opened q

/-- Registering a declaration under its open name keeps a registry coherent, once its pieces
are valid while its name was open. -/
lemma Coherent.registered (hRO : Coherent R O) {d : TypeDecl} (hk : d.name ∉ R.map Prod.fst)
    (ho : d.name ∉ O) (hfwd : ∀ q, d.body ≠ .forward q)
    (hd : (Piece.decl d).Sound R (O ++ [d.name])) :
    Coherent (R ++ [(d.name, d)]) O where
  nodup := by
    rw [List.map_append, List.nodup_append]
    refine ⟨hRO.nodup, by simp, ?_⟩
    simp only [List.map_cons, List.map_nil, List.mem_singleton]
    rintro a ha b rfl rfl
    exact hk ha
  keyed e he := by
    rcases List.mem_append.mp he with he | he
    · exact hRO.keyed e he
    · rw [List.mem_singleton.mp he]
  declared e he := by
    rcases List.mem_append.mp he with he | he
    · exact hRO.declared e he
    · rw [List.mem_singleton.mp he]
      exact hfwd
  fresh o ho' := by
    simp only [List.map_append, List.mem_append, List.map_cons, List.map_nil,
      List.mem_singleton, not_or]
    exact ⟨hRO.fresh o ho', fun h => ho (h ▸ ho')⟩
  valid e he := by
    rcases List.mem_append.mp he with he | he
    · exact (hRO.valid e he).mono fun o ho => .inr ho
    · rw [List.mem_singleton.mp he]
      refine hd.mono fun o ho => ?_
      rcases List.mem_append.mp ho with ho | ho
      · exact .inr ho
      · exact .inl (by simp [List.mem_singleton.mp ho])

/-- What a declaration leaves behind, from the registry `R` with the open names `O`: the
definition of a type whose name was free, registered under that name, declared rather than
a forward reference, and made of pieces valid while its own name was open. -/
def DeclPost (R : List (String × TypeDecl)) (O : List String) (st : Stmt) (s : ParserState) :
    Prop :=
  ∃ d sp, st = .typeDef d sp ∧ d.name ∉ R.map Prod.fst ∧ d.name ∉ O ∧
    (∀ q, d.body ≠ .forward q) ∧ s.types = R ++ [(d.name, d)] ∧ s.openTypes = O ∧
    (Piece.decl d).Sound R (O ++ [d.name])

/-- A declaration parser run from the registry `R` with the open names `O`. -/
def DeclRun (R : List (String × TypeDecl)) (O : List String) (x : Parse Stmt) : Prop :=
  ∀ s : ParserState, s.types = R → s.openTypes = O → Wp x s (DeclPost R O)

/-- The last step of every declaration: the declaration is registered under its open name,
which is then closed. -/
lemma finishType_declared {d : TypeDecl} (hk : d.name ∉ R.map Prod.fst) (ho : d.name ∉ O)
    (hfwd : ∀ q, d.body ≠ .forward q) (h₁ : s.types = R) (h₂ : s.openTypes = O ++ [d.name])
    (hd : (Piece.decl d).Sound R (O ++ [d.name])) (span : Span) :
    Wp (finishType d) s fun _ s' => Wp (pure (Stmt.typeDef d span)) s' (DeclPost R O) := by
  simp only [wp_finishType, wp_pure]
  refine ⟨d, span, rfl, hk, ho, hfwd, by rw [h₁], ?_, hd⟩
  rw [h₂, List.filter_append, List.filter_singleton, bne_self_eq_false, cond_false,
    List.append_nil, List.filter_eq_self]
  intro o ho'
  simpa using ne_of_mem_of_not_mem ho' ho

lemma structDecl_declared (hRO : Coherent R O) (fuel : Nat) : DeclRun R O (structDecl fuel) := by
  intro s h₁ h₂
  simp only [structDecl, wp_bind]
  refine KeepsTypes.stays _ h₁ h₂ fun span s h₁ h₂ => KeepsTypes.stays _ h₁ h₂ fun name s h₁ h₂ => ?_
  refine openType_fresh _ _ h₁ h₂ fun q s hk ho h₁ h₂ => ?_
  have hRO' := hRO.opened hk
  refine KeepsTypes.stays _ h₁ h₂ fun _ s h₁ h₂ => ?_
  -- the bases, if any; the body follows alike
  split
  on_goal 1 =>
    simp only [wp_bind]
    refine (bases_valid hRO' fuel [] (by simp)).wp h₁ h₂ fun bs s h₁ h₂ hbs => ?_
  on_goal 2 =>
    simp only [wp_bind]
    refine KeepsTypes.stays _ h₁ h₂ fun _ s h₁ h₂ => ?_
    split
    · simp
    have hbs : ∀ b ∈ ([] : List TypeDecl), (Piece.use b).Sound R (O ++ [q]) := by simp
    simp only [pure_bind, wp_bind]
  all_goals
    refine KeepsTypes.stays _ h₁ h₂ fun _ s h₁ h₂ => ?_
    split
    · simp only [wp_bind]
      refine ((membersValid hRO' fuel).memberBlock _ [] (by simp)).wp h₁ h₂ fun ms s h₁ h₂ hms => ?_
      refine finishType_declared (d := ⟨q, none, .struct _ ms, [], span⟩) hk ho
        (fun _ h => by cases h) h₁ h₂ (Piece.sound_decl fun y hy => ?_) span
      cases hy with
      | base hb => exact hbs _ hb
      | structMember hm => exact hms _ hm
    · simp

lemma unionDecl_declared (hRO : Coherent R O) (fuel : Nat) : DeclRun R O (unionDecl fuel) := by
  intro s h₁ h₂
  simp only [unionDecl, wp_bind]
  refine KeepsTypes.stays _ h₁ h₂ fun span s h₁ h₂ => KeepsTypes.stays _ h₁ h₂ fun name s h₁ h₂ => ?_
  refine openType_fresh _ _ h₁ h₂ fun q s hk ho h₁ h₂ => ?_
  refine ((membersValid (hRO.opened hk) fuel).memberBlock _ [] (by simp)).wp h₁ h₂
    fun ms s h₁ h₂ hms => ?_
  refine finishType_declared (d := ⟨q, none, .union ms, [], span⟩) hk ho
    (fun _ h => by cases h) h₁ h₂ (Piece.sound_decl fun y hy => ?_) span
  cases hy with
  | unionMember hm => exact hms _ hm

lemma bitfieldDecl_declared (hRO : Coherent R O) (fuel : Nat) :
    DeclRun R O (bitfieldDecl fuel) := by
  intro s h₁ h₂
  simp only [bitfieldDecl, wp_bind]
  refine KeepsTypes.stays _ h₁ h₂ fun span s h₁ h₂ => KeepsTypes.stays _ h₁ h₂ fun name s h₁ h₂ => ?_
  refine openType_fresh _ _ h₁ h₂ fun q s hk ho h₁ h₂ => ?_
  refine (bitfieldEntries_valid (hRO.opened hk) fuel [] (by simp)).wp h₁ h₂
    fun es s h₁ h₂ hes => ?_
  refine finishType_declared (d := ⟨q, none, .bitfield es, [], span⟩) hk ho
    (fun _ h => by cases h) h₁ h₂ (Piece.sound_decl fun y hy => ?_) span
  cases hy with
  | bitfieldWidth hm => exact hes _ hm

/-- An enum reads its underlying type before it opens its name. -/
lemma enumDecl_declared (hRO : Coherent R O) (fuel : Nat) : DeclRun R O (enumDecl fuel) := by
  intro s h₁ h₂
  simp only [enumDecl, wp_bind]
  refine KeepsTypes.stays _ h₁ h₂ fun span s h₁ h₂ => KeepsTypes.stays _ h₁ h₂ fun name s h₁ h₂ => ?_
  refine (typeUse_valid hRO false).wp h₁ h₂ fun under s h₁ h₂ _ => ?_
  refine (wp_ite _ _ _).mpr ⟨fun _ => by simp, fun _ => ?_⟩
  -- an integer builtin without byte order
  split
  · split
    · simp only [pure_bind, wp_bind]
      refine openType_fresh _ _ h₁ h₂ fun q s hk ho h₁ h₂ => ?_
      refine KeepsTypes.stays _ h₁ h₂ fun _ s h₁ h₂ => ?_
      split
      · simp only [wp_bind]
        refine (enumEntries_valid (hRO.opened hk) fuel [] (by simp)).wp h₁ h₂ fun es s h₁ h₂ hes => ?_
        refine finishType_declared (d := ⟨q, none, .enum _ es, [], span⟩) hk ho
          (fun _ h => by cases h) h₁ h₂ (Piece.sound_decl fun y hy => ?_) span
        cases hy with
        | enumValue hm => exact hes _ hm
      · simp
    · simp
  · simp

/-- An alias reads its target before it opens its name, and takes the target's byte
order. -/
lemma usingDecl_declared (hRO : Coherent R O) : DeclRun R O usingDecl := by
  intro s h₁ h₂
  simp only [usingDecl, wp_bind]
  refine KeepsTypes.stays _ h₁ h₂ fun span s h₁ h₂ => KeepsTypes.stays _ h₁ h₂ fun _ s h₁ h₂ => ?_
  refine KeepsTypes.stays _ h₁ h₂ fun name s h₁ h₂ => KeepsTypes.stays _ h₁ h₂ fun _ s h₁ h₂ => ?_
  split
  · simp only [wp_bind]
    refine (typeUse_valid hRO false).wp h₁ h₂ fun target s h₁ h₂ ht => ?_
    refine openType_fresh _ _ h₁ h₂ fun q s hk ho h₁ h₂ => ?_
    refine finishType_declared (d := ⟨q, target.endian, .alias target, [], span⟩) hk ho
      (fun _ h => by cases h) h₁ h₂ (Piece.sound_decl fun y hy => ?_) span
    cases hy with
    | aliasTarget => exact ht.opened q
  · simp

/-- Trailing attributes of a type definition are added to its registered entry too, the last
entry of the registry. -/
lemma trailingAttributes_typeDef {d : TypeDecl} {sp : Span} (hk : d.name ∉ R.map Prod.fst)
    (h₁ : s.types = R ++ [(d.name, d)]) (h₂ : s.openTypes = O) {P : Stmt → ParserState → Prop}
    (k : ∀ d' s', d'.name = d.name → d'.body = d.body → s'.types = R ++ [(d.name, d')] →
      s'.openTypes = O → P (.typeDef d' sp) s') :
    Wp (trailingAttributes (.typeDef d sp)) s P := by
  unfold trailingAttributes
  simp only [wp_bind]
  refine KeepsTypes.stays _ h₁ h₂ fun _ s h₁ h₂ => KeepsTypes.stays _ h₁ h₂ fun _ s h₁ h₂ => ?_
  split
  · exact (wp_pure _).mpr (k d s rfl rfl h₁ h₂)
  split
  · simp [Stmt.attrs?] at *
  simp only [wp_bind]
  refine KeepsTypes.stays _ h₁ h₂ fun _ s h₁ h₂ => KeepsTypes.stays _ h₁ h₂ fun _ s h₁ h₂ => ?_
  refine KeepsTypes.stays _ h₁ h₂ fun _ s h₁ h₂ => KeepsTypes.stays _ h₁ h₂ fun _ s h₁ h₂ => ?_
  split
  · simp only [wp_bind, wp_addTypeAttrs, wp_pure, Stmt.withAttrs]
    refine k _ _ rfl rfl ?_ h₂
    -- no entry before the last one has the name
    show List.map _ s.types = _
    rw [h₁, List.map_append, List.map_singleton, beq_self_eq_true, if_pos rfl]
    congr 1
    conv_rhs => rw [← List.map_id R]
    refine List.map_congr_left fun e he => ?_
    have hne : e.1 ≠ d.name := fun h => hk (h ▸ List.mem_map_of_mem he)
    simp [hne]
  · simp

end Declarations

/-! ### Top-level statements -/

section Statements

variable {R : List (String × TypeDecl)} {O : List String}

/-- What a run of top-level statements leaves, from the registry `R` with the statements `acc`
read before: `acc` followed by new statements, the registry grown by the types these define,
the same open names, and a coherent registry against which every statement is valid. -/
def TopPost (R : List (String × TypeDecl)) (O : List String) (acc out : List Stmt)
    (s : ParserState) : Prop :=
  ∃ more, out = acc ++ more ∧ s.types = R ++ more.filterMap Stmt.typeEntry? ∧
    s.openTypes = O ∧ Coherent s.types O ∧ ∀ st ∈ out, (Piece.stmt .top st).Sound s.types O

/-- A parser of top-level statements run from the registry `R` with the open names `O`, after
the statements `acc`. -/
def TopRun (R : List (String × TypeDecl)) (O : List String) (acc : List Stmt)
    (x : Parse (List Stmt)) : Prop :=
  ∀ s : ParserState, s.types = R → s.openTypes = O → Wp x s (TopPost R O acc)

/-- Statements read after others extend what those left. -/
lemma TopPost.after {acc more out : List Stmt} {s : ParserState}
    (h : TopPost (R ++ more.filterMap Stmt.typeEntry?) O (acc ++ more) out s) :
    TopPost R O acc out s := by
  obtain ⟨more', rfl, ht, ho, hc, hs⟩ := h
  exact ⟨more ++ more', by simp, by simp [ht, List.filterMap_append], ho, hc, hs⟩

/-- The specification of the parser of top-level statements at one fuel. -/
structure TopValid (fuel : Nat) : Prop where
  statements : ∀ {R O}, Coherent R O → TopRun R O [] (statements fuel)
  namespaceBody : ∀ {R O} acc, Coherent R O → (∀ st ∈ acc, (Piece.stmt .top st).Sound R O) →
    TopRun R O acc (namespaceBody fuel acc)

variable {fuel : Nat}

lemma statements_valid (ih : TopValid fuel) (hRO : Coherent R O) :
    TopRun R O [] (statements (fuel + 1)) := by
  intro s h₁ h₂
  simp -zeta only [statements, wp_bind]
  refine KeepsTypes.stays _ h₁ h₂ fun _ s h₁ h₂ => ?_
  split
  · -- stray semicolons
    simp only [wp_bind]
    refine KeepsTypes.stays _ h₁ h₂ fun _ s h₁ h₂ => KeepsTypes.stays _ h₁ h₂ fun _ s h₁ h₂ => ?_
    exact (wp_pure _).mpr ⟨[], rfl, by simp [h₁], h₂, h₁ ▸ hRO, by simp⟩
  simp -zeta only [wp_bind]
  refine KeepsTypes.stays _ h₁ h₂ fun _ s h₁ h₂ => ?_
  split
  · -- a namespace: its body, between entering and leaving it
    simp only [wp_bind]
    refine KeepsTypes.stays _ h₁ h₂ fun _ s h₁ h₂ => ?_
    split
    · simp
    simp only [wp_bind]
    refine KeepsTypes.stays _ h₁ h₂ fun _ s h₁ h₂ => KeepsTypes.stays _ h₁ h₂ fun _ s h₁ h₂ => ?_
    refine KeepsTypes.stays _ h₁ h₂ fun _ s h₁ h₂ => KeepsTypes.stays _ h₁ h₂ fun _ s h₁ h₂ => ?_
    split
    · simp only [wp_bind]
      refine Wp.mono ((ih.namespaceBody [] hRO (by simp)) s h₁ h₂) fun body s hbody => ?_
      obtain ⟨more, hmore, h₁, h₂, hc, hs⟩ := hbody
      rw [h₁] at hc hs
      refine KeepsTypes.stays _ h₁ h₂ fun _ s h₁ h₂ => KeepsTypes.stays _ h₁ h₂ fun _ s h₁ h₂ => ?_
      exact KeepsTypes.stays _ h₁ h₂ fun _ s h₁ h₂ =>
        (wp_pure _).mpr ⟨more, hmore, h₁, h₂, h₁ ▸ hc, h₁ ▸ hs⟩
    · simp
  simp -zeta only [wp_bind]
  refine KeepsTypes.stays _ h₁ h₂ fun _ s h₁ h₂ => ?_
  -- every other statement ends in its trailing attributes and semicolon
  extract_lets jp
  have hjp : ∀ r s', (DeclPost R O r s' ∨ s'.types = R ∧ s'.openTypes = O ∧
      r.typeEntry? = none ∧ (Piece.stmt .top r).Sound R O) →
      Wp (jp r) s' (TopPost R O []) := by
    intro r s hr
    simp only [jp, wp_bind]
    rcases hr with ⟨d, sp, rfl, hk, ho, hfwd, h₁, h₂, hd⟩ | ⟨h₁, h₂, hr, hs⟩
    · -- a type definition: its entry is the last of the registry
      refine trailingAttributes_typeDef hk h₁ h₂ fun d' s hname hbody h₁ h₂ => ?_
      have hd' : (Piece.decl d').Sound R (O ++ [d'.name]) := by
        rw [hname]
        exact Piece.sound_decl fun y hy => hd.body_decl (hbody ▸ hy)
      rw [← hname] at hk ho h₁
      have hc := hRO.registered hk ho (hbody ▸ hfwd) hd'
      refine KeepsTypes.stays _ h₁ h₂ fun _ s h₁ h₂ => (wp_pure _).mpr ?_
      refine ⟨[.typeDef d' sp], rfl, by simp [h₁, Stmt.typeEntry?], h₂, h₁ ▸ hc, ?_⟩
      simp only [List.mem_singleton, forall_eq]
      refine Piece.sound_stmt .topTypeDef fun y hy => ?_
      cases hy
      exact h₁ ▸ hc.valid _ (List.mem_append_right _ (List.mem_singleton_self _))
    · -- any other statement leaves the registry alone
      have hr : ∀ d sp, r ≠ .typeDef d sp := fun d sp h => by simp [h, Stmt.typeEntry?] at hr
      refine (trailingAttributes_valid hr).wp h₁ h₂ fun r' s h₁ h₂ hr' => ?_
      refine KeepsTypes.stays _ h₁ h₂ fun _ s h₁ h₂ => (wp_pure _).mpr ?_
      have hrs : (Piece.stmt .top r').Sound R O := by
        rcases hr' with rfl | ⟨more, rfl⟩
        · exact hs
        · exact hs.withAttrs more
      have hnone : r'.typeEntry? = none := by
        rcases hr' with rfl | ⟨more, rfl⟩
        · cases r' <;> simp_all [Stmt.typeEntry?]
        · cases r <;> simp_all [Stmt.withAttrs, Stmt.typeEntry?]
      exact ⟨[r'], rfl, by simp [h₁, hnone], h₂, h₁ ▸ hRO, by simpa [h₁] using hrs⟩
  clear_value jp
  have decl : ∀ x, DeclRun R O x → ∀ s', s'.types = R → s'.openTypes = O →
      Wp (x >>= jp) s' (TopPost R O []) := by
    intro x hx s h₁ h₂
    rw [wp_bind]
    exact (hx s h₁ h₂).mono fun r s hr => hjp r s (.inl hr)
  have other : ∀ x, ValidRun R O x (fun st => st.typeEntry? = none ∧ (Piece.stmt .top st).Sound R O) →
      ∀ s', s'.types = R → s'.openTypes = O → Wp (x >>= jp) s' (TopPost R O []) := by
    intro x hx s h₁ h₂
    rw [wp_bind]
    exact hx.wp h₁ h₂ fun r s h₁ h₂ hr => hjp r s (.inr ⟨h₁, h₂, hr⟩)
  split
  · exact decl _ (usingDecl_declared hRO) s h₁ h₂
  simp only [wp_bind]
  refine KeepsTypes.stays _ h₁ h₂ fun _ s h₁ h₂ => ?_
  split
  · simp only [wp_bind, pure_bind]
    refine (call_valid hRO fuel).wp h₁ h₂ fun c s h₁ h₂ hc => hjp _ s (.inr ⟨h₁, h₂, rfl, ?_⟩)
    obtain ⟨⟨name, ns, as, sp, rfl⟩, hc⟩ := hc
    exact Piece.sound_stmt .call fun y hy => by
      cases hy
      exact hc
  simp only [wp_bind]
  refine KeepsTypes.stays _ h₁ h₂ fun _ s h₁ h₂ => ?_
  split
  · exact other _ (placement_valid hRO fuel) s h₁ h₂
  simp only [wp_bind]
  refine KeepsTypes.stays _ h₁ h₂ fun _ s h₁ h₂ => ?_
  split
  · exact decl _ (structDecl_declared hRO fuel) s h₁ h₂
  simp only [wp_bind]
  refine KeepsTypes.stays _ h₁ h₂ fun _ s h₁ h₂ => ?_
  split
  · exact decl _ (unionDecl_declared hRO fuel) s h₁ h₂
  simp only [wp_bind]
  refine KeepsTypes.stays _ h₁ h₂ fun _ s h₁ h₂ => ?_
  split
  · exact decl _ (enumDecl_declared hRO fuel) s h₁ h₂
  simp only [wp_bind]
  refine KeepsTypes.stays _ h₁ h₂ fun _ s h₁ h₂ => ?_
  split
  · exact decl _ (bitfieldDecl_declared hRO fuel) s h₁ h₂
  simp only [wp_bind]
  refine KeepsTypes.stays _ h₁ h₂ fun _ s h₁ h₂ => ?_
  split
  · exact other _ (function_valid hRO fuel) s h₁ h₂
  · simp

/-- After statements read from `R`, the statements before them are valid against the grown
registry. -/
lemma TopPost.sound_acc {acc out : List Stmt} {s : ParserState} (h : TopPost R O [] out s)
    (hacc : ∀ st ∈ acc, (Piece.stmt .top st).Sound R O) :
    ∀ st ∈ acc ++ out, (Piece.stmt .top st).Sound s.types O := by
  obtain ⟨more, -, h₁, -, -, hs⟩ := h
  refine List.forall_mem_append.mpr ⟨fun st hst => ?_, hs⟩
  rw [h₁]
  exact (hacc st hst).mono fun q hq => .inr hq

/-- Read statements, then what follows from the grown registry. -/
lemma TopPost.then {acc out₁ out : List Stmt} {s₁ s : ParserState}
    (h₁ : TopPost R O [] out₁ s₁) (h : TopPost s₁.types O (acc ++ out₁) out s) :
    TopPost R O acc out s := by
  obtain ⟨more, hm, ht, -, -, -⟩ := h₁
  rw [ht, hm, List.nil_append] at h
  exact h.after

lemma namespaceBody_valid (ih : TopValid fuel) (acc : List Stmt) (hRO : Coherent R O)
    (hacc : ∀ st ∈ acc, (Piece.stmt .top st).Sound R O) :
    TopRun R O acc (namespaceBody (fuel + 1) acc) := by
  intro s h₁ h₂
  simp only [namespaceBody, wp_bind]
  refine KeepsTypes.stays _ h₁ h₂ fun _ s h₁ h₂ => ?_
  split
  · exact (wp_pure _).mpr ⟨[], by simp, by simp [h₁], h₂, h₁ ▸ hRO, h₁ ▸ hacc⟩
  simp only [wp_bind]
  refine KeepsTypes.stays _ h₁ h₂ fun _ s h₁ h₂ => ?_
  split
  · simp
  rw [wp_bind]
  refine (ih.statements hRO s h₁ h₂).mono fun out₁ s₁ h => ?_
  obtain ⟨-, -, -, ho, hc, -⟩ := id h
  exact (ih.namespaceBody _ hc (h.sound_acc hacc) s₁ rfl ho).mono fun out s h' => h.then h'

/-- Every top-level statement the parser returns is valid against the registry after it, and
the registry grows by exactly the types the statements define, at every fuel. -/
theorem topValid (fuel : Nat) : TopValid fuel := by
  induction fuel with
  | zero =>
    constructor <;> intros <;> intro s _ _ <;> simp [statements, namespaceBody]
  | succ fuel ih =>
    exact ⟨statements_valid ih, namespaceBody_valid ih⟩

lemma program_valid (fuel : Nat) : ∀ {R O} acc, Coherent R O →
    (∀ st ∈ acc, (Piece.stmt .top st).Sound R O) → TopRun R O acc (program fuel acc) := by
  induction fuel with
  | zero =>
    intro _ _ _ _ _ s _ _
    simp [program]
  | succ fuel ih =>
    intro R O acc hRO hacc s h₁ h₂
    simp only [program, wp_bind]
    refine KeepsTypes.stays _ h₁ h₂ fun _ s h₁ h₂ => ?_
    split
    · exact (wp_pure _).mpr ⟨[], by simp, by simp [h₁], h₂, h₁ ▸ hRO, h₁ ▸ hacc⟩
    rw [wp_bind]
    refine ((topValid fuel).statements hRO s h₁ h₂).mono fun out₁ s₁ h => ?_
    obtain ⟨-, -, -, ho, hc, -⟩ := id h
    exact (ih _ hc (h.sound_acc hacc) s₁ rfl ho).mono fun out s h' => h.then h'

end Statements

end Parse

/-- A program as the parser leaves it: a coherent registry, with each name once, and
top-level statements valid against it. -/
structure Program.WellFormed (p : Program) : Prop where
  registry : Parse.Coherent p.types []
  stmts : ∀ st ∈ p.stmts, (Piece.stmt .top st).Sound p.types []

/-- A well-formed program is valid piece by piece. -/
lemma Program.WellFormed.valid {p : Program} (hp : p.WellFormed) : p.Valid :=
  fun _ hx => hx.of_deep hp.stmts hp.registry.valid

/-- A parsed program is well formed, and its registry is the list of the types its
statements define, in order, each under its own name.

**Proof sketch.** From the empty registry, each top-level statement grows the registry by the
types it defines and keeps it coherent (`Parse.program_valid`); the statements are valid
against the registry that results. -/
theorem parseTokens_wellFormed {tokens : Array Token} {p : Program}
    (h : parseTokens tokens = .ok p) :
    p.types = p.stmts.filterMap Stmt.typeEntry? ∧ p.WellFormed := by
  simp only [parseTokens, StateT.run', Functor.map, Except.map] at h
  split at h
  · cases h
  rename_i res hrun
  obtain ⟨q, st⟩ := res
  cases h
  refine (Parse.Wp.of_ok hrun).mp
    (?_ : Parse.Wp _ _ fun (r : Program) _ =>
      r.types = r.stmts.filterMap Stmt.typeEntry? ∧ r.WellFormed)
  have h₀ : Parse.Coherent [] [] := ⟨List.nodup_nil, by simp, by simp, by simp, by simp⟩
  simp only [Parse.wp_bind]
  refine (Parse.program_valid _ [] h₀ (by simp) _ rfl rfl).mono fun stmts s h => ?_
  obtain ⟨more, hm, h₁, -, hc, hs⟩ := h
  split
  · simp
  · simp only [Parse.wp_bind, Parse.wp_get, Parse.wp_pure]
    exact ⟨by simpa [hm] using h₁, hc, hs⟩

end ByteLayout

import ByteLayout.Proofs.Syntax.Frame
import ByteLayout.Proofs.Layout.Splice

set_option autoImplicit false

/-!
# Parsed programs place their members at the cursor

The parser reads members of structs, unions and member conditionals only in the forms
`Type name`, `Type a, b`, `Type name[size]`, `Type *name : Address`, `padding[n]`, calls
and `if`; none of them takes a placement, so every member is built at the cursor. This
file proves it of every program the parser returns, at every depth: for every type the
program builds, through bases, member types and alias targets, the members of its struct
or union are at the cursor (`Program.MembersAtCursor`).

The registry of the parser holds the finished declarations, and every type use is a copy
of one of them, a forward reference or a builtin. So the proof carries one invariant
through the parser: every declaration in the registry is placed (`TypeDecl.Placed`). The
expression parser and the parser of function bodies do not touch the registry at all.

## Main definitions

* `TypeDecl.Placed` — the members of every compound a type builds are at the cursor.
* `Parse.KeepsTypes` — a parser that leaves the registry as it was.

## Main results

* `Program.membersAtCursor_of_placed` — a program whose declarations and declared types are
  placed has its members at the cursor.
* `parseTokens_membersAtCursor` — every parsed program has its members at the cursor.
-/

namespace ByteLayout

/-! ### Placed types -/

/-- Every struct and union built for the type, through bases, member types and alias
targets at any depth, has its members at the cursor. -/
def TypeDecl.Placed (d : TypeDecl) : Prop :=
  ∀ d', Relation.ReflTransGen TypeDecl.Part d d' → ∀ s ∈ d'.body.members, s.AtCursor

/-- A statement whose types are placed. -/
def Stmt.UsesPlaced (s : Stmt) : Prop := ∀ d, s.Uses d → d.Placed

/-- A member at the cursor whose types are placed. -/
def Stmt.Placed (s : Stmt) : Prop := s.AtCursor ∧ s.UsesPlaced

namespace TypeDecl

variable {d d' t : TypeDecl}

lemma Placed.members (h : d.Placed) : ∀ s ∈ d.body.members, s.AtCursor := h d .refl

lemma Placed.part (h : d.Placed) (hp : d.Part d') : d'.Placed :=
  fun x hx => h x (.head hp hx)

lemma Placed.intro (hm : ∀ s ∈ d.body.members, s.AtCursor) (hp : ∀ x, d.Part x → x.Placed) :
    d.Placed := by
  intro x hx
  rcases Relation.ReflTransGen.cases_head hx with rfl | ⟨y, hy, hyx⟩
  · exact hm
  · exact hp y hy x hyx

/-- The parts of a type are those of its body. -/
lemma part_of_body_eq (h : d'.body = d.body) {x : TypeDecl} (hp : d'.Part x) : d.Part x := by
  cases hp with
  | base hb hx => exact .base (h ▸ hb) hx
  | member hs hu => exact .member (h ▸ hs) hu
  | «alias» ha => exact .alias (h ▸ ha)

lemma Placed.of_body_eq (hd : d.Placed) (h : d'.body = d.body) : d'.Placed :=
  .intro (h ▸ hd.members) fun _ hp => hd.part (part_of_body_eq h hp)

/-- A body with no members and no parts: a builtin, an enum, a bitfield or a forward
reference. -/
lemma placed_of_leaf (hm : d.body.members = []) (hb : ∀ bases ms, d.body ≠ .struct bases ms)
    (ha : ∀ t, d.body ≠ .alias t) : d.Placed := by
  refine .intro (by simp [hm]) fun x hp => ?_
  cases hp with
  | base h => exact absurd h (hb _ _)
  | member hs => simp [hm] at hs
  | «alias» h => exact absurd h (ha _)

lemma placed_struct {bases : List TypeDecl} {ms : List Stmt} (hd : d.body = .struct bases ms)
    (hb : ∀ b ∈ bases, b.Placed) (hm : ∀ s ∈ ms, s.Placed) : d.Placed := by
  refine .intro (fun s hs => (hm s (by simpa [hd] using hs)).1) fun x hp => ?_
  cases hp with
  | base h hx =>
    rw [hd] at h
    cases h
    exact hb x hx
  | member hs hu => exact (hm _ (by simpa [hd] using hs)).2 x hu
  | «alias» h => simp [hd] at h

lemma placed_union {ms : List Stmt} (hd : d.body = .union ms) (hm : ∀ s ∈ ms, s.Placed) :
    d.Placed := by
  refine .intro (fun s hs => (hm s (by simpa [hd] using hs)).1) fun x hp => ?_
  cases hp with
  | base h => simp [hd] at h
  | member hs hu => exact (hm _ (by simpa [hd] using hs)).2 x hu
  | «alias» h => simp [hd] at h

lemma placed_alias (hd : d.body = .alias t) (ht : t.Placed) : d.Placed := by
  refine .intro (by simp [hd, TypeBody.members]) fun x hp => ?_
  cases hp with
  | base h => simp [hd] at h
  | member hs => simp [hd, TypeBody.members] at hs
  | «alias» h =>
    rw [hd] at h
    cases h
    exact ht

lemma placed_ofBuiltin (b : Builtin) (e : Option Endian) (sp : Span) :
    (ofBuiltin b e sp).Placed :=
  placed_of_leaf rfl (fun _ _ h => by cases h) fun _ h => by cases h

lemma placed_forward {q : String} (h : d.body = .forward q) : d.Placed :=
  placed_of_leaf (by simp [h, TypeBody.members]) (fun _ _ h' => by simp [h] at h')
    fun _ h' => by simp [h] at h'

end TypeDecl

/-- A program whose declarations and declared types are placed has its members at the
cursor: every type it builds is placed. -/
theorem Program.membersAtCursor_of_placed {p : Program} (hT : ∀ e ∈ p.types, e.2.Placed)
    (hS : ∀ s ∈ p.stmts, ∀ d, s.Uses d → d.Placed) : p.MembersAtCursor := by
  intro d hd
  suffices d.Placed from this.members
  induction hd with
  | registered hq => exact hT _ (Parse.mem_of_lookup_eq_some hq)
  | declared hs hu => exact hS _ hs _ hu
  | part _ hp ih => exact ih.part hp

/-! ### The placed registry -/

/-- Every declaration in the registry is placed. -/
def ParserState.Placed (s : ParserState) : Prop := ∀ e ∈ s.types, e.2.Placed

lemma ParserState.Placed.of_types_eq {s s' : ParserState} (hs : s.Placed)
    (h : s'.types = s.types) : s'.Placed :=
  fun e he => hs e (h ▸ he)

namespace Parse

variable {α : Type} {s : ParserState}

/-- From a placed registry, every run of the parser leaves the registry placed and returns a
value with `Q`. -/
def PlacedRun (x : Parse α) (Q : α → Prop) : Prop :=
  ∀ s, s.Placed → Wp x s fun a s' => s'.Placed ∧ Q a

lemma PlacedRun.wp {x : Parse α} {Q : α → Prop} (hx : PlacedRun x Q) (hs : s.Placed)
    {P : α → ParserState → Prop} (k : ∀ a s', s'.Placed → Q a → P a s') : Wp x s P :=
  (hx s hs).mono fun a s' h => k a s' h.1 h.2

/-- A parser that leaves the registry alone keeps it placed. -/
lemma KeepsTypes.placed (x : Parse α) [KeepsTypes x] (hs : s.Placed)
    {P : α → ParserState → Prop} (k : ∀ a s', s'.Placed → P a s') : Wp x s P :=
  KeepsTypes.wp x rfl fun a s' h => k a s' (hs.of_types_eq h)

/-- Opening a type leaves the finished declarations alone. -/
lemma openType_placed {name : String} {off : Int} (hs : s.Placed)
    {P : String → ParserState → Prop} (k : ∀ q s', s'.Placed → P q s') :
    Wp (openType name off) s P :=
  wp_openType name off _ fun q => k q _ hs

/-- A type use is a builtin, a forward reference, or a copy of a registered declaration
with its byte order replaced: placed, as the registry is. -/
theorem typeUse_placed (allowAny : Bool) : PlacedRun (typeUse allowAny) TypeDecl.Placed := by
  intro s hs
  unfold typeUse
  simp -zeta only [wp_bind]
  refine KeepsTypes.placed _ hs fun span s₁ h₁ => KeepsTypes.placed _ h₁ fun le s₂ h₂ => ?_
  -- the byte order flows into a join point, entered with a placed registry
  extract_lets jp
  have hjp : ∀ endian s₃, s₃.Placed → Wp (jp endian) s₃ fun a s' => s'.Placed ∧ a.Placed := by
    intro endian s₃ h₃
    simp -zeta only [jp, wp_bind]
    refine KeepsTypes.placed _ h₃ fun isName s₄ h₄ => ?_
    split
    · simp only [wp_bind]
      refine KeepsTypes.placed _ h₄ fun name s₅ h₅ => wp_instantiate? _ _ _ fun r hr => ?_
      rcases r with _ | d
      · simp
      · have hd : d.Placed := by
          rcases hr d rfl with ⟨q, hq⟩ | ⟨q, hq⟩
          · exact h₅ _ hq
          · exact TypeDecl.placed_forward hq
        simp only [wp_pure]
        refine ⟨h₅, ?_⟩
        split
        · exact hd.of_body_eq rfl
        · exact hd
    · simp only [wp_bind]
      refine KeepsTypes.placed _ h₄ fun isBuiltin s₅ h₅ => ?_
      split
      · simp only [wp_bind]
        refine KeepsTypes.placed _ h₅ fun b s₆ h₆ => ?_
        split <;> simp [h₆, TypeDecl.placed_ofBuiltin]
      · simp
  clear_value jp
  split
  · simpa only [pure_bind] using hjp _ _ h₂
  · simp only [wp_bind]
    refine KeepsTypes.placed _ h₂ fun be s₃ h₃ => ?_
    split <;> simpa only [pure_bind] using hjp _ _ h₃

/-! ### Registering types -/

lemma finishType_placed {d : TypeDecl} (hd : d.Placed) : PlacedRun (finishType d) fun _ => True := by
  intro s hs
  simp only [wp_finishType, and_true]
  intro e he
  rcases List.mem_append.mp he with he | he
  · exact hs e he
  · simp only [List.mem_singleton] at he
    exact he ▸ hd

/-- Attributes change no body, so the registry stays placed. -/
lemma addTypeAttrs_placed (name : String) (attrs : List Attribute) :
    PlacedRun (addTypeAttrs name attrs) fun _ => True := by
  intro s hs
  simp only [wp_addTypeAttrs, and_true]
  intro e he
  obtain ⟨⟨n, d⟩, hmem, rfl⟩ := List.mem_map.mp he
  have hd : d.Placed := hs _ hmem
  dsimp only
  split
  · exact hd.of_body_eq rfl
  · exact hd

/-! ### Member statements -/

lemma atCursor_withAttrs {r : Stmt} (h : r.AtCursor) (more : List Attribute) :
    (Stmt.withAttrs r more).AtCursor := by
  cases h <;> constructor <;> assumption

lemma usesPlaced_withAttrs {r : Stmt} (h : r.UsesPlaced) (more : List Attribute) :
    (Stmt.withAttrs r more).UsesPlaced := by
  intro d hu
  apply h
  -- only the declarations change, and only in their attributes
  cases r <;> first | exact hu | (cases hu <;> constructor)

/-- Trailing attributes leave the statement as it was but for its attributes, and
register those of a type declaration. -/
lemma trailingAttributes_placed (r : Stmt) :
    PlacedRun (trailingAttributes r) fun r' => r' = r ∨ ∃ more, r' = Stmt.withAttrs r more := by
  intro s hs
  unfold trailingAttributes
  simp only [wp_bind]
  refine KeepsTypes.placed _ hs fun _ s₁ h₁ => KeepsTypes.placed _ h₁ fun _ s₂ h₂ => ?_
  split
  · simpa using h₂
  · split
    · simp
    · simp only [wp_bind]
      refine KeepsTypes.placed _ h₂ fun _ s₃ h₃ => KeepsTypes.placed _ h₃ fun _ s₄ h₄ => ?_
      refine KeepsTypes.placed _ h₄ fun attrs s₅ h₅ => KeepsTypes.placed _ h₅ fun _ s₆ h₆ => ?_
      split
      · split
        · simp only [wp_bind]
          exact (addTypeAttrs_placed _ _).wp h₆ fun _ s₇ h₇ _ => (wp_pure _).mpr ⟨h₇, .inr ⟨_, rfl⟩⟩
        · exact (wp_pure _).mpr ⟨h₆, .inr ⟨_, rfl⟩⟩
      · simp

lemma memberVariable_placed {ty : TypeDecl} (hty : ty.Placed) (span : Span) :
    PlacedRun (memberVariable ty span) Stmt.Placed := by
  intro s hs
  unfold memberVariable
  simp only [wp_bind]
  refine KeepsTypes.placed _ hs fun _ s₁ h₁ => KeepsTypes.placed _ h₁ fun _ s₂ h₂ => ?_
  split
  · simpa using ⟨h₂, .var, fun _ hu => by cases hu; exact hty⟩
  · simp only [wp_bind]
    refine KeepsTypes.placed _ h₂ fun _ s₃ h₃ => KeepsTypes.placed _ h₃ fun _ s₄ h₄ => ?_
    simpa using ⟨h₄, .multi, fun _ hu => by cases hu; exact hty⟩

lemma pointerTail_placed {target : TypeDecl} (ht : target.Placed) (span : Span) :
    PlacedRun (pointerTail target span) Stmt.Placed := by
  intro s hs
  unfold pointerTail
  simp only [wp_bind]
  refine KeepsTypes.placed _ hs fun _ s₁ h₁ => KeepsTypes.placed _ h₁ fun _ s₂ h₂ => ?_
  split
  · split
    · simpa using ⟨h₂, .pointer, fun _ hu => by cases hu; exact ht⟩
    · simp
  · simp

lemma placed_ifElse {c : Expr} {t e : List Stmt} {sp : Span} (ht : ∀ m ∈ t, m.Placed)
    (he : ∀ m ∈ e, m.Placed) : (Stmt.ifElse c t e sp).Placed := by
  refine ⟨.ifElse (fun m hm => (ht m hm).1) (fun m hm => (he m hm).1), fun d hu => ?_⟩
  cases hu with
  | thenBranch hm hu => exact (ht _ hm).2 d hu
  | elseBranch hm hu => exact (he _ hm).2 d hu

/-- The specification of each function of the member parser at one fuel. -/
structure MembersPlaced (fuel : Nat) : Prop where
  member : PlacedRun (member fuel) Stmt.Placed
  memberBlock : ∀ what acc, (∀ m ∈ acc, m.Placed) →
    PlacedRun (memberBlock fuel what acc) fun ms => ∀ m ∈ ms, m.Placed
  memberConditional : ∀ span, PlacedRun (memberConditional fuel span) Stmt.Placed
  memberBody : PlacedRun (memberBody fuel) fun ms => ∀ m ∈ ms, m.Placed

variable {fuel : Nat}

/-- A member is a call, a declaration without placement, padding or a conditional. -/
lemma member_placed (ih : MembersPlaced fuel) : PlacedRun (member (fuel + 1)) Stmt.Placed := by
  intro s hs
  simp -zeta only [member, wp_bind]
  refine KeepsTypes.placed _ hs fun span s₁ h₁ => KeepsTypes.placed _ h₁ fun _ s₂ h₂ => ?_
  -- every form but a conditional ends in its trailing attributes and semicolon
  extract_lets jp
  have hjp : ∀ r s', s'.Placed → r.Placed → Wp (jp r) s' fun a s'' => s''.Placed ∧ a.Placed := by
    intro r s₃ h₃ hr
    simp only [jp, wp_bind]
    refine (trailingAttributes_placed r).wp h₃ fun r' s₄ h₄ hr' => ?_
    refine KeepsTypes.placed _ h₄ fun _ s₅ h₅ => (wp_pure _).mpr ⟨h₅, ?_⟩
    rcases hr' with rfl | ⟨more, rfl⟩
    · exact hr
    · exact ⟨atCursor_withAttrs hr.1 more, usesPlaced_withAttrs hr.2 more⟩
  clear_value jp
  split
  · simp only [wp_bind, pure_bind]
    exact KeepsTypes.placed _ h₂ fun _ s₃ h₃ => hjp _ _ h₃ ⟨.exprStmt, fun _ hu => by cases hu⟩
  simp only [wp_bind]
  refine KeepsTypes.placed _ h₂ fun _ s₃ h₃ => ?_
  split
  · -- a declaration: array, variables or pointer
    simp only [wp_bind]
    refine (typeUse_placed false).wp h₃ fun ty s₄ h₄ hty => KeepsTypes.placed _ h₄ fun _ s₅ h₅ => ?_
    split
    · simp only [wp_bind, pure_bind]
      refine KeepsTypes.placed _ h₅ fun _ s₆ h₆ => KeepsTypes.placed _ h₆ fun _ s₇ h₇ => ?_
      exact KeepsTypes.placed _ h₇ fun _ s₈ h₈ =>
        hjp _ _ h₈ ⟨.array, fun _ hu => by cases hu; exact hty⟩
    simp only [wp_bind]
    refine KeepsTypes.placed _ h₅ fun _ s₆ h₆ => ?_
    split
    · rw [wp_bind]
      exact (memberVariable_placed hty _).wp h₆ fun r s₇ h₇ hr => hjp r s₇ h₇ hr
    simp only [wp_bind]
    refine KeepsTypes.placed _ h₆ fun _ s₇ h₇ => ?_
    split
    · rw [wp_bind]
      exact (pointerTail_placed hty _).wp h₇ fun r s₈ h₈ hr => hjp r s₈ h₈ hr
    · simp
  simp only [wp_bind]
  refine KeepsTypes.placed _ h₃ fun _ s₄ h₄ => ?_
  split
  · -- padding
    simp only [wp_bind]
    refine KeepsTypes.placed _ h₄ fun _ s₅ h₅ => KeepsTypes.placed _ h₅ fun _ s₆ h₆ => ?_
    split
    · simpa only [pure_bind] using hjp _ _ h₆ ⟨.padding, fun _ hu => by cases hu⟩
    · simp
  simp only [wp_bind]
  refine KeepsTypes.placed _ h₄ fun _ s₅ h₅ => ?_
  split
  · exact ih.memberConditional span s₅ h₅
  simp only [wp_bind]
  refine KeepsTypes.placed _ h₅ fun _ s₆ h₆ => ?_
  split <;> simp

lemma memberBlock_placed (ih : MembersPlaced fuel) (what : String) (acc : List Stmt)
    (hacc : ∀ m ∈ acc, m.Placed) :
    PlacedRun (memberBlock (fuel + 1) what acc) fun ms => ∀ m ∈ ms, m.Placed := by
  intro s hs
  simp only [memberBlock, wp_bind]
  refine KeepsTypes.placed _ hs fun _ s₁ h₁ => ?_
  split
  · exact (wp_pure _).mpr ⟨h₁, hacc⟩
  simp only [wp_bind]
  refine KeepsTypes.placed _ h₁ fun _ s₂ h₂ => ?_
  split
  · simp
  rw [wp_bind]
  refine ih.member.wp h₂ fun m s₃ h₃ hm => ih.memberBlock what _ ?_ s₃ h₃
  exact List.forall_mem_append.mpr ⟨hacc, List.forall_mem_singleton.mpr hm⟩

lemma memberConditional_placed (ih : MembersPlaced fuel) (span : Span) :
    PlacedRun (memberConditional (fuel + 1) span) Stmt.Placed := by
  intro s hs
  simp only [memberConditional, wp_bind]
  refine KeepsTypes.placed _ hs fun c s₁ h₁ => KeepsTypes.placed _ h₁ fun _ s₂ h₂ => ?_
  split
  · simp only [wp_bind, pure_bind]
    refine ih.memberBody.wp h₂ fun t s₃ h₃ ht => KeepsTypes.placed _ h₃ fun _ s₄ h₄ => ?_
    -- the else branch, if any, then stray semicolons
    have tail : ∀ e s', s'.Placed → (∀ m ∈ e, m.Placed) →
        Wp (do skipSemicolons (← get).tokens.size; pure (Stmt.ifElse c t e span)) s'
          fun a s' => s'.Placed ∧ a.Placed := by
      intro e s₅ h₅ he
      simp only [wp_bind]
      exact KeepsTypes.placed _ h₅ fun _ _ h₆ => KeepsTypes.placed _ h₆ fun _ _ h₇ =>
        (wp_pure _).mpr ⟨h₇, placed_ifElse ht he⟩
    split
    · rw [wp_bind]
      exact ih.memberBody.wp h₄ fun e s₅ h₅ he => by simpa only [wp_bind] using tail e s₅ h₅ he
    · simpa only [wp_bind] using tail [] s₄ h₄ (by simp)
  · simp

lemma memberBody_placed (ih : MembersPlaced fuel) :
    PlacedRun (memberBody (fuel + 1)) fun ms => ∀ m ∈ ms, m.Placed := by
  intro s hs
  simp only [memberBody, wp_bind]
  refine KeepsTypes.placed _ hs fun _ s₁ h₁ => ?_
  split
  · exact ih.memberBlock _ [] (by simp) s₁ h₁
  · rw [wp_bind]
    exact ih.member.wp h₁ fun m s₂ h₂ hm => (wp_pure _).mpr ⟨h₂, by simpa using hm⟩

/-- Every member the member parser returns is placed, at every fuel.

**Proof sketch.** Induction on the fuel: at zero every function fails, and one fuel more
is each function's own lemma above from the specifications one fuel below. -/
theorem membersPlaced (fuel : Nat) : MembersPlaced fuel := by
  induction fuel with
  | zero =>
    constructor <;> intros <;> intro s _ <;>
      simp [member, memberBlock, memberConditional, memberBody]
  | succ fuel ih =>
    exact ⟨member_placed ih, memberBlock_placed ih, memberConditional_placed ih,
      memberBody_placed ih⟩

/-! ### Declarations -/

/-- The bases of a struct are registered declarations. -/
lemma bases_placed (fuel : Nat) : ∀ acc, (∀ b ∈ acc, b.Placed) →
    PlacedRun (bases fuel acc) fun bs => ∀ b ∈ bs, b.Placed := by
  induction fuel with
  | zero => intro _ _ s _; simp [bases]
  | succ fuel ih =>
    intro acc hacc s hs
    simp only [bases, wp_bind]
    refine KeepsTypes.placed _ hs fun _ s₁ h₁ => KeepsTypes.placed _ h₁ fun _ s₂ h₂ => ?_
    refine wp_instantiateFinished? _ _ fun r hr => ?_
    rcases r with _ | d
    · simp
    have hacc' : ∀ b ∈ acc ++ [d], b.Placed := by
      obtain ⟨q, hq⟩ := hr d rfl
      exact List.forall_mem_append.mpr ⟨hacc, List.forall_mem_singleton.mpr (h₂ _ hq)⟩
    simp only [wp_bind]
    refine KeepsTypes.placed _ h₂ fun _ s₃ h₃ => ?_
    split
    · exact ih _ hacc' s₃ h₃
    · exact (wp_pure _).mpr ⟨h₃, hacc'⟩

/-- Only declarations of variables, arrays and pointers use types; a declaration of a type
or a function, and a call, use none. -/
lemma usesPlaced_typeDef (d : TypeDecl) (sp : Span) : (Stmt.typeDef d sp).UsesPlaced :=
  fun _ hu => by cases hu

/-- Registering a placed declaration and returning it as a statement. -/
lemma register_placed {d : TypeDecl} (hd : d.Placed) (sp : Span) (hs : s.Placed) :
    Wp (finishType d) s fun _ s' =>
      Wp (pure (Stmt.typeDef d sp)) s' fun a s'' => s''.Placed ∧ a.UsesPlaced :=
  (finishType_placed hd).wp hs fun _ _ h _ => (wp_pure _).mpr ⟨h, usesPlaced_typeDef _ _⟩

lemma structDecl_placed (fuel : Nat) : PlacedRun (structDecl fuel) Stmt.UsesPlaced := by
  intro s hs
  unfold structDecl
  simp -zeta only [wp_bind]
  refine KeepsTypes.placed _ hs fun span s₁ h₁ => KeepsTypes.placed _ h₁ fun _ s₂ h₂ => ?_
  refine openType_placed h₂ fun q s₃ h₃ => KeepsTypes.placed _ h₃ fun _ s₄ h₄ => ?_
  -- the bases flow into a join point that reads the members and registers the struct
  extract_lets jp
  have hjp : ∀ inherits s', s'.Placed → (∀ b ∈ inherits, b.Placed) →
      Wp (jp inherits) s' fun a s'' => s''.Placed ∧ a.UsesPlaced := by
    intro inherits s₅ h₅ hb
    simp only [jp, wp_bind]
    refine KeepsTypes.placed _ h₅ fun _ s₆ h₆ => ?_
    split
    · rw [wp_bind]
      refine ((membersPlaced fuel).memberBlock _ [] (by simp)).wp h₆ fun ms s₇ h₇ hms => ?_
      rw [wp_bind]
      exact register_placed (TypeDecl.placed_struct rfl hb hms) _ h₇
    · simp
  clear_value jp
  split
  · rw [wp_bind]
    exact (bases_placed fuel [] (by simp)).wp h₄ fun bs s₅ h₅ hbs => hjp bs s₅ h₅ hbs
  simp only [wp_bind]
  refine KeepsTypes.placed _ h₄ fun _ s₅ h₅ => ?_
  split
  · simp
  · simpa only [pure_bind] using hjp [] s₅ h₅ (by simp)

lemma unionDecl_placed (fuel : Nat) : PlacedRun (unionDecl fuel) Stmt.UsesPlaced := by
  intro s hs
  simp only [unionDecl, wp_bind]
  refine KeepsTypes.placed _ hs fun span s₁ h₁ => KeepsTypes.placed _ h₁ fun _ s₂ h₂ => ?_
  refine openType_placed h₂ fun q s₃ h₃ => ?_
  exact ((membersPlaced fuel).memberBlock _ [] (by simp)).wp h₃ fun ms s₄ h₄ hms =>
    register_placed (TypeDecl.placed_union rfl hms) _ h₄

lemma enumDecl_placed (fuel : Nat) : PlacedRun (enumDecl fuel) Stmt.UsesPlaced := by
  intro s hs
  simp only [enumDecl, wp_bind]
  refine KeepsTypes.placed _ hs fun span s₁ h₁ => KeepsTypes.placed _ h₁ fun _ s₂ h₂ => ?_
  refine (typeUse_placed false).wp h₂ fun under s₃ h₃ _ => ?_
  split
  · simp
  split
  · split
    · simp only [wp_bind, pure_bind]
      refine openType_placed h₃ fun q s₄ h₄ => KeepsTypes.placed _ h₄ fun _ s₅ h₅ => ?_
      split
      · simp only [wp_bind]
        exact KeepsTypes.placed _ h₅ fun entries s₆ h₆ => register_placed
          (TypeDecl.placed_of_leaf rfl (fun _ _ h => by cases h) fun _ h => by cases h) _ h₆
      · simp
    · simp
  · simp

lemma bitfieldDecl_placed (fuel : Nat) : PlacedRun (bitfieldDecl fuel) Stmt.UsesPlaced := by
  intro s hs
  simp only [bitfieldDecl, wp_bind]
  refine KeepsTypes.placed _ hs fun span s₁ h₁ => KeepsTypes.placed _ h₁ fun _ s₂ h₂ => ?_
  refine openType_placed h₂ fun q s₃ h₃ => KeepsTypes.placed _ h₃ fun entries s₄ h₄ => ?_
  exact register_placed (TypeDecl.placed_of_leaf rfl (fun _ _ h => by cases h) fun _ h => by cases h)
    _ h₄

lemma usingDecl_placed : PlacedRun usingDecl Stmt.UsesPlaced := by
  intro s hs
  simp only [usingDecl, wp_bind]
  refine KeepsTypes.placed _ hs fun span s₁ h₁ => KeepsTypes.placed _ h₁ fun _ s₂ h₂ => ?_
  refine KeepsTypes.placed _ h₂ fun name s₃ h₃ => KeepsTypes.placed _ h₃ fun _ s₄ h₄ => ?_
  split
  · simp only [wp_bind]
    refine (typeUse_placed false).wp h₄ fun target s₅ h₅ ht => ?_
    exact openType_placed h₅ fun q s₆ h₆ => register_placed (TypeDecl.placed_alias rfl ht) _ h₆
  · simp

lemma usesPlaced_placedAt {r : Stmt} (h : r.UsesPlaced) (p : Placement) :
    (Stmt.placedAt r p).UsesPlaced := by
  intro d hu
  apply h
  -- only the declarations change, and only in their placement
  cases r <;> first | exact hu | (cases hu; constructor)

/-- A top-level declaration of a variable, an array or a pointer uses the type it names. -/
lemma placement_placed (fuel : Nat) : PlacedRun (placement fuel) Stmt.UsesPlaced := by
  intro s hs
  simp only [placement, wp_bind]
  refine KeepsTypes.placed _ hs fun span s₁ h₁ => ?_
  refine (typeUse_placed false).wp h₁ fun ty s₂ h₂ hty => KeepsTypes.placed _ h₂ fun _ s₃ h₃ => ?_
  split
  · -- an array
    simp only [wp_bind]
    refine KeepsTypes.placed _ h₃ fun _ s₄ h₄ => KeepsTypes.placed _ h₄ fun _ s₅ h₅ => ?_
    refine KeepsTypes.placed _ h₅ fun _ s₆ h₆ => KeepsTypes.placed _ h₆ fun _ s₇ h₇ => ?_
    split
    · simp only [wp_bind]
      exact KeepsTypes.placed _ h₇ fun _ s₈ h₈ =>
        (wp_pure _).mpr ⟨h₈, fun _ hu => by cases hu; exact hty⟩
    · simp
  simp only [wp_bind]
  refine KeepsTypes.placed _ h₃ fun _ s₄ h₄ => ?_
  split
  · -- a variable, placed at an offset, as an input or output, or at the cursor
    simp only [wp_bind]
    refine KeepsTypes.placed _ h₄ fun name s₅ h₅ => KeepsTypes.placed _ h₅ fun _ s₆ h₆ => ?_
    have var : ∀ p s', s'.Placed → Wp (pure (Stmt.var name ty p [] span)) s'
        fun a s'' => s''.Placed ∧ a.UsesPlaced := fun p s' h =>
      (wp_pure _).mpr ⟨h, fun _ hu => by cases hu; exact hty⟩
    split
    · simpa only [wp_bind, pure_bind] using KeepsTypes.placed _ h₆ fun e s₇ h₇ => var _ s₇ h₇
    simp only [wp_bind]
    refine KeepsTypes.placed _ h₆ fun _ s₇ h₇ => ?_
    split
    · simpa only [pure_bind] using var _ s₇ h₇
    simp only [wp_bind]
    refine KeepsTypes.placed _ h₇ fun _ s₈ h₈ => ?_
    split <;> simpa only [pure_bind] using var _ s₈ h₈
  simp only [wp_bind]
  refine KeepsTypes.placed _ h₄ fun _ s₅ h₅ => ?_
  split
  · -- a pointer
    simp only [wp_bind]
    refine (pointerTail_placed hty span).wp h₅ fun r s₆ h₆ hr => ?_
    refine KeepsTypes.placed _ h₆ fun _ s₇ h₇ => ?_
    split
    · simp only [wp_bind]
      exact KeepsTypes.placed _ h₇ fun _ s₈ h₈ => (wp_pure _).mpr ⟨h₈, usesPlaced_placedAt hr.2 _⟩
    · simp
  · simp

/-- A function declaration uses no type of the layout: its parameters and locals are
values of the evaluation. -/
lemma function_placed (fuel : Nat) : PlacedRun (function fuel) Stmt.UsesPlaced := by
  intro s hs
  simp -zeta only [function, wp_bind]
  refine KeepsTypes.placed _ hs fun span s₁ h₁ => KeepsTypes.placed _ h₁ fun _ s₂ h₂ => ?_
  refine KeepsTypes.placed _ h₂ fun _ s₃ h₃ => ?_
  extract_lets name withParams declared
  -- with or without parameters, the body follows
  have hjp : ∀ params s', s'.Placed →
      Wp (withParams params) s' fun a s'' => s''.Placed ∧ a.UsesPlaced := by
    intro params s₄ h₄
    simp only [withParams, wp_bind]
    refine KeepsTypes.placed _ h₄ fun _ s₅ h₅ => ?_
    split
    · simp only [wp_bind]
      exact KeepsTypes.placed _ h₅ fun _ s₆ h₆ => (wp_pure _).mpr ⟨h₆, fun _ hu => by cases hu⟩
    · simp
  clear_value withParams
  simp only [declared, wp_bind]
  refine KeepsTypes.placed _ h₃ fun _ s₄ h₄ => ?_
  split
  · simp
  simp only [wp_bind]
  refine KeepsTypes.placed _ h₄ fun _ s₅ h₅ => KeepsTypes.placed _ h₅ fun _ s₆ h₆ => ?_
  split
  · simpa only [pure_bind] using hjp [] s₆ h₆
  · rw [wp_bind]
    exact KeepsTypes.placed _ h₆ fun ps s₇ h₇ => hjp ps s₇ h₇

/-! ### Programs -/

/-- The specification of the parser of top-level statements at one fuel. -/
structure StatementsPlaced (fuel : Nat) : Prop where
  statements : PlacedRun (statements fuel) fun ss => ∀ st ∈ ss, st.UsesPlaced
  namespaceBody : ∀ acc, (∀ st ∈ acc, st.UsesPlaced) →
    PlacedRun (namespaceBody fuel acc) fun ss => ∀ st ∈ ss, st.UsesPlaced

lemma statements_placed (ih : StatementsPlaced fuel) :
    PlacedRun (statements (fuel + 1)) fun ss => ∀ st ∈ ss, st.UsesPlaced := by
  intro s hs
  simp -zeta only [statements, wp_bind]
  refine KeepsTypes.placed _ hs fun _ s₁ h₁ => ?_
  split
  · -- stray semicolons
    simp only [wp_bind]
    exact KeepsTypes.placed _ h₁ fun _ s₂ h₂ => KeepsTypes.placed _ h₂ fun _ s₃ h₃ =>
      (wp_pure _).mpr ⟨h₃, by simp⟩
  simp -zeta only [wp_bind]
  refine KeepsTypes.placed _ h₁ fun _ s₂ h₂ => ?_
  split
  · -- a namespace: its body, between entering and leaving it
    simp only [wp_bind]
    refine KeepsTypes.placed _ h₂ fun _ s₃ h₃ => ?_
    split
    · simp
    simp only [wp_bind]
    refine KeepsTypes.placed _ h₃ fun _ s₄ h₄ => KeepsTypes.placed _ h₄ fun _ s₅ h₅ => ?_
    refine KeepsTypes.placed _ h₅ fun _ s₆ h₆ => KeepsTypes.placed _ h₆ fun _ s₇ h₇ => ?_
    split
    · simp only [wp_bind]
      refine (ih.namespaceBody [] (by simp)).wp h₇ fun body s₈ h₈ hbody => ?_
      refine KeepsTypes.placed _ h₈ fun _ _ h₉ => KeepsTypes.placed _ h₉ fun _ _ h₁₀ => ?_
      exact KeepsTypes.placed _ h₁₀ fun _ _ h₁₁ => (wp_pure _).mpr ⟨h₁₁, hbody⟩
    · simp
  simp -zeta only [wp_bind]
  refine KeepsTypes.placed _ h₂ fun _ s₃ h₃ => ?_
  -- every other statement ends in its trailing attributes and semicolon
  extract_lets jp
  have hjp : ∀ r s', s'.Placed → r.UsesPlaced →
      Wp (jp r) s' fun a s'' => s''.Placed ∧ ∀ st ∈ a, st.UsesPlaced := by
    intro r s₄ h₄ hr
    simp only [jp, wp_bind]
    refine (trailingAttributes_placed r).wp h₄ fun r' s₅ h₅ hr' => ?_
    refine KeepsTypes.placed _ h₅ fun _ s₆ h₆ => (wp_pure _).mpr ⟨h₆, ?_⟩
    simp only [List.mem_singleton, forall_eq]
    rcases hr' with rfl | ⟨more, rfl⟩
    · exact hr
    · exact usesPlaced_withAttrs hr more
  clear_value jp
  have decl : ∀ x, PlacedRun x Stmt.UsesPlaced → ∀ s', s'.Placed →
      Wp (x >>= jp) s' fun a s'' => s''.Placed ∧ ∀ st ∈ a, st.UsesPlaced := by
    intro x hx s' h
    rw [wp_bind]
    exact hx.wp h fun r s'' h' hr => hjp r s'' h' hr
  split
  · exact decl _ usingDecl_placed s₃ h₃
  simp only [wp_bind]
  refine KeepsTypes.placed _ h₃ fun _ s₄ h₄ => ?_
  split
  · simp only [wp_bind, pure_bind]
    exact KeepsTypes.placed _ h₄ fun c s₅ h₅ => hjp _ s₅ h₅ fun _ hu => by cases hu
  simp only [wp_bind]
  refine KeepsTypes.placed _ h₄ fun _ s₅ h₅ => ?_
  split
  · exact decl _ (placement_placed fuel) s₅ h₅
  simp only [wp_bind]
  refine KeepsTypes.placed _ h₅ fun _ s₆ h₆ => ?_
  split
  · exact decl _ (structDecl_placed fuel) s₆ h₆
  simp only [wp_bind]
  refine KeepsTypes.placed _ h₆ fun _ s₇ h₇ => ?_
  split
  · exact decl _ (unionDecl_placed fuel) s₇ h₇
  simp only [wp_bind]
  refine KeepsTypes.placed _ h₇ fun _ s₈ h₈ => ?_
  split
  · exact decl _ (enumDecl_placed fuel) s₈ h₈
  simp only [wp_bind]
  refine KeepsTypes.placed _ h₈ fun _ s₉ h₉ => ?_
  split
  · exact decl _ (bitfieldDecl_placed fuel) s₉ h₉
  simp only [wp_bind]
  refine KeepsTypes.placed _ h₉ fun _ s₁₀ h₁₀ => ?_
  split
  · exact decl _ (function_placed fuel) s₁₀ h₁₀
  · simp

lemma namespaceBody_placed (ih : StatementsPlaced fuel) (acc : List Stmt)
    (hacc : ∀ st ∈ acc, st.UsesPlaced) :
    PlacedRun (namespaceBody (fuel + 1) acc) fun ss => ∀ st ∈ ss, st.UsesPlaced := by
  intro s hs
  simp only [namespaceBody, wp_bind]
  refine KeepsTypes.placed _ hs fun _ s₁ h₁ => ?_
  split
  · exact (wp_pure _).mpr ⟨h₁, hacc⟩
  simp only [wp_bind]
  refine KeepsTypes.placed _ h₁ fun _ s₂ h₂ => ?_
  split
  · simp
  rw [wp_bind]
  exact ih.statements.wp h₂ fun more s₃ h₃ hmore =>
    ih.namespaceBody _ (List.forall_mem_append.mpr ⟨hacc, hmore⟩) s₃ h₃

/-- Every top-level statement the statement parser returns uses placed types only, and the
registry stays placed, at every fuel. -/
theorem statementsPlaced (fuel : Nat) : StatementsPlaced fuel := by
  induction fuel with
  | zero => constructor <;> intros <;> intro s _ <;> simp [statements, namespaceBody]
  | succ fuel ih => exact ⟨statements_placed ih, namespaceBody_placed ih⟩

lemma program_placed (fuel : Nat) : ∀ acc, (∀ st ∈ acc, st.UsesPlaced) →
    PlacedRun (program fuel acc) fun ss => ∀ st ∈ ss, st.UsesPlaced := by
  induction fuel with
  | zero => intro _ _ s _; simp [program]
  | succ fuel ih =>
    intro acc hacc s hs
    simp only [program, wp_bind]
    refine KeepsTypes.placed _ hs fun _ s₁ h₁ => ?_
    split
    · exact (wp_pure _).mpr ⟨h₁, hacc⟩
    rw [wp_bind]
    exact (statementsPlaced fuel).statements.wp h₁ fun more s₂ h₂ hmore =>
      ih _ (List.forall_mem_append.mpr ⟨hacc, hmore⟩) s₂ h₂

end Parse

/-- Every program the parser returns places the members of every struct and union it
builds at the cursor.

**Proof sketch.** The registry starts empty and stays placed through every statement
(`Parse.program_placed`), and every top-level statement uses placed types only; a program
whose registry and statements are placed has its members at the cursor
(`Program.membersAtCursor_of_placed`). -/
theorem parseTokens_membersAtCursor {tokens : Array Token} {p : Program}
    (h : parseTokens tokens = .ok p) : p.MembersAtCursor := by
  simp only [parseTokens, StateT.run', Functor.map, Except.map] at h
  split at h
  · cases h
  rename_i res hrun
  obtain ⟨q, st⟩ := res
  cases h
  refine (Parse.Wp.of_ok hrun).mp (?_ : Parse.Wp _ _ fun (r : Program) _ => r.MembersAtCursor)
  simp only [Parse.wp_bind]
  refine (Parse.program_placed _ [] (by simp)).wp (fun _ he => by cases he)
    fun stmts s₁ h₁ hstmts => ?_
  split
  · simp
  · simp only [Parse.wp_bind, Parse.wp_get, Parse.wp_pure]
    exact Program.membersAtCursor_of_placed h₁ hstmts

end ByteLayout

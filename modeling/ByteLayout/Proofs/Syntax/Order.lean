import ByteLayout.Proofs.Syntax.Program

set_option autoImplicit false

/-!
# Declarations read only what was declared before them

A declaration is read against the registry as it stands when its name is claimed: its body
may name the types registered before it and itself, but no type declared later. Its bases,
and the target of an alias, name the earlier types alone, since a base must be a finished
type and an alias claims its name only after reading its target. So the registry of a parsed
program is ordered: each entry reads only the entries before it (`Parse.Ordered`), which is
what lets a run that follows type names from one declaration to another come to an end.

## Main definitions

* `TypeDecl.ReadsBefore` — a declaration read from a registry, with its own name open.
* `Parse.Ordered` — a registry each of whose entries reads only the entries before it.

## Main results

* `Parse.topOrdered` — top-level statements keep the registry ordered, at every fuel.
* `parseTokens_ordered` — the registry of a parsed program is ordered.

## Design

The statements of `Proofs/Syntax/Program` hold against the registry that results from a run,
which has forgotten when each entry came. This module walks the declaration parsers and the
top-level statements once more with a postcondition about the registry itself, and borrows
the coherence of the registry between statements from `Parse.topValid`.
-/

namespace ByteLayout

/-- A declaration read from the registry `R`: its pieces are valid against `R` with its own
name open, and the types it is made of (its bases, an alias's target) name `R` alone. -/
structure TypeDecl.ReadsBefore (R : List (String × TypeDecl)) (d : TypeDecl) : Prop where
  sound : (Piece.decl d).Sound R [d.name]
  uses : ∀ b, d.body.Holds (.use b) → b.NamesIn R []

/-- Attributes added to a declaration change neither its name nor its body. -/
lemma TypeDecl.ReadsBefore.of_body {R : List (String × TypeDecl)} {d d' : TypeDecl}
    (h : d.ReadsBefore R) (hname : d'.name = d.name) (hbody : d'.body = d.body) :
    d'.ReadsBefore R where
  sound := hname ▸ Piece.sound_decl fun _ hy => h.sound.body_decl (hbody ▸ hy)
  uses b hb := h.uses b (hbody ▸ hb)

namespace Parse

/-- A registry each of whose entries was read from the entries before it. -/
def Ordered (R : List (String × TypeDecl)) : Prop :=
  ∀ i (h : i < R.length), R[i].2.ReadsBefore (R.take i)

lemma ordered_nil : Ordered [] := fun _ h => absurd h (Nat.not_lt_zero _)

/-- Registering a declaration read from the whole registry keeps it ordered. -/
lemma Ordered.append {R : List (String × TypeDecl)} (hR : Ordered R) {e : String × TypeDecl}
    (he : e.2.ReadsBefore R) : Ordered (R ++ [e]) := by
  intro i hi
  rw [List.length_append, List.length_singleton] at hi
  rcases Nat.lt_succ_iff_lt_or_eq.mp hi with hi | rfl
  · rw [List.getElem_append_left hi, List.take_append_of_le_length hi.le]
    exact hR i hi
  · rw [List.getElem_append_right (Nat.le_refl _)]
    simpa using he

/-- Changing the attributes of the last entry keeps a registry ordered. -/
lemma Ordered.last_attrs {R : List (String × TypeDecl)} {n : String} {d d' : TypeDecl}
    (hR : Ordered (R ++ [(n, d)])) (hname : d'.name = d.name) (hbody : d'.body = d.body) :
    Ordered (R ++ [(n, d')]) := by
  have hlast := hR R.length (by simp)
  rw [List.getElem_append_right (Nat.le_refl _), List.take_left' rfl] at hlast
  have hinit : Ordered R := fun i hi => by
    have h := hR i (by simp; omega)
    rwa [List.getElem_append_left hi, List.take_append_of_le_length hi.le] at h
  exact hinit.append (by simpa using (show d.ReadsBefore R by simpa using hlast).of_body hname hbody)

/-! ### Declarations -/

section Declarations

variable {R : List (String × TypeDecl)} {O : List String} {s : ParserState}

/-- The types a statement defining a type is made of name the registry `R` beside the open
names `O`. -/
def DeclUses (R : List (String × TypeDecl)) (O : List String) (st : Stmt) : Prop :=
  ∀ d sp, st = .typeDef d sp → ∀ b, d.body.Holds (.use b) → b.NamesIn R O

/-- A declaration whose body holds no type uses. -/
lemma declUses_of_body {d : TypeDecl} {sp : Span} (h : ∀ b, ¬ d.body.Holds (.use b)) :
    DeclUses R O (.typeDef d sp) := by
  rintro d' sp' ⟨⟩ b hb
  exact absurd hb (h b)

/-- Bases are registered declarations themselves. -/
lemma bases_registered (fuel : Nat) : ∀ acc, (∀ b ∈ acc, ∃ q, R.lookup q = some b) →
    ValidRun R O (bases fuel acc) fun bs => ∀ b ∈ bs, ∃ q, R.lookup q = some b := by
  induction fuel with
  | zero =>
    intro _ _ s _ _
    simp [bases]
  | succ fuel ih =>
    intro acc hacc s h₁ h₂
    simp only [bases, wp_bind]
    refine KeepsTypes.stays _ h₁ h₂ fun _ s h₁ h₂ => KeepsTypes.stays _ h₁ h₂ fun base s h₁ h₂ => ?_
    simp only [instantiateFinished?, wp_bind]
    refine wp_resolveType? _ _ fun r => ?_
    rcases r with _ | q
    · simp
    simp only [wp_bind, wp_get, wp_pure]
    split
    · simp
    rename_i d hd
    have hbs : ∀ b ∈ acc ++ [d], ∃ q, R.lookup q = some b :=
      List.forall_mem_append.mpr ⟨hacc, List.forall_mem_singleton.mpr ⟨q, h₁ ▸ hd⟩⟩
    simp only [wp_bind]
    refine KeepsTypes.stays _ h₁ h₂ fun _ s h₁ h₂ => ?_
    split
    · exact ih _ hbs s h₁ h₂
    · exact ValidRun.ret h₁ h₂ hbs

/-- A registered declaration names the registry as a use, whatever names are open. -/
lemma Coherent.namesIn_lookup (hRO : Coherent R O) {q : String} {d : TypeDecl}
    (hq : R.lookup q = some d) (O' : List String) : d.NamesIn R O' := by
  have hname : d.name = q := hRO.keyed _ (mem_of_lookup_eq_some hq)
  exact .inr (.inl ⟨d, hname ▸ hq, by cases d; rfl⟩)

/-- A struct's bases are registered declarations, read before its own name was open. -/
lemma structDecl_uses (hRO : Coherent R O) (fuel : Nat) : ∀ s : ParserState, s.types = R →
    s.openTypes = O → Wp (structDecl fuel) s fun st _ => DeclUses R O st := by
  intro s h₁ h₂
  simp only [structDecl, wp_bind]
  refine KeepsTypes.stays _ h₁ h₂ fun span s h₁ h₂ => KeepsTypes.stays _ h₁ h₂ fun name s h₁ h₂ => ?_
  refine openType_fresh _ _ h₁ h₂ fun q s hk _ h₁ h₂ => ?_
  have hRO' := hRO.opened hk
  refine KeepsTypes.stays _ h₁ h₂ fun _ s h₁ h₂ => ?_
  -- the bases, if any; the body follows alike
  split
  on_goal 1 =>
    simp only [wp_bind]
    refine (bases_registered fuel [] (by simp)).wp h₁ h₂ fun bs s h₁ h₂ hbs => ?_
  on_goal 2 =>
    simp only [wp_bind]
    refine KeepsTypes.stays _ h₁ h₂ fun _ s h₁ h₂ => ?_
    split
    · simp
    have hbs : ∀ b ∈ ([] : List TypeDecl), ∃ q, R.lookup q = some b := by simp
    simp only [pure_bind, wp_bind]
  all_goals
    refine KeepsTypes.stays _ h₁ h₂ fun _ s h₁ h₂ => ?_
    split
    · simp only [wp_bind]
      refine ((membersValid hRO' fuel).memberBlock _ [] (by simp)).wp h₁ h₂ fun ms s _ _ _ => ?_
      simp only [wp_finishType, wp_pure]
      rintro d sp ⟨⟩ b hb
      cases hb with
      | base hb =>
        obtain ⟨q', hq'⟩ := hbs b hb
        exact hRO.namesIn_lookup hq' O
    · simp

/-- An alias reads its target before it claims its name. -/
lemma usingDecl_uses (hRO : Coherent R O) : ∀ s : ParserState, s.types = R →
    s.openTypes = O → Wp usingDecl s fun st _ => DeclUses R O st := by
  intro s h₁ h₂
  simp only [usingDecl, wp_bind]
  refine KeepsTypes.stays _ h₁ h₂ fun span s h₁ h₂ => KeepsTypes.stays _ h₁ h₂ fun _ s h₁ h₂ => ?_
  refine KeepsTypes.stays _ h₁ h₂ fun name s h₁ h₂ => KeepsTypes.stays _ h₁ h₂ fun _ s h₁ h₂ => ?_
  split
  · simp only [wp_bind]
    refine (typeUse_valid hRO false).wp h₁ h₂ fun target s h₁ h₂ ht => ?_
    refine wp_openType _ _ _ fun q => ?_
    simp only [wp_finishType, wp_pure]
    rintro d sp ⟨⟩ b hb
    cases hb with
    | aliasTarget => exact ht.self
  · simp

lemma unionDecl_uses (hRO : Coherent R O) (fuel : Nat) : ∀ s : ParserState, s.types = R →
    s.openTypes = O → Wp (unionDecl fuel) s fun st _ => DeclUses R O st := by
  intro s h₁ h₂
  simp only [unionDecl, wp_bind]
  refine KeepsTypes.stays _ h₁ h₂ fun span s h₁ h₂ => KeepsTypes.stays _ h₁ h₂ fun name s h₁ h₂ => ?_
  refine openType_fresh _ _ h₁ h₂ fun q s hk _ h₁ h₂ => ?_
  refine ((membersValid (hRO.opened hk) fuel).memberBlock _ [] (by simp)).wp h₁ h₂
    fun ms s _ _ _ => ?_
  simp only [wp_finishType, wp_pure]
  exact declUses_of_body fun b hb => by cases hb

lemma bitfieldDecl_uses (fuel : Nat) : Wp (bitfieldDecl fuel) s fun st _ => DeclUses R O st := by
  simp only [bitfieldDecl, wp_bind]
  refine KeepsTypes.wp_same _ fun span s _ _ => KeepsTypes.wp_same _ fun _ s _ _ => ?_
  refine wp_openType _ _ _ fun q => ?_
  refine KeepsTypes.wp_same _ fun es s _ _ => ?_
  simp only [wp_finishType, wp_pure]
  exact declUses_of_body fun b hb => by cases hb

lemma enumDecl_uses (fuel : Nat) : Wp (enumDecl fuel) s fun st _ => DeclUses R O st := by
  simp only [enumDecl, wp_bind]
  refine KeepsTypes.wp_same _ fun span s _ _ => KeepsTypes.wp_same _ fun _ s _ _ => ?_
  refine KeepsTypes.wp_same _ fun under s _ _ => ?_
  refine (wp_ite _ _ _).mpr ⟨fun _ => by simp, fun _ => ?_⟩
  split
  · split
    · simp only [pure_bind, wp_bind]
      refine wp_openType _ _ _ fun q => ?_
      refine KeepsTypes.wp_same _ fun _ s _ _ => ?_
      split
      · simp only [wp_bind]
        refine KeepsTypes.wp_same _ fun es s _ _ => ?_
        simp only [wp_finishType, wp_pure]
        exact declUses_of_body fun b hb => by cases hb
      · simp
    · simp
  · simp

end Declarations

/-! ### Top-level statements -/

section Statements

variable {fuel : Nat}

/-- A parser of top-level statements that, run from a coherent registry read in order, leaves
a registry read in order. -/
def OrderedRun {α : Type} (x : Parse α) : Prop :=
  ∀ R, Coherent R [] → Ordered R → ∀ s : ParserState, s.types = R → s.openTypes = [] →
    Wp x s fun _ s' => Ordered s'.types

/-- Two postconditions of the successful runs of a parser hold together. -/
lemma Wp.and {α : Type} {x : Parse α} {s : ParserState} {P Q : α → ParserState → Prop}
    (hP : Wp x s P) (hQ : Wp x s Q) : Wp x s fun a s' => P a s' ∧ Q a s' :=
  fun a s' hx => ⟨hP a s' hx, hQ a s' hx⟩

/-- The top-level parsers at one fuel keep the registry ordered. -/
structure TopOrdered (fuel : Nat) : Prop where
  statements : OrderedRun (statements fuel)
  namespaceBody : ∀ acc, OrderedRun (namespaceBody fuel acc)

/-- A statement that defines a type registers it under its name, read from the registry
before it; any other statement leaves the registry alone. -/
lemma trailing_ordered {R : List (String × TypeDecl)} (hR : Ordered R) (r : Stmt)
    (s : ParserState) (hr : (DeclPost R [] r s ∧ DeclUses R [] r) ∨
      (s.types = R ∧ s.openTypes = [] ∧ r.typeEntry? = none)) :
    Wp (do let st ← trailingAttributes r; expectSemicolon; pure [st]) s
      fun _ s' => Ordered s'.types := by
  simp only [wp_bind]
  rcases hr with ⟨⟨d, sp, rfl, hk, -, -, h₁, h₂, hd⟩, hu⟩ | ⟨h₁, h₂, hr⟩
  · -- the new entry reads the registry before it; its attributes change nothing of that
    have hnew : Ordered (R ++ [(d.name, d)]) :=
      hR.append ⟨by simpa using hd, fun b hb => hu d sp rfl b hb⟩
    refine trailingAttributes_typeDef hk h₁ h₂ fun d' s hname hbody h₁ h₂ => ?_
    refine KeepsTypes.stays _ h₁ h₂ fun _ s h₁ _ => (wp_pure _).mpr ?_
    rw [h₁]
    exact hnew.last_attrs hname hbody
  · have hr : ∀ d sp, r ≠ .typeDef d sp := fun d sp h => by simp [h, Stmt.typeEntry?] at hr
    refine (trailingAttributes_valid (O := []) hr).wp h₁ h₂ fun _ s h₁ h₂ _ => ?_
    exact KeepsTypes.stays _ h₁ h₂ fun _ s h₁ _ => (wp_pure _).mpr (h₁ ▸ hR)

lemma statements_ordered (ih : TopOrdered fuel) : OrderedRun (statements (fuel + 1)) := by
  intro R hRO hR s h₁ h₂
  simp -zeta only [statements, wp_bind]
  refine KeepsTypes.stays _ h₁ h₂ fun _ s h₁ h₂ => ?_
  split
  · -- stray semicolons
    simp only [wp_bind]
    refine KeepsTypes.stays _ h₁ h₂ fun _ s h₁ h₂ => KeepsTypes.stays _ h₁ h₂ fun _ s h₁ h₂ => ?_
    exact (wp_pure _).mpr (h₁ ▸ hR)
  simp -zeta only [wp_bind]
  refine KeepsTypes.stays _ h₁ h₂ fun _ s h₁ h₂ => ?_
  split
  · -- a namespace: its body, between entering and leaving it
    simp only [wp_bind]
    refine KeepsTypes.stays _ h₁ h₂ fun _ s h₁ h₂ => ?_
    split
    · simp
    simp only [wp_bind]
    refine KeepsTypes.stays _ h₁ h₂ fun _ s h₁ h₂ => KeepsTypes.stays _ h₁ h₂ fun _ s h₁ h₂ => ?_
    refine KeepsTypes.stays _ h₁ h₂ fun _ s h₁ h₂ => KeepsTypes.stays _ h₁ h₂ fun _ s h₁ h₂ => ?_
    split
    · simp only [wp_bind]
      refine Wp.mono (Wp.and ((topValid fuel).namespaceBody [] hRO (by simp) s h₁ h₂)
        (ih.namespaceBody [] R hRO hR s h₁ h₂)) fun body s hboth => ?_
      obtain ⟨⟨-, -, -, h₂, -, -⟩, hord⟩ := hboth
      refine @KeepsTypes.wp _ _ _ s _ _ rfl fun _ t₁ e₁ => @KeepsTypes.wp _ _ _ s _ _ e₁
        fun _ t₂ e₂ => ?_
      refine @KeepsTypes.wp _ _ _ s _ _ e₂ fun _ t₃ e₃ => (wp_pure _).mpr ?_
      rwa [e₃]
    · simp
  simp -zeta only [wp_bind]
  refine KeepsTypes.stays _ h₁ h₂ fun _ s h₁ h₂ => ?_
  -- every other statement ends in its trailing attributes and semicolon
  have decl : ∀ x : Parse Stmt, DeclRun R [] x →
      (∀ s : ParserState, s.types = R → s.openTypes = [] → Wp x s fun st _ => DeclUses R [] st) →
      ∀ s : ParserState, s.types = R → s.openTypes = [] →
      Wp (x >>= fun st => do let st ← trailingAttributes st; expectSemicolon; pure [st]) s
        fun _ s' => Ordered s'.types := by
    intro x hx hu s h₁ h₂
    rw [wp_bind]
    exact (Wp.and (hx s h₁ h₂) (hu s h₁ h₂)).mono fun r s hr => trailing_ordered hR r s (.inl hr)
  have other : ∀ x : Parse Stmt, ValidRun R [] x (fun st => st.typeEntry? = none ∧
        (Piece.stmt .top st).Sound R []) → ∀ s : ParserState, s.types = R → s.openTypes = [] →
      Wp (x >>= fun st => do let st ← trailingAttributes st; expectSemicolon; pure [st]) s
        fun _ s' => Ordered s'.types := by
    intro x hx s h₁ h₂
    rw [wp_bind]
    exact hx.wp h₁ h₂ fun r s h₁ h₂ hr => trailing_ordered hR r s (.inr ⟨h₁, h₂, hr.1⟩)
  split
  · exact decl _ (usingDecl_declared hRO) (usingDecl_uses hRO) s h₁ h₂
  simp only [wp_bind]
  refine KeepsTypes.stays _ h₁ h₂ fun _ s h₁ h₂ => ?_
  split
  · simp only [wp_bind, pure_bind]
    refine (call_valid hRO fuel).wp h₁ h₂ fun c s h₁ h₂ _ => ?_
    simpa only [wp_bind] using trailing_ordered hR (.exprStmt c c.span) s (.inr ⟨h₁, h₂, rfl⟩)
  simp only [wp_bind]
  refine KeepsTypes.stays _ h₁ h₂ fun _ s h₁ h₂ => ?_
  split
  · exact other _ (placement_valid hRO fuel) s h₁ h₂
  simp only [wp_bind]
  refine KeepsTypes.stays _ h₁ h₂ fun _ s h₁ h₂ => ?_
  split
  · exact decl _ (structDecl_declared hRO fuel) (structDecl_uses hRO fuel) s h₁ h₂
  simp only [wp_bind]
  refine KeepsTypes.stays _ h₁ h₂ fun _ s h₁ h₂ => ?_
  split
  · exact decl _ (unionDecl_declared hRO fuel) (unionDecl_uses hRO fuel) s h₁ h₂
  simp only [wp_bind]
  refine KeepsTypes.stays _ h₁ h₂ fun _ s h₁ h₂ => ?_
  split
  · exact decl _ (enumDecl_declared hRO fuel) (fun s _ _ => enumDecl_uses fuel) s h₁ h₂
  simp only [wp_bind]
  refine KeepsTypes.stays _ h₁ h₂ fun _ s h₁ h₂ => ?_
  split
  · exact decl _ (bitfieldDecl_declared hRO fuel) (fun s _ _ => bitfieldDecl_uses fuel) s h₁ h₂
  simp only [wp_bind]
  refine KeepsTypes.stays _ h₁ h₂ fun _ s h₁ h₂ => ?_
  split
  · exact other _ (function_valid hRO fuel) s h₁ h₂
  · simp

lemma namespaceBody_ordered (ih : TopOrdered fuel) (acc : List Stmt) :
    OrderedRun (namespaceBody (fuel + 1) acc) := by
  intro R hRO hR s h₁ h₂
  simp only [namespaceBody, wp_bind]
  refine KeepsTypes.stays _ h₁ h₂ fun _ s h₁ h₂ => ?_
  split
  · exact (wp_pure _).mpr (h₁ ▸ hR)
  simp only [wp_bind]
  refine KeepsTypes.stays _ h₁ h₂ fun _ s h₁ h₂ => ?_
  split
  · simp
  rw [wp_bind]
  -- the statements read keep the registry coherent, and ordered
  refine (Wp.and ((topValid fuel).statements hRO s h₁ h₂) (ih.statements R hRO hR s h₁ h₂)).mono
    fun out₁ s₁ hboth => ?_
  obtain ⟨⟨-, -, -, ho, hc, -⟩, hord⟩ := hboth
  exact ih.namespaceBody _ _ hc hord s₁ rfl ho

/-- Top-level statements keep the registry ordered, at every fuel. -/
theorem topOrdered (fuel : Nat) : TopOrdered fuel := by
  induction fuel with
  | zero =>
    refine ⟨?_, fun _ => ?_⟩ <;>
    · intro R _ _ s _ _
      simp [statements, namespaceBody, fail, failAt]
  | succ fuel ih =>
    exact ⟨statements_ordered ih, namespaceBody_ordered ih⟩

lemma program_ordered (fuel : Nat) : ∀ acc, OrderedRun (program fuel acc) := by
  induction fuel with
  | zero =>
    intro _ _ _ _ s _ _
    simp [program]
  | succ fuel ih =>
    intro acc R hRO hR s h₁ h₂
    simp only [program, wp_bind]
    refine KeepsTypes.stays _ h₁ h₂ fun _ s h₁ h₂ => ?_
    split
    · exact (wp_pure _).mpr (h₁ ▸ hR)
    rw [wp_bind]
    refine (Wp.and ((topValid fuel).statements hRO s h₁ h₂)
      ((topOrdered fuel).statements R hRO hR s h₁ h₂)).mono fun out₁ s₁ hboth => ?_
    obtain ⟨⟨-, -, -, ho, hc, -⟩, hord⟩ := hboth
    exact ih _ _ hc hord s₁ rfl ho

end Statements

end Parse

/-- **The registry of a parsed program is ordered.** Each registered declaration is made of
pieces valid against the declarations registered before it, with its own name open, and its
bases and an alias's target name those earlier declarations alone.

**Proof sketch.** Each top-level declaration claims its name, reads its body against the
registry as it stands, and registers itself at the end (`Parse.program_ordered`); the
coherence of the registry between statements comes from `Parse.topValid`. -/
theorem parseTokens_ordered {tokens : Array Token} {p : Program}
    (h : parseTokens tokens = .ok p) : Parse.Ordered p.types := by
  simp only [parseTokens, StateT.run', Functor.map, Except.map] at h
  split at h
  · cases h
  rename_i res hrun
  obtain ⟨q, st⟩ := res
  cases h
  refine (Parse.Wp.of_ok hrun).mp (?_ : Parse.Wp _ _ fun (r : Program) _ => Parse.Ordered r.types)
  have h₀ : Parse.Coherent [] [] := ⟨List.nodup_nil, by simp, by simp, by simp, by simp⟩
  simp only [Parse.wp_bind]
  refine (Parse.program_ordered _ [] [] h₀ Parse.ordered_nil _ rfl rfl).mono fun stmts s h => ?_
  split
  · simp
  · simpa only [Parse.wp_bind, Parse.wp_get, Parse.wp_pure] using h

end ByteLayout

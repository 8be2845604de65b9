import ByteLayout.Proofs.Syntax.Frame
import ByteLayout.Proofs.Syntax.Pieces

set_option autoImplicit false

/-!
# What the reading parsers return

The parsers that only read (expressions, type uses, members, function bodies, parameter and
entry lists) return syntax whose pieces are all valid (`Piece.Sound`): every statement stands
in a place that admits it, and every type use names the registry the parser holds. The
registry must be coherent for that (`Parse.Coherent`): one entry per name, each entry
registered under its own name and made of valid pieces, and no open name registered.

## Main definitions

* `Parse.Coherent` — a coherent registry with its open names.
* `Parse.ValidRun` — a parser that keeps the registry and returns valid syntax.

## Main results

* `Parse.typeUse_valid` — a type use names the registry.
* `Parse.exprValid`, `Parse.membersValid`, `Parse.funValid` — expressions, members and
  function statements are valid, at every fuel.

## Design

As for the placement of members, the proof walks each parser one call at a time. Calls
that neither return syntax nor change the registry are stepped over by their frame lemma
(`KeepsTypes.stays`); calls that return syntax by their own specification
(`ValidRun.wp`). The registry `R` and the open names `O` are fixed along a reading parser,
so the specifications are stated for them, as section variables.
-/

namespace ByteLayout

/-- A piece all of whose pieces are valid against the registry `R` and the open names `O`. -/
def Piece.Sound (R : List (String × TypeDecl)) (O : List String) (x : Piece) : Prop :=
  x.Deep (Piece.Valid R O)

namespace Piece

variable {R : List (String × TypeDecl)} {O : List String} {x : Piece}

lemma sound_expr {e : Expr} (h : ∀ y, Child (.expr e) y → y.Sound R O) :
    (Piece.expr e).Sound R O :=
  Deep.intro trivial h

lemma sound_stmt {k : Site} {s : Stmt} (hs : s.Fits k) (h : ∀ y, Child (.stmt k s) y → y.Sound R O) :
    (Piece.stmt k s).Sound R O :=
  Deep.intro hs h

lemma sound_use {d : TypeDecl} (hd : d.NamesIn R O) (h : ∀ y, d.body.Holds y → y.Sound R O) :
    (Piece.use d).Sound R O :=
  Deep.intro hd fun y hy => by
    cases hy with
    | use hy => exact h y hy

lemma sound_decl {d : TypeDecl} (h : ∀ y, d.body.Holds y → y.Sound R O) :
    (Piece.decl d).Sound R O :=
  Deep.intro trivial fun y hy => by
    cases hy with
    | decl hy => exact h y hy

lemma Sound.body_use {d : TypeDecl} (h : (Piece.use d).Sound R O) {y : Piece} (hy : d.body.Holds y) :
    y.Sound R O :=
  Deep.child h (.use hy)

lemma Sound.body_decl {d : TypeDecl} (h : (Piece.decl d).Sound R O) {y : Piece}
    (hy : d.body.Holds y) : y.Sound R O :=
  Deep.child h (.decl hy)

lemma Sound.mono {E : List (String × TypeDecl)} {O' : List String} (h : x.Sound R O)
    (hO : ∀ q ∈ O, q ∈ (R ++ E).map Prod.fst ∨ q ∈ O') : x.Sound (R ++ E) O' :=
  Deep.mono h fun _ hy => hy.mono hO

/-- A literal, `$` or `sizeof` of a builtin has no pieces. -/
lemma sound_leaf {e : Expr} (h : ∀ y, ¬ Child (.expr e) y) : (Piece.expr e).Sound R O :=
  sound_expr fun y hy => absurd hy (h y)

end Piece

/-- Replacing the byte order of a type use keeps the declaration it names. -/
lemma TypeDecl.NamesIn.withEndian {R : List (String × TypeDecl)} {O : List String}
    {d : TypeDecl} (h : d.NamesIn R O) (en : Option Endian) :
    ({ d with endian := en } : TypeDecl).NamesIn R O := by
  rcases h with hf | ⟨e, he, hde⟩ | hb
  · exact .inl hf
  · exact .inr (.inl ⟨e, he, hde⟩)
  · exact .inr (.inr hb)

/-- A variable at the cursor, or a group of variables, is a member and a statement of a
function body alike. -/
lemma Stmt.fits_var_cursor {k : Site} (hk : k ≠ .top) {n : String} {ty : TypeDecl}
    {attrs : List Attribute} {sp : Span} : (Stmt.var n ty .cursor attrs sp).Fits k := by
  cases k
  · exact absurd rfl hk
  · exact .memberVar
  · exact .bodyVar

lemma Stmt.fits_multi {k : Site} (hk : k ≠ .top) {names : List String} {ty : TypeDecl}
    {sp : Span} : (Stmt.multi names ty sp).Fits k := by
  cases k
  · exact absurd rfl hk
  · exact .memberMulti
  · exact .bodyMulti

/-- Only the top level defines types. -/
lemma Stmt.Fits.ne_typeDef {k : Site} {s : Stmt} (h : s.Fits k) (hk : k ≠ .top) (d : TypeDecl)
    (sp : Span) : s ≠ .typeDef d sp := by
  rintro rfl
  cases h
  exact hk rfl

lemma Stmt.Fits.withAttrs {k : Site} {s : Stmt} (h : s.Fits k) (more : List Attribute) :
    (Parse.Stmt.withAttrs s more).Fits k := by
  cases h <;> constructor

/-- Attributes change no piece of a statement but a declared type's attributes. -/
lemma Piece.Sound.withAttrs {R : List (String × TypeDecl)} {O : List String} {k : Site}
    {s : Stmt} (h : (Piece.stmt k s).Sound R O) (more : List Attribute) :
    (Piece.stmt k (Parse.Stmt.withAttrs s more)).Sound R O := by
  refine Piece.sound_stmt (h.self.withAttrs more) fun y hy => ?_
  cases s <;> simp only [Parse.Stmt.withAttrs] at hy
  case typeDef d sp =>
    cases hy
    exact Piece.sound_decl fun z hz => Piece.Sound.body_decl (h.child .typeDef) hz
  all_goals first | exact h.child hy | (cases hy <;> exact h.child (by constructor))

namespace Parse

variable {α : Type}

/-- A registry with its open names as the parser keeps them: one entry per name, each
registered under its own name, declared rather than a forward reference and made of valid
pieces, and no open name registered. -/
structure Coherent (R : List (String × TypeDecl)) (O : List String) : Prop where
  nodup : (R.map Prod.fst).Nodup
  keyed : ∀ e ∈ R, e.2.name = e.1
  declared : ∀ e ∈ R, ∀ q, e.2.body ≠ .forward q
  fresh : ∀ q ∈ O, q ∉ R.map Prod.fst
  valid : ∀ e ∈ R, (Piece.decl e.2).Sound R O

/-- From the registry `R` with the open names `O`, every run of `x` leaves both as they were
and returns a value with `Q`. -/
def ValidRun (R : List (String × TypeDecl)) (O : List String) (x : Parse α) (Q : α → Prop) :
    Prop :=
  ∀ s : ParserState, s.types = R → s.openTypes = O →
    Wp x s fun a s' => s'.types = R ∧ s'.openTypes = O ∧ Q a

section Runs

variable {R : List (String × TypeDecl)} {O : List String} {s : ParserState}
  {P : α → ParserState → Prop}

lemma ValidRun.wp {x : Parse α} {Q : α → Prop} (hx : ValidRun R O x Q) (h₁ : s.types = R)
    (h₂ : s.openTypes = O) (k : ∀ a s', s'.types = R → s'.openTypes = O → Q a → P a s') :
    Wp x s P :=
  (hx s h₁ h₂).mono fun a s' h => k a s' h.1 h.2.1 h.2.2

/-- A parser that leaves the registry alone is stepped over. -/
lemma KeepsTypes.stays (x : Parse α) [KeepsTypes x] (h₁ : s.types = R) (h₂ : s.openTypes = O)
    (k : ∀ a s', s'.types = R → s'.openTypes = O → P a s') : Wp x s P :=
  KeepsTypes.wp_same x fun a s' e₁ e₂ => k a s' (e₁.trans h₁) (e₂.trans h₂)

lemma ValidRun.ret {a : α} {Q : α → Prop} (h₁ : s.types = R) (h₂ : s.openTypes = O) (ha : Q a) :
    Wp (pure a) s fun a s' => s'.types = R ∧ s'.openTypes = O ∧ Q a :=
  (wp_pure _).mpr ⟨h₁, h₂, ha⟩

end Runs

/-! ### Type uses -/

/-- A name resolves to a registered or an open name. -/
lemma wp_resolveType?_known {s : ParserState} (name : String)
    (P : Option String → ParserState → Prop)
    (h : ∀ r, (∀ q, r = some q → (s.types.lookup q).isSome ∨ q ∈ s.openTypes) → P r s) :
    Wp (resolveType? name) s P := by
  simp only [resolveType?, isKnownType, qualify, wp_bind, wp_get, wp_pure, wp_ite,
    Bool.or_eq_true, List.contains_iff_mem]
  refine ⟨fun hk => h _ ?_, fun _ => ⟨fun hk => h _ ?_, fun _ => h _ (by simp)⟩⟩
  · rintro q ⟨⟩
    exact hk
  · rintro q ⟨⟩
    exact hk

section Registry

variable {R : List (String × TypeDecl)} {O : List String} (hRO : Coherent R O)
include hRO

/-- A registered declaration is a valid use of its own name. -/
lemma Coherent.sound_copy {q : String} {d : TypeDecl} (hq : R.lookup q = some d) :
    (Piece.use d).Sound R O := by
  have hmem := mem_of_lookup_eq_some hq
  have hname : d.name = q := hRO.keyed _ hmem
  refine Piece.sound_use (.inr (.inl ⟨d, hname ▸ hq, by cases d; rfl⟩)) fun y hy => ?_
  exact (hRO.valid _ hmem).body_decl hy

/-- A use gets a copy of a registered declaration, or a forward reference to an open name. -/
lemma instantiate?_valid (name : String) (span : Span) :
    ValidRun R O (instantiate? name span) fun r => ∀ d, r = some d → (Piece.use d).Sound R O := by
  intro s h₁ h₂
  simp only [instantiate?, wp_bind]
  refine wp_resolveType?_known name _ fun r hr => ?_
  rcases r with _ | q
  · simp [h₁, h₂]
  simp only [wp_bind, wp_get]
  split
  · rename_i d hd
    refine ValidRun.ret h₁ h₂ fun d' hd' => ?_
    cases hd'
    exact hRO.sound_copy (h₁ ▸ hd)
  · rename_i hd
    refine ValidRun.ret h₁ h₂ fun d' hd' => ?_
    cases hd'
    -- a name that is known and not registered is open
    have hq : q ∈ O := by
      rcases hr q rfl with hk | hk
      · rw [hd] at hk
        cases hk
      · exact h₂ ▸ hk
    exact Piece.sound_use (.inl ⟨q, rfl, .inr hq⟩) fun y hy => by cases hy

/-- A base is a copy of a registered declaration. -/
lemma instantiateFinished?_valid (name : String) :
    ValidRun R O (instantiateFinished? name) fun r =>
      ∀ d, r = some d → (Piece.use d).Sound R O := by
  intro s h₁ h₂
  simp only [instantiateFinished?, wp_bind]
  refine wp_resolveType?_known name _ fun r _ => ?_
  rcases r with _ | q
  · simp [h₁, h₂]
  simp only [wp_bind, wp_get]
  refine ValidRun.ret h₁ h₂ fun d hd => hRO.sound_copy (h₁ ▸ hd)

/-- A type use is a builtin, a forward reference to an open name, or a copy of a registered
declaration with its byte order possibly replaced. -/
theorem typeUse_valid (allowAny : Bool) :
    ValidRun R O (typeUse allowAny) fun d => (Piece.use d).Sound R O := by
  intro s h₁ h₂
  unfold typeUse
  simp -zeta only [wp_bind]
  refine KeepsTypes.stays _ h₁ h₂ fun span s h₁ h₂ => KeepsTypes.stays _ h₁ h₂ fun le s h₁ h₂ => ?_
  -- the byte order flows into a join point, entered with the same registry
  extract_lets jp
  have hjp : ∀ endian s', s'.types = R → s'.openTypes = O →
      Wp (jp endian) s' fun a s'' =>
        s''.types = R ∧ s''.openTypes = O ∧ (Piece.use a).Sound R O := by
    intro endian s h₁ h₂
    simp -zeta only [jp, wp_bind]
    refine KeepsTypes.stays _ h₁ h₂ fun isName s h₁ h₂ => ?_
    split
    · simp only [wp_bind]
      refine KeepsTypes.stays _ h₁ h₂ fun name s h₁ h₂ => ?_
      refine (instantiate?_valid hRO name span).wp h₁ h₂ fun r s h₁ h₂ hr => ?_
      rcases r with _ | d
      · simp
      have hd := hr d rfl
      refine ValidRun.ret h₁ h₂ ?_
      split
      · exact Piece.sound_use (hd.self.withEndian _) fun y hy => hd.body_use hy
      · exact hd
    · simp only [wp_bind]
      refine KeepsTypes.stays _ h₁ h₂ fun isBuiltin s h₁ h₂ => ?_
      split
      · simp only [wp_bind]
        refine KeepsTypes.stays _ h₁ h₂ fun b s h₁ h₂ => ?_
        have hb : (Piece.use (TypeDecl.ofBuiltin b endian span)).Sound R O :=
          Piece.sound_use (.inr (.inr ⟨rfl, b, rfl⟩)) fun y hy => by cases hy
        split
        · simp
        · exact ValidRun.ret h₁ h₂ hb
      · simp
  clear_value jp
  split
  · simpa only [pure_bind] using hjp _ _ h₁ h₂
  · simp only [wp_bind]
    refine KeepsTypes.stays _ h₁ h₂ fun be s h₁ h₂ => ?_
    split <;> simpa only [pure_bind] using hjp _ _ h₁ h₂

end Registry

/-! ### Expressions -/

section Expressions

variable {R : List (String × TypeDecl)} {O : List String}

/-- The specification of each function of the expression parser at one fuel. -/
structure ExprValid (R : List (String × TypeDecl)) (O : List String) (fuel : Nat) : Prop where
  expr : ValidRun R O (expr fuel) fun e => (Piece.expr e).Sound R O
  ternary : ValidRun R O (ternary fuel) fun e => (Piece.expr e).Sound R O
  binary : ∀ level, ValidRun R O (binary fuel level) fun e => (Piece.expr e).Sound R O
  binaryRest : ∀ level lhs, (Piece.expr lhs).Sound R O →
    ValidRun R O (binaryRest fuel level lhs) fun e => (Piece.expr e).Sound R O
  unary : ValidRun R O (unary fuel) fun e => (Piece.expr e).Sound R O
  cast : ValidRun R O (cast fuel) fun e => (Piece.expr e).Sound R O
  primary : ValidRun R O (primary fuel) fun e => (Piece.expr e).Sound R O
  path : ∀ acc, (∀ i, PathSeg.index i ∈ acc → (Piece.expr i).Sound R O) →
    ValidRun R O (path fuel acc) fun segs => ∀ i, PathSeg.index i ∈ segs → (Piece.expr i).Sound R O
  arguments : ∀ acc, (∀ a ∈ acc, (Piece.expr a).Sound R O) →
    ValidRun R O (arguments fuel acc) fun args => ∀ a ∈ args, (Piece.expr a).Sound R O

/-- A scope resolution names a registered or an open type. -/
lemma scopeRest_valid (hRO : Coherent R O) (fuel : Nat) : ∀ span typeName,
    ValidRun R O (scopeRest fuel span typeName) fun e => (Piece.expr e).Sound R O := by
  induction fuel with
  | zero => intro _ _ s _ _; simp [scopeRest]
  | succ fuel ih =>
    intro span typeName s h₁ h₂
    simp only [scopeRest, wp_bind]
    refine KeepsTypes.stays _ h₁ h₂ fun _ s h₁ h₂ => ?_
    split
    swap
    · simp
    simp only [wp_bind]
    refine KeepsTypes.stays _ h₁ h₂ fun part s h₁ h₂ => KeepsTypes.stays _ h₁ h₂ fun _ s h₁ h₂ => ?_
    refine KeepsTypes.stays _ h₁ h₂ fun _ s h₁ h₂ => ?_
    split
    · exact ih _ _ s h₁ h₂
    simp only [wp_bind]
    refine (instantiate?_valid hRO typeName span).wp h₁ h₂ fun r s h₁ h₂ hr => ?_
    rcases r with _ | ty
    · simp
    simp only [wp_bind]
    refine KeepsTypes.stays _ h₁ h₂ fun _ s h₁ h₂ => ValidRun.ret h₁ h₂ ?_
    exact Piece.sound_expr fun y hy => by
      cases hy
      exact hr ty rfl

variable {fuel : Nat}

lemma ternary_valid (ih : ExprValid R O fuel) :
    ValidRun R O (ternary (fuel + 1)) fun e => (Piece.expr e).Sound R O := by
  intro s h₁ h₂
  simp only [ternary, wp_bind]
  refine (ih.binary 0).wp h₁ h₂ fun c s h₁ h₂ hc => KeepsTypes.stays _ h₁ h₂ fun _ s h₁ h₂ => ?_
  split
  · exact ValidRun.ret h₁ h₂ hc
  simp only [wp_bind]
  refine ih.ternary.wp h₁ h₂ fun t s h₁ h₂ ht => KeepsTypes.stays _ h₁ h₂ fun _ s h₁ h₂ => ?_
  split
  · simp only [wp_bind]
    refine ih.ternary.wp h₁ h₂ fun e s h₁ h₂ he => ValidRun.ret h₁ h₂ ?_
    exact Piece.sound_expr fun y hy => by
      cases hy
      exacts [hc, ht, he]
  · simp

lemma binary_valid (ih : ExprValid R O fuel) (level : Nat) :
    ValidRun R O (binary (fuel + 1) level) fun e => (Piece.expr e).Sound R O := by
  intro s h₁ h₂
  simp only [binary]
  split
  · simp only [wp_bind]
    exact (ih.binary _).wp h₁ h₂ fun lhs s h₁ h₂ hl => ih.binaryRest level lhs hl s h₁ h₂
  · exact ih.unary s h₁ h₂

lemma binaryRest_valid (ih : ExprValid R O fuel) (level : Nat) (lhs : Expr)
    (hl : (Piece.expr lhs).Sound R O) :
    ValidRun R O (binaryRest (fuel + 1) level lhs) fun e => (Piece.expr e).Sound R O := by
  intro s h₁ h₂
  simp only [binaryRest, wp_bind]
  refine KeepsTypes.stays _ h₁ h₂ fun op s h₁ h₂ => ?_
  rcases op with _ | op
  · exact ValidRun.ret h₁ h₂ hl
  simp only [wp_bind]
  refine KeepsTypes.stays _ h₁ h₂ fun _ s h₁ h₂ => ?_
  refine (ih.binary _).wp h₁ h₂ fun rhs s h₁ h₂ hr => ih.binaryRest level _ ?_ s h₁ h₂
  exact Piece.sound_expr fun y hy => by
    cases hy
    exacts [hl, hr]

lemma unary_valid (ih : ExprValid R O fuel) :
    ValidRun R O (unary (fuel + 1)) fun e => (Piece.expr e).Sound R O := by
  intro s h₁ h₂
  simp only [unary, wp_bind]
  refine KeepsTypes.stays _ h₁ h₂ fun start s h₁ h₂ => KeepsTypes.stays _ h₁ h₂ fun k s h₁ h₂ => ?_
  split
  · simp only [wp_bind]
    refine KeepsTypes.stays _ h₁ h₂ fun _ s h₁ h₂ => ?_
    refine ih.unary.wp h₁ h₂ fun e s h₁ h₂ he => ValidRun.ret h₁ h₂ ?_
    exact Piece.sound_expr fun y hy => by
      cases hy
      exact he
  · exact ih.cast s h₁ h₂

lemma cast_valid (ih : ExprValid R O fuel) :
    ValidRun R O (cast (fuel + 1)) fun e => (Piece.expr e).Sound R O := by
  intro s h₁ h₂
  simp only [cast, wp_bind]
  refine KeepsTypes.stays _ h₁ h₂ fun k s h₁ h₂ => ?_
  split
  · exact ih.primary s h₁ h₂
  simp only [wp_bind]
  refine KeepsTypes.stays _ h₁ h₂ fun start s h₁ h₂ => ?_
  refine KeepsTypes.stays _ h₁ h₂ fun target s h₁ h₂ => ?_
  split
  · simp
  simp only [wp_bind]
  refine KeepsTypes.stays _ h₁ h₂ fun _ s h₁ h₂ => ?_
  split
  · simp only [wp_bind]
    refine ih.primary.wp h₁ h₂ fun e s h₁ h₂ he => ValidRun.ret h₁ h₂ ?_
    exact Piece.sound_expr fun y hy => by
      cases hy
      exact he
  · simp

lemma path_valid (ih : ExprValid R O fuel) (acc : List PathSeg)
    (hacc : ∀ i, PathSeg.index i ∈ acc → (Piece.expr i).Sound R O) :
    ValidRun R O (path (fuel + 1) acc) fun segs =>
      ∀ i, PathSeg.index i ∈ segs → (Piece.expr i).Sound R O := by
  intro s h₁ h₂
  simp -zeta only [path, wp_bind]
  refine KeepsTypes.stays _ h₁ h₂ fun isName s h₁ h₂ => ?_
  -- every segment but an index flows into a join point that reads an optional index, and
  -- the segments so far into one that reads the next segment, if a dot follows
  extract_lets more next
  have hmore : ∀ acc' s', s'.types = R → s'.openTypes = O →
      (∀ i, PathSeg.index i ∈ acc' → (Piece.expr i).Sound R O) →
      Wp (more acc') s' fun a s'' => s''.types = R ∧ s''.openTypes = O ∧
        ∀ i, PathSeg.index i ∈ a → (Piece.expr i).Sound R O := by
    intro acc' s h₁ h₂ hacc'
    simp only [more, wp_bind]
    refine KeepsTypes.stays _ h₁ h₂ fun _ s h₁ h₂ => ?_
    split
    · exact ih.path _ hacc' s h₁ h₂
    · exact ValidRun.ret h₁ h₂ hacc'
  have hnext : ∀ seg s', s'.types = R → s'.openTypes = O → (∀ i, seg ≠ PathSeg.index i) →
      Wp (next seg) s' fun a s'' => s''.types = R ∧ s''.openTypes = O ∧
        ∀ i, PathSeg.index i ∈ a → (Piece.expr i).Sound R O := by
    intro seg s h₁ h₂ hseg
    have hacc' : ∀ i, PathSeg.index i ∈ acc ++ [seg] → (Piece.expr i).Sound R O := by
      intro i hi
      rcases List.mem_append.mp hi with hi | hi
      · exact hacc i hi
      · exact absurd (List.mem_singleton.mp hi).symm (hseg i)
    simp only [next, wp_bind]
    refine KeepsTypes.stays _ h₁ h₂ fun _ s h₁ h₂ => ?_
    split
    · simp only [wp_bind]
      refine ih.expr.wp h₁ h₂ fun i s h₁ h₂ hi => KeepsTypes.stays _ h₁ h₂ fun _ s h₁ h₂ => ?_
      split
      · simp only [pure_bind]
        refine hmore _ s h₁ h₂ fun j hj => ?_
        rcases List.mem_append.mp hj with hj | hj
        · exact hacc' j hj
        · cases List.mem_singleton.mp hj
          exact hi
      · simp
    · simpa only [pure_bind] using hmore _ s h₁ h₂ hacc'
  clear_value more next
  split
  · simp only [wp_bind]
    refine KeepsTypes.stays _ h₁ h₂ fun n s h₁ h₂ => ?_
    exact (wp_pure _).mpr <| hnext (.name n) s h₁ h₂ fun i h => by cases h
  simp only [wp_bind]
  refine KeepsTypes.stays _ h₁ h₂ fun _ s h₁ h₂ => ?_
  split
  · simpa only [pure_bind] using hnext .parent s h₁ h₂ fun i h => by cases h
  split
  · simp only [wp_bind]
    refine KeepsTypes.stays _ h₁ h₂ fun _ s h₁ h₂ => ?_
    split
    · simpa only [pure_bind] using hnext .current s h₁ h₂ fun i h => by cases h
    · simp
  · simp

lemma arguments_valid (ih : ExprValid R O fuel) (acc : List Expr)
    (hacc : ∀ a ∈ acc, (Piece.expr a).Sound R O) :
    ValidRun R O (arguments (fuel + 1) acc) fun args => ∀ a ∈ args, (Piece.expr a).Sound R O := by
  intro s h₁ h₂
  simp only [arguments, wp_bind]
  refine ih.expr.wp h₁ h₂ fun a s h₁ h₂ ha => KeepsTypes.stays _ h₁ h₂ fun _ s h₁ h₂ => ?_
  have hacc' : ∀ b ∈ acc ++ [a], (Piece.expr b).Sound R O :=
    List.forall_mem_append.mpr ⟨hacc, List.forall_mem_singleton.mpr ha⟩
  split
  · simp
  simp only [wp_bind]
  refine KeepsTypes.stays _ h₁ h₂ fun _ s h₁ h₂ => ?_
  split
  · exact ValidRun.ret h₁ h₂ hacc'
  simp only [wp_bind]
  refine KeepsTypes.stays _ h₁ h₂ fun _ s h₁ h₂ => ?_
  split
  · exact ih.arguments _ hacc' s h₁ h₂
  · simp

/-- A call: its arguments are the only pieces. -/
lemma callWith_valid {args : Parse (List Expr)}
    (hargs : ValidRun R O args fun as => ∀ a ∈ as, (Piece.expr a).Sound R O) :
    ValidRun R O (callWith args) fun e =>
      (∃ name ns as sp, e = .call name ns as sp) ∧ (Piece.expr e).Sound R O := by
  intro s h₁ h₂
  simp -zeta only [callWith, wp_bind]
  refine KeepsTypes.stays _ h₁ h₂ fun span s h₁ h₂ => KeepsTypes.stays _ h₁ h₂ fun name s h₁ h₂ => ?_
  refine KeepsTypes.stays _ h₁ h₂ fun _ s h₁ h₂ => ?_
  -- the arguments, none or read by `args`, flow into the call
  extract_lets jp paren
  have hjp : ∀ as s', s'.types = R → s'.openTypes = O → (∀ a ∈ as, (Piece.expr a).Sound R O) →
      Wp (jp as) s' fun a s'' => s''.types = R ∧ s''.openTypes = O ∧
        (∃ name ns as sp, a = .call name ns as sp) ∧ (Piece.expr a).Sound R O := by
    intro as s h₁ h₂ has
    simp only [jp, wp_bind]
    refine KeepsTypes.stays _ h₁ h₂ fun _ s h₁ h₂ => KeepsTypes.stays _ h₁ h₂ fun _ s h₁ h₂ => ?_
    refine ValidRun.ret h₁ h₂ ⟨⟨_, _, _, _, rfl⟩, Piece.sound_expr fun y hy => ?_⟩
    cases hy with
    | callArg ha => exact has _ ha
  clear_value jp
  split
  · simp only [paren, wp_bind]
    refine KeepsTypes.stays _ h₁ h₂ fun _ s h₁ h₂ => ?_
    split
    · simpa only [pure_bind] using hjp [] s h₁ h₂ (by simp)
    · simp only [wp_bind]
      exact hargs.wp h₁ h₂ fun as s h₁ h₂ has => hjp as s h₁ h₂ has
  · simp

lemma primary_valid (hRO : Coherent R O) (ih : ExprValid R O fuel) :
    ValidRun R O (primary (fuel + 1)) fun e => (Piece.expr e).Sound R O := by
  intro s h₁ h₂
  simp -zeta only [primary, wp_bind]
  refine KeepsTypes.stays _ h₁ h₂ fun span s h₁ h₂ => KeepsTypes.stays _ h₁ h₂ fun k s h₁ h₂ => ?_
  split
  · simp only [wp_bind]
    refine KeepsTypes.stays _ h₁ h₂ fun _ s h₁ h₂ => ValidRun.ret h₁ h₂ ?_
    exact Piece.sound_leaf fun y hy => by cases hy
  simp -zeta only [wp_bind]
  refine KeepsTypes.stays _ h₁ h₂ fun _ s h₁ h₂ => ?_
  split
  · -- a parenthesized expression
    simp only [wp_bind]
    refine ih.expr.wp h₁ h₂ fun inner s h₁ h₂ hi => KeepsTypes.stays _ h₁ h₂ fun _ s h₁ h₂ => ?_
    split
    · exact ValidRun.ret h₁ h₂ hi
    · simp
  simp -zeta only [wp_bind]
  refine KeepsTypes.stays _ h₁ h₂ fun _ s h₁ h₂ => ?_
  split
  · exact (callWith_valid (ih.arguments [] (by simp))).wp h₁ h₂ fun e s h₁ h₂ he =>
      ⟨h₁, h₂, he.2⟩
  simp -zeta only [wp_bind]
  refine KeepsTypes.stays _ h₁ h₂ fun _ s h₁ h₂ => KeepsTypes.stays _ h₁ h₂ fun _ s h₁ h₂ => ?_
  split
  · -- a scope resolution
    simp only [wp_bind]
    refine KeepsTypes.stays _ h₁ h₂ fun first s h₁ h₂ => KeepsTypes.stays _ h₁ h₂ fun _ s h₁ h₂ => ?_
    exact scopeRest_valid hRO fuel span first s h₁ h₂
  split
  · -- a member path
    simp only [wp_bind]
    refine (ih.path [] (by simp)).wp h₁ h₂ fun segs s h₁ h₂ hs => ?_
    refine KeepsTypes.stays _ h₁ h₂ fun _ s h₁ h₂ => ValidRun.ret h₁ h₂ ?_
    exact Piece.sound_expr fun y hy => by
      cases hy with
      | pathIndex hi => exact hs _ hi
  simp -zeta only [wp_bind]
  refine KeepsTypes.stays _ h₁ h₂ fun _ s h₁ h₂ => ?_
  split
  · exact ValidRun.ret h₁ h₂ (Piece.sound_leaf fun y hy => by cases hy)
  simp -zeta only [wp_bind]
  refine KeepsTypes.stays _ h₁ h₂ fun _ s h₁ h₂ => ?_
  split
  · -- `addressof`
    simp only [wp_bind]
    refine (ih.path [] (by simp)).wp h₁ h₂ fun segs s h₁ h₂ hs => ?_
    refine KeepsTypes.stays _ h₁ h₂ fun _ s h₁ h₂ => KeepsTypes.stays _ h₁ h₂ fun _ s h₁ h₂ => ?_
    refine ValidRun.ret h₁ h₂ (Piece.sound_expr fun y hy => ?_)
    cases hy with
    | addressOfIndex hi => exact hs _ hi
  simp -zeta only [wp_bind]
  refine KeepsTypes.stays _ h₁ h₂ fun _ s h₁ h₂ => ?_
  split
  · -- `sizeof`, of a builtin or of a path
    simp -zeta only [wp_bind]
    refine KeepsTypes.stays _ h₁ h₂ fun _ s h₁ h₂ => ?_
    extract_lets close
    have hclose : ∀ e s', s'.types = R → s'.openTypes = O → (Piece.expr e).Sound R O →
        Wp (close e) s' fun a s'' => s''.types = R ∧ s''.openTypes = O ∧
          (Piece.expr a).Sound R O := by
      intro e s h₁ h₂ he
      simp only [close, wp_bind]
      refine KeepsTypes.stays _ h₁ h₂ fun _ s h₁ h₂ => KeepsTypes.stays _ h₁ h₂ fun _ s h₁ h₂ => ?_
      refine ValidRun.ret h₁ h₂ ?_
      split
      · exact Piece.sound_leaf fun y hy => by cases hy
      · exact Piece.sound_expr fun y hy => by
          cases hy with
          | sizeOfIndex hi => exact he.child (.sizeOfIndex hi)
      · exact he
    clear_value close
    split
    · simp only [wp_bind]
      refine KeepsTypes.stays _ h₁ h₂ fun b s h₁ h₂ => ?_
      exact (wp_pure _).mpr <| hclose (.sizeOfType b span) s h₁ h₂ <|
        Piece.sound_leaf fun y hy => by cases hy
    · simp only [wp_bind]
      refine (ih.path [] (by simp)).wp h₁ h₂ fun segs s h₁ h₂ hs => ?_
      refine (wp_pure _).mpr <| hclose (.sizeOfPath segs span) s h₁ h₂ <|
        Piece.sound_expr fun y hy => ?_
      cases hy with
      | sizeOfIndex hi => exact hs _ hi
  · simp

/-- Every expression the expression parser returns is valid, at every fuel.

**Proof sketch.** Induction on the fuel: at zero every function fails, and one fuel more is
each function's own lemma above from the specifications one fuel below. -/
theorem exprValid (hRO : Coherent R O) (fuel : Nat) : ExprValid R O fuel := by
  induction fuel with
  | zero =>
    constructor <;> intros <;> intro s _ _ <;>
      simp [expr, ternary, binary, binaryRest, unary, cast, primary, path, arguments]
  | succ fuel ih =>
    exact
      { expr := by simpa only [expr] using ih.ternary
        ternary := ternary_valid ih
        binary := binary_valid ih
        binaryRest := binaryRest_valid ih
        unary := unary_valid ih
        cast := cast_valid ih
        primary := primary_valid hRO ih
        path := path_valid ih
        arguments := arguments_valid ih }

lemma call_valid (hRO : Coherent R O) (fuel : Nat) :
    ValidRun R O (call fuel) fun e =>
      (∃ name ns as sp, e = .call name ns as sp) ∧ (Piece.expr e).Sound R O :=
  callWith_valid ((exprValid hRO fuel).arguments [] (by simp))

end Expressions

/-! ### Members -/

section Members

variable {R : List (String × TypeDecl)} {O : List String}

/-- Trailing attributes of a statement that declares no type change only its attributes. -/
lemma trailingAttributes_valid {st : Stmt} (hst : ∀ d sp, st ≠ .typeDef d sp) :
    ValidRun R O (trailingAttributes st) fun r => r = st ∨ ∃ more, r = Stmt.withAttrs st more := by
  intro s h₁ h₂
  unfold trailingAttributes
  simp only [wp_bind]
  refine KeepsTypes.stays _ h₁ h₂ fun _ s h₁ h₂ => KeepsTypes.stays _ h₁ h₂ fun _ s h₁ h₂ => ?_
  split
  · exact ValidRun.ret h₁ h₂ (.inl rfl)
  split
  · simp
  simp only [wp_bind]
  refine KeepsTypes.stays _ h₁ h₂ fun _ s h₁ h₂ => KeepsTypes.stays _ h₁ h₂ fun _ s h₁ h₂ => ?_
  refine KeepsTypes.stays _ h₁ h₂ fun _ s h₁ h₂ => KeepsTypes.stays _ h₁ h₂ fun _ s h₁ h₂ => ?_
  split
  · exact ValidRun.ret h₁ h₂ (.inr ⟨_, rfl⟩)
  · simp

lemma memberVariable_valid {k : Site} (hk : k ≠ .top) {ty : TypeDecl}
    (hty : (Piece.use ty).Sound R O) (span : Span) :
    ValidRun R O (memberVariable ty span) fun st => (Piece.stmt k st).Sound R O := by
  intro s h₁ h₂
  unfold memberVariable
  simp only [wp_bind]
  refine KeepsTypes.stays _ h₁ h₂ fun _ s h₁ h₂ => KeepsTypes.stays _ h₁ h₂ fun _ s h₁ h₂ => ?_
  split
  · refine ValidRun.ret h₁ h₂ (Piece.sound_stmt (Stmt.fits_var_cursor hk) fun y hy => ?_)
    cases hy
    exact hty
  · simp only [wp_bind]
    refine KeepsTypes.stays _ h₁ h₂ fun _ s h₁ h₂ => KeepsTypes.stays _ h₁ h₂ fun _ s h₁ h₂ => ?_
    refine ValidRun.ret h₁ h₂ (Piece.sound_stmt (Stmt.fits_multi hk) fun y hy => ?_)
    cases hy
    exact hty

lemma pointerTail_valid (target : TypeDecl) (span : Span) :
    ValidRun R O (pointerTail target span) fun st =>
      ∃ n b en, st = .pointer n target b en .cursor [] span := by
  intro s h₁ h₂
  unfold pointerTail
  simp only [wp_bind]
  refine KeepsTypes.stays _ h₁ h₂ fun _ s h₁ h₂ => KeepsTypes.stays _ h₁ h₂ fun _ s h₁ h₂ => ?_
  split
  · split
    · exact ValidRun.ret h₁ h₂ ⟨_, _, _, rfl⟩
    · simp
  · simp

/-- The count or the condition of an array is a valid expression. -/
lemma arraySize_valid (hRO : Coherent R O) (fuel : Nat) :
    ValidRun R O (arraySize fuel) fun size =>
      ∀ c, size = .fixed c ∨ size = .whileCond c → (Piece.expr c).Sound R O := by
  intro s h₁ h₂
  unfold arraySize
  simp only [wp_bind]
  refine KeepsTypes.stays _ h₁ h₂ fun _ s h₁ h₂ => ?_
  split
  · exact ValidRun.ret h₁ h₂ fun c hc => by rcases hc with hc | hc <;> cases hc
  simp only [wp_bind]
  refine KeepsTypes.stays _ h₁ h₂ fun _ s h₁ h₂ => ?_
  have hc : ∀ c, (Piece.expr c).Sound R O → ∀ c', (ArraySize.whileCond c = .fixed c' ∨
      ArraySize.whileCond c = .whileCond c') → (Piece.expr c').Sound R O := by
    intro c hc c' hc'
    rcases hc' with hc' | hc' <;> cases hc'
    exact hc
  split
  · simp only [wp_bind]
    refine (exprValid hRO fuel).expr.wp h₁ h₂ fun c s h₁ h₂ hc' => ?_
    refine KeepsTypes.stays _ h₁ h₂ fun _ s h₁ h₂ => ?_
    split
    · simp only [pure_bind, wp_bind]
      refine KeepsTypes.stays _ h₁ h₂ fun _ s h₁ h₂ => ?_
      split
      · exact ValidRun.ret h₁ h₂ (hc c hc')
      · simp
    · simp
  · simp only [wp_bind]
    refine (exprValid hRO fuel).expr.wp h₁ h₂ fun c s h₁ h₂ hc' => ?_
    simp only [wp_pure]
    refine KeepsTypes.stays _ h₁ h₂ fun _ s h₁ h₂ => ?_
    split
    · refine ValidRun.ret h₁ h₂ fun c' hc'' => ?_
      rcases hc'' with hc'' | hc'' <;> cases hc''
      exact hc'
    · simp

/-- The specification of each function of the member parser at one fuel. -/
structure MembersValid (R : List (String × TypeDecl)) (O : List String) (fuel : Nat) : Prop where
  member : ValidRun R O (member fuel) fun st => (Piece.stmt .member st).Sound R O
  memberBlock : ∀ what acc, (∀ m ∈ acc, (Piece.stmt .member m).Sound R O) →
    ValidRun R O (memberBlock fuel what acc) fun ms => ∀ m ∈ ms, (Piece.stmt .member m).Sound R O
  memberConditional : ∀ span,
    ValidRun R O (memberConditional fuel span) fun st => (Piece.stmt .member st).Sound R O
  memberBody : ValidRun R O (memberBody fuel) fun ms => ∀ m ∈ ms, (Piece.stmt .member m).Sound R O

variable {fuel : Nat}

/-- A member is a call, a declaration at the cursor, padding or a conditional. -/
lemma member_valid (hRO : Coherent R O) (ih : MembersValid R O fuel) :
    ValidRun R O (member (fuel + 1)) fun st => (Piece.stmt .member st).Sound R O := by
  intro s h₁ h₂
  simp -zeta only [member, wp_bind]
  refine KeepsTypes.stays _ h₁ h₂ fun span s h₁ h₂ => KeepsTypes.stays _ h₁ h₂ fun _ s h₁ h₂ => ?_
  -- every form but a conditional ends in its trailing attributes and semicolon
  extract_lets jp
  have hjp : ∀ r s', s'.types = R → s'.openTypes = O → (Piece.stmt .member r).Sound R O →
      Wp (jp r) s' fun a s'' =>
        s''.types = R ∧ s''.openTypes = O ∧ (Piece.stmt .member a).Sound R O := by
    intro r s h₁ h₂ hr
    simp only [jp, wp_bind]
    refine (trailingAttributes_valid (hr.self.ne_typeDef (by decide))).wp h₁ h₂
      fun r' s h₁ h₂ hr' => KeepsTypes.stays _ h₁ h₂ fun _ s h₁ h₂ => ValidRun.ret h₁ h₂ ?_
    rcases hr' with rfl | ⟨more, rfl⟩
    · exact hr
    · exact hr.withAttrs more
  clear_value jp
  split
  · simp only [wp_bind, pure_bind]
    refine (call_valid hRO fuel).wp h₁ h₂ fun c s h₁ h₂ hc => hjp _ s h₁ h₂ ?_
    obtain ⟨⟨name, ns, as, sp, rfl⟩, hc⟩ := hc
    exact Piece.sound_stmt .call fun y hy => by
      cases hy
      exact hc
  simp only [wp_bind]
  refine KeepsTypes.stays _ h₁ h₂ fun _ s h₁ h₂ => ?_
  split
  · -- a declaration: an array, variables or a pointer
    simp only [wp_bind]
    refine (typeUse_valid hRO false).wp h₁ h₂ fun ty s h₁ h₂ hty => ?_
    refine KeepsTypes.stays _ h₁ h₂ fun _ s h₁ h₂ => ?_
    split
    · simp only [wp_bind, pure_bind]
      refine KeepsTypes.stays _ h₁ h₂ fun _ s h₁ h₂ => KeepsTypes.stays _ h₁ h₂ fun _ s h₁ h₂ => ?_
      refine (arraySize_valid hRO fuel).wp h₁ h₂ fun size s h₁ h₂ hsize => hjp _ s h₁ h₂ ?_
      refine Piece.sound_stmt .memberArray fun y hy => ?_
      cases hy with
      | arrayType => exact hty
      | arrayCount => exact hsize _ (.inl rfl)
      | arrayCond => exact hsize _ (.inr rfl)
    simp only [wp_bind]
    refine KeepsTypes.stays _ h₁ h₂ fun _ s h₁ h₂ => ?_
    split
    · rw [wp_bind]
      exact (memberVariable_valid (by decide) hty span).wp h₁ h₂ fun r s h₁ h₂ hr =>
        hjp r s h₁ h₂ hr
    simp only [wp_bind]
    refine KeepsTypes.stays _ h₁ h₂ fun _ s h₁ h₂ => ?_
    split
    · rw [wp_bind]
      refine (pointerTail_valid ty span).wp h₁ h₂ fun r s h₁ h₂ hr => hjp r s h₁ h₂ ?_
      obtain ⟨n, b, en, rfl⟩ := hr
      refine Piece.sound_stmt .memberPointer fun y hy => ?_
      cases hy
      exact hty
    · simp
  simp only [wp_bind]
  refine KeepsTypes.stays _ h₁ h₂ fun _ s h₁ h₂ => ?_
  split
  · -- padding
    simp only [wp_bind]
    refine (exprValid hRO fuel).expr.wp h₁ h₂ fun size s h₁ h₂ hsize => ?_
    refine KeepsTypes.stays _ h₁ h₂ fun _ s h₁ h₂ => ?_
    split
    · have hpad : (Piece.stmt .member (.padding size span)).Sound R O :=
        Piece.sound_stmt .memberPadding fun y hy => by
          cases hy
          exact hsize
      simpa only [pure_bind] using hjp _ s h₁ h₂ hpad
    · simp
  simp only [wp_bind]
  refine KeepsTypes.stays _ h₁ h₂ fun _ s h₁ h₂ => ?_
  split
  · exact ih.memberConditional span s h₁ h₂
  simp only [wp_bind]
  refine KeepsTypes.stays _ h₁ h₂ fun _ s h₁ h₂ => ?_
  split <;> simp

lemma memberBlock_valid (ih : MembersValid R O fuel) (what : String) (acc : List Stmt)
    (hacc : ∀ m ∈ acc, (Piece.stmt .member m).Sound R O) :
    ValidRun R O (memberBlock (fuel + 1) what acc) fun ms =>
      ∀ m ∈ ms, (Piece.stmt .member m).Sound R O := by
  intro s h₁ h₂
  simp only [memberBlock, wp_bind]
  refine KeepsTypes.stays _ h₁ h₂ fun _ s h₁ h₂ => ?_
  split
  · exact ValidRun.ret h₁ h₂ hacc
  simp only [wp_bind]
  refine KeepsTypes.stays _ h₁ h₂ fun _ s h₁ h₂ => ?_
  split
  · simp
  rw [wp_bind]
  refine ih.member.wp h₁ h₂ fun m s h₁ h₂ hm => ih.memberBlock what _ ?_ s h₁ h₂
  exact List.forall_mem_append.mpr ⟨hacc, List.forall_mem_singleton.mpr hm⟩

lemma memberConditional_valid (hRO : Coherent R O) (ih : MembersValid R O fuel) (span : Span) :
    ValidRun R O (memberConditional (fuel + 1) span) fun st =>
      (Piece.stmt .member st).Sound R O := by
  intro s h₁ h₂
  simp only [memberConditional, wp_bind]
  refine (exprValid hRO fuel).expr.wp h₁ h₂ fun c s h₁ h₂ hc => ?_
  refine KeepsTypes.stays _ h₁ h₂ fun _ s h₁ h₂ => ?_
  split
  · simp only [wp_bind, pure_bind]
    refine ih.memberBody.wp h₁ h₂ fun t s h₁ h₂ ht => KeepsTypes.stays _ h₁ h₂ fun _ s h₁ h₂ => ?_
    -- the else branch, if any, then stray semicolons
    have tail : ∀ e s', s'.types = R → s'.openTypes = O →
        (∀ m ∈ e, (Piece.stmt .member m).Sound R O) →
        Wp (do skipSemicolons (← get).tokens.size; pure (Stmt.ifElse c t e span)) s'
          fun a s'' => s''.types = R ∧ s''.openTypes = O ∧ (Piece.stmt .member a).Sound R O := by
      intro e s h₁ h₂ he
      simp only [wp_bind]
      refine KeepsTypes.stays _ h₁ h₂ fun _ s h₁ h₂ => KeepsTypes.stays _ h₁ h₂ fun _ s h₁ h₂ => ?_
      refine ValidRun.ret h₁ h₂ (Piece.sound_stmt .memberIf fun y hy => ?_)
      cases hy with
      | ifCond => exact hc
      | ifThen hm => exact ht _ hm
      | ifElse hm => exact he _ hm
    split
    · rw [wp_bind]
      exact ih.memberBody.wp h₁ h₂ fun e s h₁ h₂ he => by
        simpa only [wp_bind] using tail e s h₁ h₂ he
    · simpa only [wp_bind] using tail [] s h₁ h₂ (by simp)
  · simp

lemma memberBody_valid (ih : MembersValid R O fuel) :
    ValidRun R O (memberBody (fuel + 1)) fun ms => ∀ m ∈ ms, (Piece.stmt .member m).Sound R O := by
  intro s h₁ h₂
  simp only [memberBody, wp_bind]
  refine KeepsTypes.stays _ h₁ h₂ fun _ s h₁ h₂ => ?_
  split
  · exact ih.memberBlock _ [] (by simp) s h₁ h₂
  · rw [wp_bind]
    exact ih.member.wp h₁ h₂ fun m s h₁ h₂ hm => ValidRun.ret h₁ h₂ (by simpa using hm)

/-- Every member the member parser returns is valid, at every fuel. -/
theorem membersValid (hRO : Coherent R O) (fuel : Nat) : MembersValid R O fuel := by
  induction fuel with
  | zero =>
    constructor <;> intros <;> intro s _ _ <;>
      simp [member, memberBlock, memberConditional, memberBody]
  | succ fuel ih =>
    exact ⟨member_valid hRO ih, memberBlock_valid ih, memberConditional_valid hRO ih,
      memberBody_valid ih⟩

end Members

end Parse

end ByteLayout

import Mathlib
import ByteLayout.Proofs.Eval.Contextual
import ByteLayout.Proofs.Layout.Parsed

set_option autoImplicit false
-- Instance search builds one instance term per call of a `do` block, and the builders'
-- blocks have many calls once their branches are laid out.
set_option synthInstance.maxSize 10000000

/-!
# Parsed programs run in place

A run of a well-formed program never meets a statement out of its place or a type name that
names nothing: every function of the evaluator, given the pieces of such a program, fails
only with a fault that the program allows (`Eval.avoidsAt`). So a run of a parsed program
never fails because a member is a statement of a function body, because a function body
declares an array or defines a type, or because a type is unknown, and it refuses a host
variable only when the program declares one of a type with no value.

## Main definitions

* `Program.Sound` — a piece valid all the way down against the program's registry.
* `Program.Places` — a placement a run carries out for a variable.
* `Program.BuildsAt` — a statement a run builds, in its place.
* `Eval.AvoidsAt` — every function of the evaluator, at one fuel, on pieces of the program.

## Main results

* `Program.WellFormed.followAliases` — following aliases of a sound use runs out of fuel or
  ends at a sound declaration.
* `Eval.avoidsAt` — every function of the evaluator at every fuel.
* `runProgram_allows` — a run of a well-formed program fails only with an allowed fault.

## Design

The evaluator's functions are mutually recursive through the fuel, as in `Eval.limitsOnlyCutAt`,
but their specifications here hold only on pieces of the program: each field of `AvoidsAt`
takes the soundness of the pieces its function reads. A step lemma brings the instances for
the pieces below into scope with `have`, from the children of its own piece
(`Piece.Deep.child`), and lets instance search compose them with the primitives. The program's
functions and the declarations of its registry are sound because the program is well formed.
-/

namespace ByteLayout

/-- A piece valid all the way down against the registry of `p`. -/
def Program.Sound (p : Program) (x : Piece) : Prop := x.Sound p.types []

/-- A placement a run carries out for a variable of type `ty`: at the cursor, at an address
given by a sound expression, or as a host variable whose type, when it has no value, is one of
a host variable that `p` declares. -/
def Program.Places (p : Program) (ty : TypeDecl) : Placement → Prop
  | .cursor => True
  | .atOffset e => p.Sound (.expr e)
  | .input | .output => ty.asBuiltin? = none ∨ ty.asBuiltin? = some .auto → p.MistypedHost

/-- A statement a run builds, in its place `k`: a member of a type, or a statement of the
program at the top level. -/
def Program.BuildsAt (p : Program) (k : Site) (s : Stmt) : Prop :=
  p.Sound (.stmt k s) ∧ (k = .member ∨ (k = .top ∧ s ∈ p.stmts))

/-- The count or the condition of a sound array declaration is sound. -/
lemma Program.sound_arraySize {p : Program} {k : Site} {n : String} {ty : TypeDecl}
    {size : ArraySize} {pl : Placement} {attrs : List Attribute} {sp : Span}
    (hs : p.Sound (.stmt k (.array n ty size pl attrs sp))) :
    ∀ e, size = .fixed e ∨ size = .whileCond e → p.Sound (.expr e) := by
  rintro e (rfl | rfl)
  · exact hs.child .arrayCount
  · exact hs.child .arrayCond

/-! ### The functions and the registry of a well-formed program -/

/-- The statements of a function found among statements are in a function body. -/
lemma sound_of_mem_collectFunctions {R : List (String × TypeDecl)} {O : List String} {k : Site}
    (ss : List Stmt) (hss : ∀ s ∈ ss, (Piece.stmt k s).Sound R O) {f : FunctionDef}
    (hf : f ∈ collectFunctions ss) : ∀ s ∈ f.body, (Piece.stmt .body s).Sound R O := by
  revert hss hf
  fun_induction collectFunctions ss with
  | case1 => exact fun _ hf => nomatch hf
  | case2 name params body sp rest ih =>
    intro hss hf
    rcases List.mem_cons.mp hf with rfl | hf
    · exact fun s hs => (hss _ List.mem_cons_self).child (.functionBody hs)
    · exact ih (fun s hs => hss s (List.mem_cons_of_mem _ hs)) hf
  | case3 inner sp rest ihi ihr =>
    intro hss hf
    rcases List.mem_append.mp hf with hf | hf
    · exact ihi (fun s hs => (hss _ List.mem_cons_self).child (.compound hs)) hf
    · exact ihr (fun s hs => hss s (List.mem_cons_of_mem _ hs)) hf
  | case4 s rest _ _ ih => exact fun hss => ih fun s hs => hss s (List.mem_cons_of_mem _ hs)

namespace Program.WellFormed

variable {p : Program} (hp : p.WellFormed)
include hp

/-- The statements of a function of a well-formed program are sound in a function body. -/
lemma body_sound {f : FunctionDef} (hf : f ∈ collectFunctions p.stmts) :
    ∀ s ∈ f.body, p.Sound (.stmt .body s) :=
  sound_of_mem_collectFunctions p.stmts hp.stmts hf

/-- A registered declaration is a sound use of its name. -/
lemma sound_lookup {q : String} {d : TypeDecl} (hq : p.typeNamed? q = some d) :
    p.Sound (.use d) :=
  hp.registry.sound_copy hq

/-- A forward reference of a sound use names a registered type: the registry holds no forward
reference for a use to copy. -/
lemma exists_lookup {ty : TypeDecl} (hty : p.Sound (.use ty)) {q : String}
    (hq : ty.body = .forward q) : ∃ d, p.typeNamed? q = some d := by
  have hnames : ty.NamesIn p.types [] := hty.self
  rcases hnames with ⟨q', hq', hk | ho⟩ | ⟨e, he, hde⟩ | ⟨-, b, hb⟩
  · rw [hq] at hq'
    cases hq'
    exact Option.isSome_iff_exists.mp (Parse.isSome_lookup_of_mem hk)
  · cases ho
  · have hbody : e.body = ty.body := by rw [← hde]
    exact absurd (hbody.trans hq)
      (hp.registry.declared (ty.name, e) (Parse.mem_of_lookup_eq_some he) q)
  · rw [hq] at hb
    cases hb

/-- **Aliases lead to declarations.** Following the aliases and forward references of a sound
use runs out of fuel or ends at a sound declaration; it never meets an unknown type. -/
lemma followAliases (fuel : Nat) (ty : TypeDecl) (hty : p.Sound (.use ty)) :
    p.followAliases fuel ty = .error .outOfFuel ∨
      ∃ d, p.followAliases fuel ty = .ok d ∧ p.Sound (.use d) := by
  induction fuel generalizing ty with
  | zero => exact .inl rfl
  | succ fuel ih =>
    unfold Program.followAliases
    split
    · rename_i inner h
      exact ih inner (hty.child (.use (h ▸ .aliasTarget)))
    · rename_i q h
      obtain ⟨d, hd⟩ := hp.exists_lookup hty h
      rw [hd]
      exact ih d (hp.sound_lookup hd)
    · exact .inr ⟨ty, rfl, hty⟩

end Program.WellFormed

/-- A function found by its name as written or qualified by the namespace is one the program
defines. -/
lemma Context.Of.mem_function_or {p : Program} {c : Context} (hc : c.Of p)
    {qualified : Option String} {name : String} {f : FunctionDef}
    (h : (qualified.bind c.function?).or (c.function? name) = some f) :
    f ∈ collectFunctions p.stmts := by
  rcases Option.or_eq_some_iff.mp h with h | ⟨-, h⟩
  · obtain ⟨q, -, hq⟩ := Option.bind_eq_some_iff.mp h
    exact hc.mem_function hq
  · exact hc.mem_function h

namespace Eval

variable {α β : Type} {p : Program}

/-- A function an attribute names is one the program defines. -/
lemma Avoids.roleFunction_bind {name role : String} {k : FunctionDef → Eval α}
    (hk : ∀ f ∈ collectFunctions p.stmts, Avoids p (k f)) :
    Avoids p (roleFunction name role >>= k) := by
  simp only [roleFunction, bind_assoc]
  refine Avoids.read_bind fun c hc => ?_
  split
  · infer_instance
  · rename_i f hf
    split
    · exact hk f (hc.mem_function hf)
    · infer_instance

/-! ### The evaluator, one function at a time -/

/-- Every function of the evaluator at one fuel, on pieces of the program `p`, fails only with
a fault that `p` allows. Each field takes the soundness of the pieces its function reads. -/
structure AvoidsAt (p : Program) (fuel : Nat) : Prop where
  evalExpr : ∀ e, p.Sound (.expr e) → Avoids p (evalExpr fuel e)
  resolvePath : ∀ segs, (∀ i, .index i ∈ segs → p.Sound (.expr i)) →
    Avoids p (resolvePath fuel segs)
  scopeMember : ∀ ty member, p.Sound (.use ty) → Avoids p (scopeMember fuel ty member)
  enumEntries : ∀ u es, (∀ en ∈ es, p.Sound (.expr en.value)) → Avoids p (enumEntries fuel u es)
  callFunction : ∀ name ns args, (∀ a ∈ args, p.Sound (.expr a)) →
    Avoids p (callFunction fuel name ns args)
  callUser : ∀ f args, f ∈ collectFunctions p.stmts → Avoids p (callUser fuel f args)
  execBlock : ∀ ss, (∀ s ∈ ss, p.Sound (.stmt .body s)) → Avoids p (execBlock fuel ss)
  execStmt : ∀ s, p.Sound (.stmt .body s) → Avoids p (execStmt fuel s)
  runLoop : ∀ c body post, p.Sound (.expr c) → (∀ s ∈ body, p.Sound (.stmt .body s)) →
    (∀ s, post = some s → p.Sound (.stmt .body s)) → Avoids p (runLoop fuel c body post)
  execExprStmt : ∀ e, p.Sound (.expr e) → Avoids p (execExprStmt fuel e)
  buildMember : ∀ k s, p.BuildsAt k s → Avoids p (buildMember fuel s)
  buildVar : ∀ name ty placement attrs, p.Sound (.use ty) → p.Places ty placement →
    Avoids p (buildVar fuel name ty placement attrs)
  buildType : ∀ ty name, p.Sound (.use ty) → Avoids p (buildType fuel ty name)
  buildBody : ∀ ty name, p.Sound (.use ty) → Avoids p (buildBody fuel ty name)
  buildStruct : ∀ bases members name tn, (∀ b ∈ bases, p.Sound (.use b)) →
    (∀ s ∈ members, p.Sound (.stmt .member s)) → Avoids p (buildStruct fuel bases members name tn)
  buildUnion : ∀ members name tn, (∀ s ∈ members, p.Sound (.stmt .member s)) →
    Avoids p (buildUnion fuel members name tn)
  buildEnum : ∀ u es name tn, (∀ en ∈ es, p.Sound (.expr en.value)) →
    Avoids p (buildEnum fuel u es name tn)
  buildBitfield : ∀ es name tn, (∀ en ∈ es, p.Sound (.expr en.width)) →
    Avoids p (buildBitfield fuel es name tn)
  buildArray : ∀ name ty size, p.Sound (.use ty) →
    (∀ e, size = .fixed e ∨ size = .whileCond e → p.Sound (.expr e)) →
    Avoids p (buildArray fuel name ty size)
  buildElement : ∀ ty i, p.Sound (.use ty) → Avoids p (buildElement fuel ty i)
  fixedElements : ∀ ty i n acc, p.Sound (.use ty) → Avoids p (fixedElements fuel ty i n acc)
  whileElements : ∀ ty c count acc, p.Sound (.use ty) → p.Sound (.expr c) →
    Avoids p (whileElements fuel ty c count acc)
  unsizedElements : ∀ ty count acc, p.Sound (.use ty) →
    Avoids p (unsizedElements fuel ty count acc)
  buildString : ∀ name ty size unit,
    (∀ e, size = .fixed e ∨ size = .whileCond e → p.Sound (.expr e)) →
    Avoids p (buildString fuel name ty size unit)
  whileChars : ∀ c start unit, p.Sound (.expr c) → Avoids p (whileChars fuel c start unit)
  unsizedChars : ∀ unit, Avoids p (unsizedChars fuel unit)
  buildPointer : ∀ name target addrType addrEndian attrs, p.Sound (.use target) →
    Avoids p (buildPointer fuel name target addrType addrEndian attrs)

section Step

variable {fuel : Nat} (hp : p.WellFormed) (ih : AvoidsAt p fuel)
include ih

lemma evalExpr_avoids (e : Expr) (he : p.Sound (.expr e)) :
    Avoids p (evalExpr (fuel + 1) e) := by
  cases e with
  | lit v sp =>
    simp only [evalExpr]
    infer_instance
  | path segs sp =>
    have := ih.resolvePath segs fun i hi => he.child (.pathIndex hi)
    simp only [evalExpr]
    infer_instance
  | cursor sp =>
    simp only [evalExpr]
    infer_instance
  | unary op x sp =>
    have := ih.evalExpr x (he.child .unary)
    simp only [evalExpr]
    infer_instance
  | binary op l r sp =>
    have := ih.evalExpr l (he.child .binaryLeft)
    have := ih.evalExpr r (he.child .binaryRight)
    -- `&&` and `||` evaluate their right operand only when needed
    cases op <;> simp only [evalExpr] <;> infer_instance
  | ternary c t f sp =>
    have := ih.evalExpr c (he.child .ternaryCond)
    have := ih.evalExpr t (he.child .ternaryThen)
    have := ih.evalExpr f (he.child .ternaryElse)
    simp only [evalExpr]
    infer_instance
  | cast ty en x sp =>
    have := ih.evalExpr x (he.child .cast)
    simp only [evalExpr]
    infer_instance
  | scope ty member sp =>
    have := ih.scopeMember ty member (he.child .scope)
    simp only [evalExpr]
    infer_instance
  | call name ns args sp =>
    have := ih.callFunction name ns args fun a ha => he.child (.callArg ha)
    simp only [evalExpr]
    infer_instance
  | addressOf segs sp =>
    have := ih.resolvePath segs fun i hi => he.child (.addressOfIndex hi)
    simp only [evalExpr]
    infer_instance
  | sizeOfPath segs sp =>
    have := ih.resolvePath segs fun i hi => he.child (.sizeOfIndex hi)
    simp only [evalExpr]
    infer_instance
  | sizeOfType ty sp =>
    simp only [evalExpr]
    split <;> infer_instance

lemma resolvePath_avoids (segs : List PathSeg) (hsegs : ∀ i, .index i ∈ segs → p.Sound (.expr i)) :
    Avoids p (resolvePath (fuel + 1) segs) := by
  simp only [resolvePath]
  refine Avoids.bind_left (Avoids.mapM segs fun seg hseg => ?_) _
  cases seg with
  | index i =>
    have := ih.evalExpr i (hsegs i hseg)
    infer_instance
  | _ => infer_instance

include hp in
lemma scopeMember_avoids (ty : TypeDecl) (member : String) (hty : p.Sound (.use ty)) :
    Avoids p (scopeMember (fuel + 1) ty member) := by
  simp only [scopeMember]
  refine Avoids.read_bind fun c hc => ?_
  rw [hc.program]
  -- the aliases of the type lead to a sound declaration, or the fuel runs out
  rcases hp.followAliases fuel ty hty with h | ⟨decl, h, hdecl⟩
  · exact Avoids.lift_bind (P := fun _ => False) (.inl ⟨_, h, p.allows_of_isFalse _⟩)
      fun _ h => h.elim
  refine Avoids.lift_bind (P := fun d => p.Sound (.use d)) (.inr ⟨decl, h, hdecl⟩)
    fun decl hdecl => ?_
  split
  · rename_i u es hbody
    have := ih.enumEntries u es fun en hen => hdecl.child (.use (hbody ▸ .enumValue hen))
    exact Avoids.bind _ fun table => by split <;> infer_instance
  · infer_instance

lemma enumEntries_avoids (u : Builtin) (es : List EnumEntry)
    (hes : ∀ en ∈ es, p.Sound (.expr en.value)) : Avoids p (enumEntries (fuel + 1) u es) := by
  simp only [enumEntries]
  exact Avoids.mapM es fun en hen => by
    have := ih.evalExpr en.value (hes en hen)
    infer_instance

lemma callFunction_avoids (name ns : String) (args : List Expr)
    (hargs : ∀ a ∈ args, p.Sound (.expr a)) : Avoids p (callFunction (fuel + 1) name ns args) := by
  simp only [callFunction]
  refine Avoids.bind_of (Avoids.mapM args fun a ha => ih.evalExpr a (hargs a ha)) fun values =>
    Avoids.read_bind fun c hc => ?_
  split
  · -- a function the program defines
    rename_i f hf
    exact ih.callUser f values (hc.mem_function_or hf)
  · split
    · rename_i g hg
      obtain ⟨q, hq⟩ := Intrinsic.exists_lookup_of_or hg
      exact Intrinsic.avoids hq values
    · infer_instance

include hp in
lemma callUser_avoids (f : FunctionDef) (args : List Value) (hf : f ∈ collectFunctions p.stmts) :
    Avoids p (callUser (fuel + 1) f args) := by
  have := ih.execBlock f.body (hp.body_sound hf)
  simp only [callUser]
  split
  · infer_instance
  · refine Avoids.bind _ fun _ => ?_
    refine Avoids.bind _ fun _ => ?_
    refine @Avoids.attempt_bind _ _ _ _ ?_ _ (fun _ => inferInstance) fun _ _ _ => ⟨_, rfl⟩
    -- each parameter is cast to its builtin type, if it has one
    exact Avoids.bind_left (Avoids.forM _ fun pv _ => by split <;> infer_instance) _

lemma execBlock_avoids (ss : List Stmt) (hss : ∀ s ∈ ss, p.Sound (.stmt .body s)) :
    Avoids p (execBlock (fuel + 1) ss) := by
  cases ss with
  | nil =>
    simp only [execBlock]
    infer_instance
  | cons s rest =>
    have := ih.execStmt s (hss s List.mem_cons_self)
    have := ih.execBlock rest fun s hs => hss s (List.mem_cons_of_mem _ hs)
    simp only [execBlock]
    infer_instance

/-- **A function body runs in place.** The statements a body admits are the ones `execStmt`
runs; declarations of arrays, pointers and padding and definitions are not among them. -/
lemma execStmt_avoids (s : Stmt) (hs : p.Sound (.stmt .body s)) :
    Avoids p (execStmt (fuel + 1) s) := by
  have hfit : s.Fits .body := hs.self
  cases hfit with
  | bodyVar | bodyMulti | bodyBreak | bodyContinue =>
    simp only [execStmt]
    infer_instance
  | bodyCompound =>
    have := ih.execBlock _ fun s h => hs.child (.compound h)
    simp only [execStmt]
    infer_instance
  | bodyAssign =>
    have := ih.evalExpr _ (hs.child .assign)
    simp only [execStmt]
    infer_instance
  | bodyIf =>
    have := ih.evalExpr _ (hs.child .ifCond)
    have := ih.execBlock _ fun s h => hs.child (.ifThen h)
    have := ih.execBlock _ fun s h => hs.child (.ifElse h)
    simp only [execStmt]
    infer_instance
  | @bodyWhile c b post sp =>
    have := ih.runLoop c b post (hs.child .whileCond) (fun s h => hs.child (.whileBody h))
      fun s h => by
        subst h
        exact hs.child .whilePost
    simp only [execStmt]
    infer_instance
  | bodyReturn =>
    rename_i v sp
    cases v with
    | none =>
      simp only [execStmt]
      infer_instance
    | some e =>
      have := ih.evalExpr e (hs.child .returnValue)
      simp only [execStmt]
      infer_instance
  | call =>
    have := ih.execExprStmt _ (hs.child .exprStmt)
    simp only [execStmt]
    infer_instance

lemma runLoop_avoids (c : Expr) (body : List Stmt) (post : Option Stmt) (hc : p.Sound (.expr c))
    (hbody : ∀ s ∈ body, p.Sound (.stmt .body s)) (hpost : ∀ s, post = some s → p.Sound (.stmt .body s)) :
    Avoids p (runLoop (fuel + 1) c body post) := by
  have := ih.evalExpr c hc
  have := ih.execBlock body hbody
  have := ih.runLoop c body post hc hbody hpost
  cases post with
  | none =>
    simp only [runLoop]
    infer_instance
  | some s =>
    have := ih.execStmt s (hpost s rfl)
    simp only [runLoop]
    infer_instance

lemma execExprStmt_avoids (e : Expr) (he : p.Sound (.expr e)) :
    Avoids p (execExprStmt (fuel + 1) e) := by
  simp only [execExprStmt]
  split
  · rename_i name ns args sp
    have := ih.callFunction name ns args fun a ha => he.child (.callArg ha)
    infer_instance
  · have := ih.evalExpr e he
    infer_instance

/-- **Members and top-level statements are built in place.** A member is never a statement of
a function body, and only a top-level variable is placed `in` or `out`: `place` never meets a
host placement, and `declareHost` refuses only a host variable that the program declares. -/
lemma buildMember_avoids (k : Site) (s : Stmt) (hs : p.BuildsAt k s) :
    Avoids p (buildMember (fuel + 1) s) := by
  obtain ⟨hs, hk⟩ := hs
  have hfit : s.Fits k := hs.self
  cases hfit
  case topVar n ty pl attrs sp =>
    have hmem : Stmt.var n ty pl attrs sp ∈ p.stmts := by
      rcases hk with h | ⟨-, h⟩
      · cases h
      · exact h
    have hpl : p.Places ty pl := by
      cases pl with
      | cursor => trivial
      | atOffset e => exact hs.child .varOffset
      | input => exact fun h => ⟨n, ty, .input, attrs, sp, hmem, .inl rfl, h⟩
      | output => exact fun h => ⟨n, ty, .output, attrs, sp, hmem, .inr rfl, h⟩
    have := ih.buildVar n ty pl attrs (hs.child .varType) hpl
    simp only [buildMember]
    infer_instance
  case topArray n ty size e attrs sp =>
    have := ih.evalExpr e (hs.child .arrayOffset)
    have := ih.buildArray n ty size (hs.child .arrayType) (Program.sound_arraySize hs)
    simp only [buildMember]
    infer_instance
  case topPointer n ty a en e attrs sp =>
    have := ih.evalExpr e (hs.child .pointerOffset)
    have := ih.buildPointer n ty a en attrs (hs.child .pointerTarget)
    simp only [buildMember]
    infer_instance
  case topTypeDef | topFunction =>
    simp only [buildMember]
    infer_instance
  case call name ns args csp sp =>
    have := ih.execExprStmt _ (hs.child .exprStmt)
    simp only [buildMember]
    infer_instance
  case memberVar n ty attrs sp =>
    have := ih.buildVar n ty .cursor attrs (hs.child .varType) trivial
    simp only [buildMember]
    infer_instance
  case memberArray n ty size attrs sp =>
    have := ih.buildArray n ty size (hs.child .arrayType) (Program.sound_arraySize hs)
    simp only [buildMember]
    infer_instance
  case memberPointer n ty a en attrs sp =>
    have := ih.buildPointer n ty a en attrs (hs.child .pointerTarget)
    simp only [buildMember]
    infer_instance
  case memberMulti names ty sp =>
    have : ∀ n, Avoids p (buildVar fuel n ty .cursor []) := fun n =>
      ih.buildVar n ty .cursor [] (hs.child .multiType) trivial
    simp only [buildMember]
    infer_instance
  case memberPadding size sp =>
    have := ih.evalExpr size (hs.child .padding)
    simp only [buildMember]
    infer_instance
  case memberIf c t e sp =>
    have := ih.evalExpr c (hs.child .ifCond)
    simp only [buildMember]
    refine @avoids_withNode _ p _ _ (@avoids_withLine _ p _ _ (Avoids.bind _ fun _ =>
      Avoids.bind _ fun v => Avoids.bind _ fun b => Avoids.forM _ fun s' hs' => ?_))
    -- the branch taken is made of members
    refine ih.buildMember .member s' ⟨?_, .inl rfl⟩
    split at hs'
    · exact hs.child (.ifThen hs')
    · exact hs.child (.ifElse hs')
  -- a statement of a function body is built neither among members nor at the top level
  all_goals
    rcases hk with h | ⟨h, -⟩ <;> cases h

lemma buildVar_avoids (name : String) (ty : TypeDecl) (placement : Placement)
    (attrs : List Attribute) (hty : p.Sound (.use ty)) (hpl : p.Places ty placement) :
    Avoids p (buildVar (fuel + 1) name ty placement attrs) := by
  have := ih.buildType ty name hty
  cases placement with
  | cursor =>
    simp only [buildVar]
    infer_instance
  | atOffset e =>
    have := ih.evalExpr e hpl
    simp only [buildVar]
    infer_instance
  | input =>
    simp only [buildVar]
    exact avoids_declareHost true hpl
  | output =>
    simp only [buildVar]
    exact avoids_declareHost false hpl

lemma buildType_avoids (ty : TypeDecl) (name : String) (hty : p.Sound (.use ty)) :
    Avoids p (buildType (fuel + 1) ty name) := by
  have := ih.buildBody ty name hty
  simp only [buildType]
  refine Avoids.bind _ fun _ => Avoids.bind _ fun _ => ?_
  -- the type's own byte order, if it has one, then the body, caught
  split
  · exact Avoids.bind _ fun _ => Avoids.attempt_bind _ (fun _ => inferInstance) fun _ _ _ => ⟨_, rfl⟩
  · exact Avoids.attempt_bind _ (fun _ => inferInstance) fun _ _ _ => ⟨_, rfl⟩

include hp in
/-- **Types are known.** A forward reference of a sound use names a registered type, so
`buildBody` never fails with an unknown type. -/
lemma buildBody_avoids (ty : TypeDecl) (name : String) (hty : p.Sound (.use ty)) :
    Avoids p (buildBody (fuel + 1) ty name) := by
  simp only [buildBody]
  split
  · infer_instance
  · rename_i inner h
    have := ih.buildType inner name (hty.child (.use (h ▸ .aliasTarget)))
    infer_instance
  · rename_i q h
    refine Avoids.read_bind fun c hc => ?_
    rw [hc.program]
    obtain ⟨d, hd⟩ := hp.exists_lookup hty h
    rw [hd]
    exact ih.buildType d name (hp.sound_lookup hd)
  · rename_i bases members h
    have := ih.buildStruct bases members name ty.displayName
      (fun b hb => hty.child (.use (h ▸ .base hb)))
      (fun s hs => hty.child (.use (h ▸ .structMember hs)))
    infer_instance
  · rename_i members h
    have := ih.buildUnion members name ty.displayName
      (fun s hs => hty.child (.use (h ▸ .unionMember hs)))
    infer_instance
  · rename_i u es h
    have := ih.buildEnum u es name ty.displayName
      (fun en hen => hty.child (.use (h ▸ .enumValue hen)))
    infer_instance
  · rename_i es h
    have := ih.buildBitfield es name ty.displayName
      (fun en hen => hty.child (.use (h ▸ .bitfieldWidth hen)))
    infer_instance

lemma buildStruct_avoids (bases : List TypeDecl) (members : List Stmt) (name tn : String)
    (hbases : ∀ b ∈ bases, p.Sound (.use b)) (hmembers : ∀ s ∈ members, p.Sound (.stmt .member s)) :
    Avoids p (buildStruct (fuel + 1) bases members name tn) := by
  simp only [buildStruct]
  refine Avoids.bind _ fun _ => Avoids.bind _ fun _ => ?_
  refine @Avoids.attempt_bind _ _ _ _ ?_ _ (fun _ => inferInstance) fun _ _ _ => ⟨_, rfl⟩
  refine Avoids.bind_of (Avoids.forM bases fun b hb => ?_) fun _ =>
    Avoids.forM members fun s hs => ih.buildMember .member s ⟨hmembers s hs, .inl rfl⟩
  have := ih.buildType b "" (hbases b hb)
  infer_instance

lemma buildUnion_avoids (members : List Stmt) (name tn : String)
    (hmembers : ∀ s ∈ members, p.Sound (.stmt .member s)) :
    Avoids p (buildUnion (fuel + 1) members name tn) := by
  simp only [buildUnion]
  refine Avoids.bind _ fun _ => Avoids.bind _ fun _ => ?_
  refine @Avoids.attempt_bind _ _ _ _ (Avoids.foldlM members (fun size m hm => ?_) 0) _
    (fun _ => inferInstance) fun _ _ _ => ⟨_, rfl⟩
  have := ih.buildMember .member m ⟨hmembers m hm, .inl rfl⟩
  infer_instance

lemma buildEnum_avoids (u : Builtin) (es : List EnumEntry) (name tn : String)
    (hes : ∀ en ∈ es, p.Sound (.expr en.value)) :
    Avoids p (buildEnum (fuel + 1) u es name tn) := by
  have := ih.enumEntries u es hes
  simp only [buildEnum]
  split <;> infer_instance

lemma buildBitfield_avoids (es : List BitfieldEntry) (name tn : String)
    (hes : ∀ en ∈ es, p.Sound (.expr en.width)) :
    Avoids p (buildBitfield (fuel + 1) es name tn) := by
  simp only [buildBitfield]
  -- the fold's accumulator is the next bit offset and the fields so far
  refine Avoids.bind _ fun _ =>
    Avoids.bind_left (Avoids.foldlM es (fun r en hen => ?_) _) _
  have := ih.evalExpr en.width (hes en hen)
  cases r
  infer_instance

lemma buildArray_avoids (name : String) (ty : TypeDecl) (size : ArraySize)
    (hty : p.Sound (.use ty)) (hsize : ∀ e, size = .fixed e ∨ size = .whileCond e → p.Sound (.expr e)) :
    Avoids p (buildArray (fuel + 1) name ty size) := by
  have := ih.buildString name ty size 1 hsize
  have := ih.buildString name ty size 2 hsize
  cases size with
  | fixed count =>
    have := ih.evalExpr count (hsize count (.inl rfl))
    have : ∀ n, Avoids p (fixedElements fuel ty 0 n []) := fun n =>
      ih.fixedElements ty 0 n [] hty
    simp only [buildArray]
    split <;> infer_instance
  | whileCond c =>
    have := ih.whileElements ty c 0 [] hty (hsize c (.inr rfl))
    simp only [buildArray]
    split <;> infer_instance
  | unsized =>
    have := ih.unsizedElements ty 0 [] hty
    simp only [buildArray]
    split <;> infer_instance

lemma buildElement_avoids (ty : TypeDecl) (i : Nat) (hty : p.Sound (.use ty)) :
    Avoids p (buildElement (fuel + 1) ty i) := by
  have := ih.buildType ty ("[" ++ toString i ++ "]") hty
  simp only [buildElement]
  infer_instance

lemma fixedElements_avoids (ty : TypeDecl) (i n : Nat) (acc : List Node)
    (hty : p.Sound (.use ty)) : Avoids p (fixedElements (fuel + 1) ty i n acc) := by
  have := ih.buildElement ty i hty
  have : ∀ acc, Avoids p (fixedElements fuel ty (i + 1) n acc) := fun acc =>
    ih.fixedElements ty (i + 1) n acc hty
  simp only [fixedElements]
  infer_instance

lemma whileElements_avoids (ty : TypeDecl) (c : Expr) (count : Nat) (acc : List Node)
    (hty : p.Sound (.use ty)) (hc : p.Sound (.expr c)) :
    Avoids p (whileElements (fuel + 1) ty c count acc) := by
  have := ih.evalExpr c hc
  have := ih.buildElement ty count hty
  have : ∀ acc, Avoids p (whileElements fuel ty c (count + 1) acc) := fun acc =>
    ih.whileElements ty c (count + 1) acc hty hc
  simp only [whileElements]
  infer_instance

lemma unsizedElements_avoids (ty : TypeDecl) (count : Nat) (acc : List Node)
    (hty : p.Sound (.use ty)) : Avoids p (unsizedElements (fuel + 1) ty count acc) := by
  have := ih.buildElement ty count hty
  have : ∀ acc, Avoids p (unsizedElements fuel ty (count + 1) acc) := fun acc =>
    ih.unsizedElements ty (count + 1) acc hty
  simp only [unsizedElements]
  infer_instance

lemma buildString_avoids (name : String) (ty : TypeDecl) (size : ArraySize) (unit : Nat)
    (hsize : ∀ e, size = .fixed e ∨ size = .whileCond e → p.Sound (.expr e)) :
    Avoids p (buildString (fuel + 1) name ty size unit) := by
  have := ih.unsizedChars unit
  cases size with
  | fixed count =>
    have := ih.evalExpr count (hsize count (.inl rfl))
    simp only [buildString]
    infer_instance
  | whileCond c =>
    have : ∀ start, Avoids p (whileChars fuel c start unit) := fun start =>
      ih.whileChars c start unit (hsize c (.inr rfl))
    simp only [buildString]
    infer_instance
  | unsized =>
    simp only [buildString]
    infer_instance

lemma whileChars_avoids (c : Expr) (start unit : Nat) (hc : p.Sound (.expr c)) :
    Avoids p (whileChars (fuel + 1) c start unit) := by
  have := ih.evalExpr c hc
  have := ih.whileChars c start unit hc
  simp only [whileChars]
  infer_instance

lemma unsizedChars_avoids (unit : Nat) : Avoids p (unsizedChars (fuel + 1) unit) := by
  have := ih.unsizedChars unit
  simp only [unsizedChars]
  infer_instance

lemma buildPointer_avoids (name : String) (target : TypeDecl) (addrType : Builtin)
    (addrEndian : Option Endian) (attrs : List Attribute) (htarget : p.Sound (.use target)) :
    Avoids p (buildPointer (fuel + 1) name target addrType addrEndian attrs) := by
  have := ih.buildType target name htarget
  simp only [buildPointer]
  split
  · refine Avoids.bind _ fun _ => ?_
    refine Avoids.bind _ fun _ => ?_
    refine Avoids.bind _ fun _ => ?_
    refine Avoids.bind _ fun _ => ?_
    refine Avoids.bind _ fun _ => ?_
    -- the address, plus the result of a `pointer_base` function if one is named
    split
    · infer_instance
    · refine Avoids.bind_left (@avoids_withLine _ p _ _ ?_) _
      -- the function named by the attribute is one the program defines
      split
      · refine Avoids.bind _ fun fname => Avoids.roleFunction_bind fun f hf => ?_
        have : ∀ args, Avoids p (callUser fuel f args) := fun args => ih.callUser f args hf
        infer_instance
      · infer_instance
  · infer_instance

end Step

/-- **Every function of the evaluator runs in place**, at every fuel, on the pieces of a
well-formed program: it fails only with a fault that the program allows.

**Proof sketch.** Induction on the fuel. At zero every function runs out of fuel. One fuel
more, each function is a `do` block over the primitives and over the functions one fuel
below, called on pieces below its own, which are sound as its own are. -/
theorem avoidsAt (hp : p.WellFormed) (fuel : Nat) : AvoidsAt p fuel := by
  induction fuel with
  | zero =>
    constructor <;> intros <;>
      simp only [evalExpr, resolvePath, scopeMember, enumEntries, callFunction, callUser,
        execBlock, execStmt, runLoop, execExprStmt, buildMember, buildVar, buildType, buildBody,
        buildStruct, buildUnion, buildEnum, buildBitfield, buildArray, buildElement,
        fixedElements, whileElements, unsizedElements, buildString, whileChars, unsizedChars,
        buildPointer] <;>
      infer_instance
  | succ fuel ih =>
    exact ⟨evalExpr_avoids ih, resolvePath_avoids ih, scopeMember_avoids hp ih,
      enumEntries_avoids ih, callFunction_avoids ih, callUser_avoids hp ih, execBlock_avoids ih,
      execStmt_avoids ih, runLoop_avoids ih, execExprStmt_avoids ih, buildMember_avoids ih,
      buildVar_avoids ih, buildType_avoids ih, buildBody_avoids hp ih, buildStruct_avoids ih,
      buildUnion_avoids ih, buildEnum_avoids ih, buildBitfield_avoids ih, buildArray_avoids ih,
      buildElement_avoids ih, fixedElements_avoids ih, whileElements_avoids ih,
      unsizedElements_avoids ih, buildString_avoids ih, whileChars_avoids ih,
      unsizedChars_avoids ih, buildPointer_avoids ih⟩

/-- Building a well-formed program builds each of its statements at the top level. -/
lemma avoids_buildProgram (hp : p.WellFormed) (fuel : Nat) : Avoids p (buildProgram fuel p) := by
  unfold buildProgram
  exact Avoids.bind_left (Avoids.forM p.stmts fun s hs =>
    (avoidsAt hp fuel).buildMember .top s ⟨hp.stmts s hs, .inr ⟨rfl, hs⟩⟩) _

/-- The value of a node after its `transform` function, which the program defines. -/
lemma avoids_transformValue (hp : p.WellFormed) (fuel : Nat) (node : Node) :
    Avoids p (transformValue fuel node) := by
  unfold transformValue
  refine Avoids.bind _ fun v => ?_
  split
  · infer_instance
  · refine Avoids.roleFunction_bind fun f hf => ?_
    have := (avoidsAt hp fuel).callUser f [v] hf
    infer_instance

/-- The shown text of a node, through its `format` function, which the program defines. -/
lemma avoids_formatValue (hp : p.WellFormed) (fuel : Nat) (node : Node) :
    Avoids p (formatValue fuel node) := by
  have := avoids_transformValue hp fuel node
  unfold formatValue
  split
  · refine Avoids.bind _ fun v => Avoids.roleFunction_bind fun f hf => ?_
    have := (avoidsAt hp fuel).callUser f [v] hf
    infer_instance
  · infer_instance

/-- A computation run from a fresh state fails only with an allowed fault. -/
lemma Avoids.fresh {x : Eval α} (hx : Avoids p x) (data : ByteArray) (cfg : RunConfig)
    {e : EvalError} (h : Eval.fresh p data cfg x = .error e) : p.Allows e.fault := by
  unfold Eval.fresh at h
  cases hr : x.outcome (Context.of p data cfg) (Machine.initial []) with
  | error e' =>
    rw [hr] at h
    cases h
    obtain ⟨m', hm⟩ := outcome_eq_error.mp hr
    exact hx.avoids _ (Context.of_program p data cfg) _ _ _ hm
  | ok r =>
    rw [hr] at h
    cases h

end Eval

/-- **A well-formed program runs in place.** A run fails only with a fault that is not one of
a statement out of its place or of an unknown type; it refuses a host variable's type only
when the program declares an `in` or `out` variable of a type with no value. -/
theorem runProgram_allows {p : Program} (hp : p.WellFormed) (data : ByteArray) (cfg : RunConfig)
    (inputs : List (String × Value)) {e : EvalError} (h : runProgram p data cfg inputs = .error e) :
    p.Allows e.fault := by
  unfold runProgram at h
  cases hr : (buildProgram Eval.fuel p).outcome (Context.of p data cfg) (Machine.initial inputs) with
  | error e' =>
    rw [hr] at h
    cases h
    obtain ⟨m', hm⟩ := Eval.outcome_eq_error.mp hr
    exact (Eval.avoids_buildProgram hp Eval.fuel).avoids _ (Context.of_program p data cfg) _ _ _ hm
  | ok r =>
    rw [hr] at h
    cases h

/-- The shown text of a node of a run of a well-formed program is computed in place. -/
theorem formatNode_allows {p : Program} (hp : p.WellFormed) (data : ByteArray) (cfg : RunConfig)
    (node : Node) {e : EvalError} (h : formatNode p data cfg node = .error e) :
    p.Allows e.fault :=
  (Eval.avoids_formatValue hp Eval.fuel node).fresh data cfg h

/-! ### Parsed programs -/

/-- The statements of a type body are members. -/
lemma TypeBody.Holds.eq_member {b : TypeBody} {k : Site} {s : Stmt} (h : b.Holds (.stmt k s)) :
    k = .member := by
  cases h <;> rfl

/-- A statement that a valid program holds at the top level is one of its statements: no
statement that the top level admits holds statements of its own place. -/
lemma Program.Valid.mem_of_holds_top {p : Program} (hv : p.Valid) {s : Stmt}
    (hs : p.Holds (.stmt .top s)) : s ∈ p.stmts := by
  -- the last step of a path to `s` would come from a condition, a loop or a group at the top
  -- level, and none of those fits there
  have hparent : ∀ y, p.Holds y → ¬ Piece.Child y (.stmt .top s) := by
    intro y hy hchild
    have hfit := hv y hy
    cases hchild
    case use hbody => cases hbody.eq_member
    case decl hbody => cases hbody.eq_member
    all_goals cases hfit
  rcases hs with ⟨s₀, hs₀, hpath⟩ | ⟨e, he, hpath⟩
  · rcases Relation.ReflTransGen.cases_tail hpath with h | ⟨y, hy, hchild⟩
    · cases h
      exact hs₀
    · exact absurd hchild (hparent y (.inl ⟨s₀, hs₀, hy⟩))
  · rcases Relation.ReflTransGen.cases_tail hpath with h | ⟨y, hy, hchild⟩
    · cases h
    · exact absurd hchild (hparent y (.inr ⟨e, he, hy⟩))

/-- **The registry of a parsed program is coherent.** It holds one entry for each type
definition among the program's statements, in order and under the type's name, and no name
twice. Every use of a named type anywhere in the program, its registered declarations
included, is a forward reference to a registered name or the registered declaration of its
name up to the byte order. So no evaluation of the program meets an unknown type. -/
theorem parseTokens_registry_coherent {tokens : Array Token} {p : Program}
    (h : parseTokens tokens = .ok p) :
    p.types = p.stmts.filterMap Stmt.typeEntry? ∧ (p.types.map Prod.fst).Nodup ∧
    (∀ d, p.Holds (.use d) → d.name ≠ "" →
      (∃ q, d.body = .forward q ∧ q ∈ p.types.map Prod.fst) ∨
        ∃ e, p.typeNamed? d.name = some e ∧ { d with endian := e.endian } = e) ∧
    (∀ data cfg inputs e, runProgram p data cfg inputs = .error e →
      ∀ q, e.fault ≠ .unknownType q) ∧
    (∀ data cfg node e, formatNode p data cfg node = .error e → ∀ q, e.fault ≠ .unknownType q) := by
  obtain ⟨htypes, hp⟩ := parseTokens_wellFormed h
  refine ⟨htypes, hp.registry.nodup, fun d hd hname => ?_,
    fun data cfg inputs e he => (runProgram_allows hp data cfg inputs he).ne_unknownType,
    fun data cfg node e he => (formatNode_allows hp data cfg node he).ne_unknownType⟩
  -- a use of a named type is no builtin used directly, and no name is open any more
  have hnames : d.NamesIn p.types [] := hp.valid _ hd
  rcases hnames with ⟨q, hq, hk | ho⟩ | hcopy | ⟨hempty, -⟩
  · exact .inl ⟨q, hq, hk⟩
  · cases ho
  · exact .inr hcopy
  · exact absurd hempty hname

/-- `using A = u8; struct S : A { u8 x; }; S s @ 0;` has a coherent registry. -/
theorem parseTokens_registry_coherent_baseAlias :
    ∃ p, parseTokens tokensBaseAlias = .ok p ∧
      p.types = p.stmts.filterMap Stmt.typeEntry? ∧ (p.types.map Prod.fst).Nodup ∧
      (∀ d, p.Holds (.use d) → d.name ≠ "" →
        (∃ q, d.body = .forward q ∧ q ∈ p.types.map Prod.fst) ∨
          ∃ e, p.typeNamed? d.name = some e ∧ { d with endian := e.endian } = e) ∧
      (∀ data cfg inputs e, runProgram p data cfg inputs = .error e →
        ∀ q, e.fault ≠ .unknownType q) ∧
      (∀ data cfg node e, formatNode p data cfg node = .error e →
        ∀ q, e.fault ≠ .unknownType q) :=
  have hp := Except.eq_ok_get (by decide +kernel)
  ⟨_, hp, parseTokens_registry_coherent hp⟩

/-- **Statements of a parsed program stand in their place.** Every statement the program
holds is one its place admits (`Stmt.Fits`: the top level, the members of a type or of a
member condition, and function bodies each have their own grammar), and only a variable
among the program's own statements is placed `in` or `out`. So no evaluation of the program
fails because a statement is out of its place, and a run refuses a host variable's type only
when the program declares an `in` or `out` variable of a type with no value. -/
theorem parseTokens_statements_in_place {tokens : Array Token} {p : Program}
    (h : parseTokens tokens = .ok p) :
    (∀ k s, p.Holds (.stmt k s) → s.Fits k) ∧
    (∀ k s pl, p.Holds (.stmt k s) → s.placement? = some pl → (pl = .input ∨ pl = .output) →
      k = .top ∧ s ∈ p.stmts ∧ ∃ n ty attrs sp, s = .var n ty pl attrs sp) ∧
    (∀ data cfg inputs e, runProgram p data cfg inputs = .error e →
      e.fault ≠ .functionOnly ∧ e.fault ≠ .declarationInFunction ∧
        e.fault ≠ .definitionInFunction ∧ (e.fault = .hostVariableType → p.MistypedHost)) ∧
    (∀ data cfg node e, formatNode p data cfg node = .error e →
      e.fault ≠ .functionOnly ∧ e.fault ≠ .declarationInFunction ∧
        e.fault ≠ .definitionInFunction ∧ (e.fault = .hostVariableType → p.MistypedHost)) := by
  obtain ⟨-, hp⟩ := parseTokens_wellFormed h
  have hv := hp.valid
  refine ⟨fun k s hs => hv _ hs, fun k s pl hs hpl hhost => ?_,
    fun data cfg inputs e he => (runProgram_allows hp data cfg inputs he).in_place,
    fun data cfg node e he => (formatNode_allows hp data cfg node he).in_place⟩
  obtain ⟨rfl, hvar⟩ := Stmt.Fits.eq_top_of_host (hv _ hs) hpl hhost
  exact ⟨rfl, hv.mem_of_holds_top hs, hvar⟩

/-- `using A = u8; struct S : A { u8 x; }; S s @ 0;` keeps its statements in place. -/
theorem parseTokens_statements_in_place_baseAlias :
    ∃ p, parseTokens tokensBaseAlias = .ok p ∧
      (∀ k s, p.Holds (.stmt k s) → s.Fits k) ∧
      (∀ k s pl, p.Holds (.stmt k s) → s.placement? = some pl → (pl = .input ∨ pl = .output) →
        k = .top ∧ s ∈ p.stmts ∧ ∃ n ty attrs sp, s = .var n ty pl attrs sp) ∧
      (∀ data cfg inputs e, runProgram p data cfg inputs = .error e →
        e.fault ≠ .functionOnly ∧ e.fault ≠ .declarationInFunction ∧
          e.fault ≠ .definitionInFunction ∧ (e.fault = .hostVariableType → p.MistypedHost)) ∧
      (∀ data cfg node e, formatNode p data cfg node = .error e →
        e.fault ≠ .functionOnly ∧ e.fault ≠ .declarationInFunction ∧
          e.fault ≠ .definitionInFunction ∧ (e.fault = .hostVariableType → p.MistypedHost)) :=
  have hp := Except.eq_ok_get (by decide +kernel)
  ⟨_, hp, parseTokens_statements_in_place hp⟩

end ByteLayout

import ByteLayout.Proofs.Syntax.Wp

set_option autoImplicit false
-- Instance search builds one instance term per call of a `do` block, and the largest blocks
-- of the parser have a few hundred calls once their branches are laid out.
set_option synthInstance.maxSize 10000000

/-!
# Parsers that leave the registry alone

Most of the parser only reads: expressions, function bodies, parameter and entry lists,
attributes and the shapes of declarations move the position, and at most record a
function's name or enter a namespace. This file proves it of each of them, as a frame
lemma: every successful run ends with the registry it started with, its finished
declarations and the names still open alike (`Parse.KeepsTypes`).

## Main definitions

* `Parse.KeepsTypes` — every run of the parser leaves the registry as it was.

## Main results

* `Parse.exprKeepsTypes` — the expression parser leaves the registry alone, at every fuel.
* `Parse.funKeepsTypes` — so does the parser of function bodies.

## Design

`KeepsTypes` is a class, with an instance for each monad operation and each primitive, so
that instance search proves the frame lemma of a whole `do` block. A continuation that
matches on the value it receives is proved by cases on that value (`KeepsTypesFn`): for an
optional result and for a token kind, instance search reduces the `match` on each
constructor. The few matches it cannot see through, on a value computed in the block, are
split by hand.
-/

namespace ByteLayout

namespace Parse

variable {α : Type}

/-- A parser that leaves the registry as it was: the finished declarations and the names
still open. It is a class so that instance search proves it of a whole `do` block from the
instances of the calls in it. -/
class KeepsTypes (x : Parse α) : Prop where
  keeps : ∀ s, Wp x s fun _ s' => s'.types = s.types ∧ s'.openTypes = s.openTypes

lemma KeepsTypes.wp (x : Parse α) [hx : KeepsTypes x] {s₀ s : ParserState}
    {P : α → ParserState → Prop} (h₀ : s.types = s₀.types)
    (k : ∀ a s', s'.types = s₀.types → P a s') : Wp x s P :=
  (hx.keeps s).mono fun a s' h => k a s' (h.1.trans h₀)

lemma KeepsTypes.wp_same (x : Parse α) [hx : KeepsTypes x] {s : ParserState}
    {P : α → ParserState → Prop}
    (k : ∀ a s', s'.types = s.types → s'.openTypes = s.openTypes → P a s') : Wp x s P :=
  (hx.keeps s).mono fun a s' h => k a s' h.1 h.2

/-! ### Leaving the registry alone, compositionally -/

section Keeps

variable {β : Type}

instance keepsTypes_pure (a : α) : KeepsTypes (pure a : Parse α) := ⟨fun _ => by simp⟩

/-- A continuation that leaves the registry alone on every value it may receive. Instance
search proves it by cases on the value when the continuation matches on it, and from
the instance of each case otherwise. -/
class KeepsTypesFn (f : α → Parse β) : Prop where
  keeps : ∀ a, KeepsTypes (f a)

instance (priority := low) keepsTypesFn_of_forall (f : α → Parse β) [h : ∀ a, KeepsTypes (f a)] :
    KeepsTypesFn f := ⟨h⟩

instance keepsTypesFn_option {γ : Type} (f : Option γ → Parse β) [KeepsTypes (f none)]
    [∀ d, KeepsTypes (f (some d))] : KeepsTypesFn f := ⟨fun o => by cases o <;> infer_instance⟩

instance keepsTypesFn_kind (f : Token.Kind → Parse β) [∀ v, KeepsTypes (f (.int v))]
    [∀ v, KeepsTypes (f (.float v))] [∀ v, KeepsTypes (f (.str v))]
    [∀ v, KeepsTypes (f (.char v))] [∀ v, KeepsTypes (f (.bool v))]
    [∀ v, KeepsTypes (f (.ident v))] [∀ v, KeepsTypes (f (.builtin v))]
    [∀ v, KeepsTypes (f (.keyword v))] [∀ v, KeepsTypes (f (.symbol v))]
    [KeepsTypes (f .eof)] : KeepsTypesFn f := ⟨fun k => by cases k <;> infer_instance⟩

instance keepsTypes_bind (x : Parse α) (f : α → Parse β) [KeepsTypes x] [hf : KeepsTypesFn f] :
    KeepsTypes (x >>= f) := ⟨fun s => by
  simp only [wp_bind]
  exact KeepsTypes.wp_same x fun a s' h₁ h₂ =>
    (hf.keeps a).keeps s' |>.mono fun _ _ h => ⟨h.1.trans h₁, h.2.trans h₂⟩⟩

/-- Sequencing with a continuation whose instance is proved by hand. -/
lemma KeepsTypes.bind (x : Parse α) [KeepsTypes x] {f : α → Parse β}
    (hf : ∀ a, KeepsTypes (f a)) : KeepsTypes (x >>= f) := inferInstance

instance keepsTypes_map (f : α → β) (x : Parse α) [KeepsTypes x] : KeepsTypes (f <$> x) :=
  ⟨fun s => by
    simp only [wp_map]
    exact KeepsTypes.keeps s⟩

instance keepsTypes_ite (p : Prop) [Decidable p] (x y : Parse α) [KeepsTypes x] [KeepsTypes y] :
    KeepsTypes (if p then x else y) := by
  split <;> assumption

instance keepsTypes_get : KeepsTypes (get : Parse ParserState) := ⟨fun _ => by simp⟩

instance keepsTypes_throw (e : ParseError) : KeepsTypes (throw e : Parse α) :=
  ⟨fun _ => wp_throw e⟩

instance keepsTypes_failAt (f : ParseFault) (off : Int) : KeepsTypes (failAt f off : Parse α) :=
  ⟨fun _ => wp_failAt f off _⟩

instance keepsTypes_fail (f : ParseFault) : KeepsTypes (fail f : Parse α) :=
  ⟨fun _ => wp_fail f _⟩

/-- A block that fails first leaves the registry alone whatever follows: `unless c do
fail e` leaves the rest of the block behind the failure. -/
instance keepsTypes_fail_bind (e : ParseFault) (f : PUnit → Parse β) :
    KeepsTypes (fail e >>= f) := ⟨fun _ => by simp⟩

instance keepsTypes_orM (x y : Parse Bool) [KeepsTypes x] [KeepsTypes y] :
    KeepsTypes (x <||> y) := ⟨fun s => by
  simp only [wp_orM]
  exact KeepsTypes.wp_same x fun b s' h₁ h₂ => ⟨fun _ => ⟨h₁, h₂⟩,
    fun _ => KeepsTypes.wp_same y fun _ _ h₁' h₂' => ⟨h₁'.trans h₁, h₂'.trans h₂⟩⟩⟩

instance keepsTypes_kindAt (off : Nat) : KeepsTypes (kindAt off) := ⟨fun _ => by simp⟩

instance keepsTypes_kindBefore (back : Nat) : KeepsTypes (kindBefore back) := ⟨fun _ => by simp⟩

instance keepsTypes_spanAt (off : Int) : KeepsTypes (spanAt off) := ⟨fun _ => by simp⟩

instance keepsTypes_peekAt (c : TokenClass) (off : Nat) : KeepsTypes (peekAt c off) :=
  ⟨fun _ => by simp⟩

instance keepsTypes_advance (n : Nat) : KeepsTypes (advance n) := ⟨fun _ => by simp⟩

instance keepsTypes_retreat (n : Nat) : KeepsTypes (retreat n) := ⟨fun _ => by simp⟩

instance keepsTypes_accept (cs : List TokenClass) : KeepsTypes (accept cs) := ⟨fun _ => by simp⟩

instance keepsTypes_identBefore (back : Nat) : KeepsTypes (identBefore back) :=
  ⟨fun _ => wp_identBefore back _ fun _ => ⟨rfl, rfl⟩⟩

instance keepsTypes_identHere : KeepsTypes identHere := ⟨fun _ => wp_identHere _ fun _ => ⟨rfl, rfl⟩⟩

instance keepsTypes_stringBefore (back : Nat) : KeepsTypes (stringBefore back) :=
  ⟨fun _ => wp_stringBefore back _ fun _ => ⟨rfl, rfl⟩⟩

instance keepsTypes_builtinBefore : KeepsTypes builtinBefore :=
  ⟨fun _ => wp_builtinBefore _ fun _ => ⟨rfl, rfl⟩⟩

instance keepsTypes_skipSemicolons (fuel : Nat) : KeepsTypes (skipSemicolons fuel) :=
  ⟨fun _ => wp_skipSemicolons fuel _ fun _ => ⟨rfl, rfl⟩⟩

instance keepsTypes_expectSemicolon : KeepsTypes expectSemicolon :=
  ⟨fun _ => wp_expectSemicolon _ fun _ => ⟨rfl, rfl⟩⟩

instance keepsTypes_namespacePath : KeepsTypes namespacePath :=
  ⟨fun _ => wp_namespacePath _ fun _ _ => ⟨rfl, rfl⟩⟩

instance keepsTypes_instantiate? (name : String) (span : Span) :
    KeepsTypes (instantiate? name span) := ⟨fun _ => wp_instantiate? name span _ fun _ _ => ⟨rfl, rfl⟩⟩

instance keepsTypes_peekCall : KeepsTypes peekCall := ⟨fun _ => by simp [peekCall]⟩

end Keeps

/-! ### Expressions leave the registry alone -/

/-- The frame lemma for each function of the expression parser at one fuel. -/
structure ExprKeepsTypes (fuel : Nat) : Prop where
  expr : KeepsTypes (expr fuel)
  ternary : KeepsTypes (ternary fuel)
  binary : ∀ level, KeepsTypes (binary fuel level)
  binaryRest : ∀ level lhs, KeepsTypes (binaryRest fuel level lhs)
  unary : KeepsTypes (unary fuel)
  cast : KeepsTypes (cast fuel)
  primary : KeepsTypes (primary fuel)
  path : ∀ acc, KeepsTypes (path fuel acc)
  arguments : ∀ acc, KeepsTypes (arguments fuel acc)

instance keepsTypes_levelOp? (level : Nat) : KeepsTypes (levelOp? level) := by
  simp only [levelOp?]
  infer_instance

instance keepsTypes_closeOperand (what : String) : KeepsTypes (closeOperand what) := by
  simp only [closeOperand]
  infer_instance

instance keepsTypes_callWith (args : Parse (List Expr)) [KeepsTypes args] :
    KeepsTypes (callWith args) := by
  simp only [callWith]
  infer_instance

instance keepsTypes_typeUse (allowAny : Bool) : KeepsTypes (typeUse allowAny) := by
  simp only [typeUse]
  infer_instance

instance keepsTypes_scopeRest : ∀ fuel span typeName, KeepsTypes (scopeRest fuel span typeName)
  | 0, _, _ => by
    simp only [scopeRest]
    infer_instance
  | fuel + 1, span, typeName => by
    have := keepsTypes_scopeRest fuel
    simp only [scopeRest]
    infer_instance

variable {fuel : Nat}

lemma ternary_keepsTypes (ih : ExprKeepsTypes fuel) : KeepsTypes (ternary (fuel + 1)) := by
  have := ih.binary
  have := ih.ternary
  simp only [ternary]
  infer_instance

lemma binary_keepsTypes (ih : ExprKeepsTypes fuel) (level : Nat) :
    KeepsTypes (binary (fuel + 1) level) := by
  have := ih.binary
  have := ih.binaryRest
  have := ih.unary
  simp only [binary]
  infer_instance

lemma binaryRest_keepsTypes (ih : ExprKeepsTypes fuel) (level : Nat) (lhs : Expr) :
    KeepsTypes (binaryRest (fuel + 1) level lhs) := by
  have := ih.binary
  have := ih.binaryRest
  simp only [binaryRest]
  infer_instance

lemma unary_keepsTypes (ih : ExprKeepsTypes fuel) : KeepsTypes (unary (fuel + 1)) := by
  have := ih.unary
  have := ih.cast
  simp only [unary]
  -- the operator is matched on after a `let`, which instance search does not split
  refine KeepsTypes.bind _ fun _ => KeepsTypes.bind _ fun k => ?_
  split <;> infer_instance

lemma cast_keepsTypes (ih : ExprKeepsTypes fuel) : KeepsTypes (cast (fuel + 1)) := by
  have := ih.primary
  simp only [cast]
  -- the target is matched on through an `if`, which instance search does not split
  refine KeepsTypes.bind _ fun k => ?_
  split
  · infer_instance
  · exact KeepsTypes.bind _ fun _ => KeepsTypes.bind _ fun target => by split <;> infer_instance

lemma primary_keepsTypes (ih : ExprKeepsTypes fuel) : KeepsTypes (primary (fuel + 1)) := by
  have := ih.expr
  have := ih.arguments
  have := ih.path
  simp only [primary]
  -- literals are matched on through literalOf?, which instance search does not unfold
  refine KeepsTypes.bind _ fun span => KeepsTypes.bind _ fun k => ?_
  split <;> infer_instance

lemma path_keepsTypes (ih : ExprKeepsTypes fuel) (acc : List PathSeg) :
    KeepsTypes (path (fuel + 1) acc) := by
  have := ih.expr
  have := ih.path
  simp only [path]
  infer_instance

lemma arguments_keepsTypes (ih : ExprKeepsTypes fuel) (acc : List Expr) :
    KeepsTypes (arguments (fuel + 1) acc) := by
  have := ih.expr
  have := ih.arguments
  simp only [arguments]
  infer_instance

/-- No function of the expression parser changes the registry, at any fuel.

**Proof sketch.** Induction on the fuel: at zero every function fails, and one fuel more
is each function's own lemma above from the frame lemmas one fuel below. -/
theorem exprKeepsTypes (fuel : Nat) : ExprKeepsTypes fuel := by
  induction fuel with
  | zero =>
    constructor <;> intros <;> simp only [expr, ternary, binary, binaryRest, unary, cast,
      primary, path, arguments] <;> infer_instance
  | succ fuel ih =>
    exact
      { expr := by simpa only [expr] using ih.ternary
        ternary := ternary_keepsTypes ih
        binary := binary_keepsTypes ih
        binaryRest := binaryRest_keepsTypes ih
        unary := unary_keepsTypes ih
        cast := cast_keepsTypes ih
        primary := primary_keepsTypes ih
        path := path_keepsTypes ih
        arguments := arguments_keepsTypes ih }

instance keepsTypes_expr (fuel : Nat) : KeepsTypes (expr fuel) := (exprKeepsTypes fuel).expr

instance keepsTypes_call (fuel : Nat) : KeepsTypes (call fuel) := by
  have := (exprKeepsTypes fuel).arguments
  simp only [call]
  infer_instance


/-! ### Reading the token stream and the registry -/

instance keepsTypes_peekAssignment : KeepsTypes peekAssignment := by
  unfold peekAssignment
  infer_instance

instance keepsTypes_peekTypeStart : KeepsTypes peekTypeStart := by
  unfold peekTypeStart
  infer_instance

instance keepsTypes_peekArrayDeclarator : KeepsTypes peekArrayDeclarator := by
  unfold peekArrayDeclarator
  infer_instance

instance keepsTypes_instantiateFinished? (name : String) :
    KeepsTypes (instantiateFinished? name) :=
  ⟨fun _ => wp_instantiateFinished? name _ fun _ _ => ⟨rfl, rfl⟩⟩

/-- Recording a function's name. -/
instance keepsTypes_setFunctions (f : ParserState → List String) :
    KeepsTypes (modify fun s => { s with functions := f s } : Parse Unit) := ⟨fun _ => by simp⟩

/-- Entering or leaving a namespace. -/
instance keepsTypes_setNs (f : ParserState → List String) :
    KeepsTypes (modify fun s => { s with ns := f s } : Parse Unit) := ⟨fun _ => by simp⟩

/-! ### Declarations without a type of their own -/

instance keepsTypes_memberVariable_more (acc : List String) :
    ∀ fuel, KeepsTypes (memberVariable.more acc fuel)
  | 0 => by
    simp only [memberVariable.more]
    infer_instance
  | fuel + 1 => by
    have := fun acc => keepsTypes_memberVariable_more acc fuel
    simp only [memberVariable.more]
    infer_instance

instance keepsTypes_memberVariable (ty : TypeDecl) (span : Span) :
    KeepsTypes (memberVariable ty span) := by
  unfold memberVariable
  infer_instance

instance keepsTypes_pointerTail (target : TypeDecl) (span : Span) :
    KeepsTypes (pointerTail target span) := by
  unfold pointerTail
  -- the address type is matched on through asBuiltin?
  exact KeepsTypes.bind _ fun _ => KeepsTypes.bind _ fun size => by split <;> infer_instance

instance keepsTypes_arraySize (fuel : Nat) : KeepsTypes (arraySize fuel) := by
  unfold arraySize
  infer_instance

instance keepsTypes_attributeItems : ∀ fuel acc, KeepsTypes (attributeItems fuel acc)
  | 0, _ => by
    simp only [attributeItems]
    infer_instance
  | fuel + 1, acc => by
    have := keepsTypes_attributeItems fuel
    simp only [attributeItems]
    infer_instance

instance keepsTypes_parameters : ∀ fuel unnamed acc, KeepsTypes (parameters fuel unnamed acc)
  | 0, _, _ => by
    simp only [parameters]
    infer_instance
  | fuel + 1, unnamed, acc => by
    have := keepsTypes_parameters fuel
    simp only [parameters]
    infer_instance

instance keepsTypes_enumEntries : ∀ fuel acc, KeepsTypes (enumEntries fuel acc)
  | 0, _ => by
    simp only [enumEntries]
    infer_instance
  | fuel + 1, acc => by
    have := keepsTypes_enumEntries fuel
    simp only [enumEntries]
    infer_instance

instance keepsTypes_bitfieldEntries : ∀ fuel acc, KeepsTypes (bitfieldEntries fuel acc)
  | 0, _ => by
    simp only [bitfieldEntries]
    infer_instance
  | fuel + 1, acc => by
    have := keepsTypes_bitfieldEntries fuel
    simp only [bitfieldEntries]
    infer_instance

instance keepsTypes_bases : ∀ fuel acc, KeepsTypes (bases fuel acc)
  | 0, _ => by
    simp only [bases]
    infer_instance
  | fuel + 1, acc => by
    have := keepsTypes_bases fuel
    simp only [bases]
    infer_instance

/-! ### Function bodies -/

/-- The frame lemma for each function of the parser of function bodies at one fuel. -/
structure FunKeepsTypes (fuel : Nat) : Prop where
  functionStatement : KeepsTypes (functionStatement fuel)
  assignment : KeepsTypes (assignment fuel)
  localDeclaration : KeepsTypes (localDeclaration fuel)
  statementBody : KeepsTypes (statementBody fuel)
  statementBlock : ∀ what acc, KeepsTypes (statementBlock fuel what acc)

lemma localDeclaration_keepsTypes : KeepsTypes (localDeclaration (fuel + 1)) := by
  simp only [localDeclaration]
  refine KeepsTypes.bind _ fun _ => KeepsTypes.bind _ fun _ => KeepsTypes.bind _ fun _ => ?_
  split
  · refine KeepsTypes.bind _ fun d => KeepsTypes.bind _ fun _ => ?_
    split
    · infer_instance
    · -- the declaration is matched on to find the variable an initializer assigns
      split <;> infer_instance
  · infer_instance

/-- No function of the parser of function bodies changes the registry, at any fuel.

**Proof sketch.** Induction on the fuel, as for expressions: every function is a `do` block
over the functions one fuel below, the expression parser and the primitives. -/
theorem funKeepsTypes : ∀ fuel, FunKeepsTypes fuel
  | 0 => by
    constructor <;> intros <;>
      simp only [functionStatement, assignment, localDeclaration, statementBody,
        statementBlock] <;> infer_instance
  | fuel + 1 => by
    have ih := funKeepsTypes fuel
    have := ih.functionStatement
    have := ih.assignment
    have := ih.localDeclaration
    have := ih.statementBody
    have := ih.statementBlock
    refine ⟨?_, ?_, localDeclaration_keepsTypes, ?_, fun what acc => ?_⟩
    · simp only [functionStatement]
      infer_instance
    · simp only [assignment]
      infer_instance
    · simp only [statementBody]
      infer_instance
    · simp only [statementBlock]
      infer_instance

instance keepsTypes_statementBlock (fuel : Nat) (what : String) (acc : List Stmt) :
    KeepsTypes (statementBlock fuel what acc) :=
  (funKeepsTypes fuel).statementBlock what acc

instance keepsTypes_function (fuel : Nat) : KeepsTypes (function fuel) := by
  unfold function
  infer_instance

end Parse

end ByteLayout

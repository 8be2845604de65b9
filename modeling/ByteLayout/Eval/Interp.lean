import ByteLayout.Eval.Attribute
import ByteLayout.Eval.Intrinsic
import ByteLayout.Value.Arith

/-!
# The evaluator

A program runs in two modes. Its top-level statements and the members of its structs and
unions are built: each declaration places a node at the cursor (or at an `@` address),
reading as many bytes as its type needs and moving the cursor past them. Function bodies
are executed: they declare locals, assign, branch, loop and return, and may call other
functions but build nothing.

Every function of the evaluator takes a fuel argument and gives up with `outOfFuel` when
it runs out. Each nested call, each statement of a block and each iteration of a loop
spends one unit, so fuel bounds the depth of the evaluation rather than its length. The
runs of the program are bounded by its own limits (steps, recursion depth, array length
and node count), and a run given `Eval.fuel` units never comes near it.

## Main definitions

* `Flow` — how a statement of a function body ends.
* `Built` — a built node and whether it is to be inlined.
* `evalExpr`, `callFunction`, `callUser` — expressions and calls.
* `execStmt`, `execBlock` — function bodies.
* `buildMember`, `buildType` — declarations and types.
-/

namespace ByteLayout

/-- How a statement of a function body ends: normally, by `return` (with or without a
value), by `break` or by `continue`. -/
inductive Flow where
  | normal
  | ret (v : Option Value)
  | brk
  | cont

/-- A built node, and whether its children are to be spliced into the enclosing scope. -/
structure Built where
  node : Node
  inline : Bool

/-- The value of a literal. -/
def Literal.value : Literal → Value
  | .int v => .uint v
  | .float v => .float v
  | .bool v => .bool v
  | .char v => .char v
  | .str v => .str v

/-- The kind of node a builtin type builds. -/
def Builtin.nodeKind : Builtin → NodeKind
  | .signed _ => .signed
  | .float | .double => .float
  | .bool => .boolean
  | .char => .character
  | .char16 => .character16
  | _ => .unsigned

/-- The name of the declaration a statement introduces, for error reports. -/
def Stmt.declName : Stmt → String
  | .var name .. => name
  | .array name .. => name
  | .pointer name .. => name
  | .padding .. => "padding"
  | _ => ""

/-- The declaration a type stands for, through aliases and forward references. -/
def Program.followAliases (p : Program) : Nat → TypeDecl → Except EvalFault TypeDecl
  | 0, _ => .error .outOfFuel
  | fuel + 1, d =>
    match d.body with
    | .alias inner => p.followAliases fuel inner
    | .forward name =>
      match p.typeNamed? name with
      | some d => p.followAliases fuel d
      | none => .error (.unknownType name)
    | _ => .ok d

namespace Eval

/-- The fuel of a run: far more than any run within the program's limits needs. -/
def fuel : Nat := 2 ^ 62

/-- Runs `x` with the cursor at `offset` and puts the cursor back afterwards. -/
def atOffset {α : Type} (offset : Nat) (x : Eval α) : Eval α := do
  let saved ← cursor
  setCursor offset
  let result ← attempt x
  setCursor saved
  MonadExcept.ofExcept result

/-- Runs a builder where a placement says: at the cursor, or at an address computed by
`address` (which must fit in 64 bits) with the cursor put back afterwards. -/
def place {α : Type} (address : Expr → Eval Value) (placement : Placement) (build : Eval α) :
    Eval α :=
  match placement with
  | .cursor => build
  | .atOffset e => do
    let a ← lift (← address e).toUnsigned
    if a ≥ 2 ^ 64 then fault (.placementOutOfRange a)
    atOffset a build
  | .input | .output => fault .hostVariableType

/-- The condition of an `if` or a loop. -/
def truth (v : Value) : Eval Bool := lift v.toBool

/-- Declares a function local: zero of its builtin type, or an untyped zero for `auto`. -/
def declareLocal (name : String) (ty : TypeDecl) : Eval Unit := do
  match ty.asBuiltin? with
  | none => fault (.localNotBuiltin name)
  | some t =>
    let endian := ty.endian.getD .little
    let var : Variable :=
      if t = .auto then ⟨.uint 0, none, endian⟩ else ⟨Value.zero t, some t, endian⟩
    modifyScope (·.define name var)

/-- Declares a host variable in the global frame: an `in` variable takes its supplied
value cast to its type (zero when none is supplied), an `out` variable starts at zero and
is reported at the end. -/
def declareHost (name : String) (ty : TypeDecl) (input : Bool) : Eval Unit := do
  let t ← match ty.asBuiltin? with
    | some .auto | none => fault .hostVariableType
    | some t => pure t
  let value ← do
    if input then
      match (← get).inputs.lookup name with
      | some v => lift (v.cast t .little)
      | none => pure (Value.zero t)
    else do
      modify fun m => { m with outputs := name :: m.outputs }
      pure (Value.zero t)
  modify fun m =>
    { m with scope := { m.scope with global := m.scope.global.define name ⟨value, some t, .little⟩ } }

/-- Applies a declaration's attributes and adds its node, or its children when inlined, to
the innermost frame. -/
def emit (node : Node) (inline : Bool) (attrs : List Attribute) : Eval Unit := do
  let (node, inl) ← applyAttributes node attrs
  if inl || inline then splice node
  else modifyScope (·.pushMember node)

/-- Builds a value of a builtin type at the cursor. -/
def buildBuiltin (b : Builtin) (name typeName : String) : Eval Node := do
  let size ← match b.size? with
    | some s => pure s
    | none => if b = .str then fault .unsizedStr else fault .autoPlacement
  let start ← cursor
  checkRange start size
  let node ← newNode name typeName start size b.nodeKind
  setCursor (start + size)
  return node

end Eval

/-- The node a path denotes, for operators that apply to nodes only. -/
def Resolved.toNode (op : String) : Resolved → Eval Node
  | .node n => pure n
  | .value _ => Eval.fault (.patternOnly op)

open Eval in
mutual

/-- Evaluates an expression; a fault is reported on the line of the innermost
expression it arose in. -/
def evalExpr : Nat → Expr → Eval Value
  | 0, _ => fault .outOfFuel
  | fuel + 1, e => withLine e.span.line do
    match e with
    | .lit v _ => return v.value
    | .path segs _ =>
      match ← resolvePath fuel segs with
      | .value v => return v
      | .node n => nodeValue n
    | .cursor _ => return .uint (← cursor)
    | .unary op x _ => lift (Value.unary op (← evalExpr fuel x))
    | .binary .logAnd l r _ =>
      if !(← truth (← evalExpr fuel l)) then return .bool false
      else return .bool (← truth (← evalExpr fuel r))
    | .binary .logOr l r _ =>
      if ← truth (← evalExpr fuel l) then return .bool true
      else return .bool (← truth (← evalExpr fuel r))
    | .binary op l r _ => do
      let a ← evalExpr fuel l
      let b ← evalExpr fuel r
      lift (Value.binary op a b)
    | .ternary c t f _ =>
      if ← truth (← evalExpr fuel c) then evalExpr fuel t else evalExpr fuel f
    | .cast ty endian x _ => lift ((← evalExpr fuel x).cast ty (endian.getD .little))
    | .scope ty member _ => scopeMember fuel ty member
    | .call name ns args _ =>
      match ← callFunction fuel name ns args with
      | some v => return v
      | none => fault (.noReturnValue name)
    | .addressOf segs _ => return .uint (← (← resolvePath fuel segs).toNode "addressof").offset
    | .sizeOfPath segs _ => return .uint (← (← resolvePath fuel segs).toNode "sizeof").size
    | .sizeOfType ty _ =>
      match ty.size? with
      | some n => return .uint n
      | none => fault (.sizeOfType ty.name)

/-- Resolves a member path, evaluating its indices first. -/
def resolvePath : Nat → List PathSeg → Eval Resolved
  | 0, _ => fault .outOfFuel
  | fuel + 1, segs => do
    let segs ← segs.mapM fun seg =>
      match seg with
      | .name n => pure (Seg.name n)
      | .parent => pure .parent
      | .current => pure .current
      | .index e => do return .index (← lift (← evalExpr fuel e).toUnsigned)
    let m ← get
    lift (m.scope.resolve segs m.cursor)

/-- `Type::member`: the value of an enum entry. -/
def scopeMember : Nat → TypeDecl → String → Eval Value
  | 0, _, _ => fault .outOfFuel
  | fuel + 1, ty, member => do
    let decl ← lift ((← read).program.followAliases fuel ty)
    match decl.body with
    | .enum underlying entries =>
      match (← enumEntries fuel underlying entries).lookup member with
      | some v => return .uint v
      | none => fault (.noEnumMember ty.displayName member)
    | _ => fault (.scopeOfType ty.displayName)

/-- The entries of an enum with their values, each cast to the underlying type and kept
to its width. -/
def enumEntries : Nat → Builtin → List EnumEntry → Eval (List (String × Nat))
  | 0, _, _ => fault .outOfFuel
  | fuel + 1, underlying, entries => do
    let bits := underlying.size?.getD 16 * 8
    entries.mapM fun entry => do
      let v ← evalExpr fuel entry.value
      let n ← lift (← lift (v.cast underlying .little)).toUnsigned
      return (entry.name, n % 2 ^ bits)

/-- Calls a function with evaluated arguments: a user function by its name qualified with
the calling namespace, else by its name as written, else a built-in function. -/
def callFunction : Nat → String → String → List Expr → Eval (Option Value)
  | 0, _, _, _ => fault .outOfFuel
  | fuel + 1, name, ns, args => do
    let values ← args.mapM (evalExpr fuel)
    let ctx ← read
    let qualified := if ns.isEmpty then none else some (ns ++ "::" ++ name)
    match (qualified.bind ctx.function?).or (ctx.function? name) with
    | some f => callUser fuel f values
    | none =>
      match (Intrinsic.lookup? name).or (qualified.bind Intrinsic.lookup?) with
      | some g => g values
      | none => fault (.unknownFunction name)

/-- Runs a user function in a fresh function frame, its parameters cast to their
builtin types. -/
def callUser : Nat → FunctionDef → List Value → Eval (Option Value)
  | 0, _, _ => fault .outOfFuel
  | fuel + 1, f, args => do
    if args.length ≠ f.params.length then
      fault (.arity f.name (toString f.params.length) args.length)
    enter
    pushFrame .function ""
    -- the frame is closed and the call left whether or not the body fails
    let result ← attempt do
      (f.params.zip args).forM fun (p, v) => do
        let endian := p.ty.endian.getD .little
        let var ← match p.ty.asBuiltin? with
          | none | some .auto => pure (⟨v, none, endian⟩ : Variable)
          | some t => do
            let cast ← lift (v.cast t endian)
            pure (⟨cast, some t, endian⟩ : Variable)
        modifyScope (·.define p.name var)
      execBlock fuel f.body
    let _ ← popFrame
    leave
    match ← MonadExcept.ofExcept result with
    | .ret v => return v
    | .normal => return none
    | .brk | .cont => fault .loopControlOutside

/-- Runs statements until one ends otherwise than normally. -/
def execBlock : Nat → List Stmt → Eval Flow
  | 0, _ => fault .outOfFuel
  | _ + 1, [] => return .normal
  | fuel + 1, s :: rest => do
    match ← execStmt fuel s with
    | .normal => execBlock fuel rest
    | flow => return flow

/-- Runs one statement of a function body, counting a step. -/
def execStmt : Nat → Stmt → Eval Flow
  | 0, _ => fault .outOfFuel
  | fuel + 1, s => withLine s.span.line do
    tick
    match s with
    | .var name ty _ _ _ =>
      declareLocal name ty
      return .normal
    | .multi names ty _ =>
      names.forM (declareLocal · ty)
      return .normal
    | .assign name value _ =>
      let v ← evalExpr fuel value
      let scope ← lift ((← get).scope.assign name v)
      modify fun m => { m with scope := scope }
      return .normal
    | .ifElse c t e _ =>
      if ← truth (← evalExpr fuel c) then execBlock fuel t else execBlock fuel e
    | .whileLoop c body post _ => runLoop fuel c body post
    | .compound stmts _ => execBlock fuel stmts
    | .returnWith none _ => return .ret none
    | .returnWith (some e) _ => return .ret (some (← evalExpr fuel e))
    | .breakLoop _ => return .brk
    | .continueLoop _ => return .cont
    | .exprStmt e _ =>
      execExprStmt fuel e
      return .normal
    | .array .. | .pointer .. | .padding .. => fault .declarationInFunction
    | .typeDef .. | .function .. => fault .definitionInFunction

/-- The iterations of a loop, each counting a step; `post` runs after every iteration
that does not break or return. -/
def runLoop : Nat → Expr → List Stmt → Option Stmt → Eval Flow
  | 0, _, _, _ => fault .outOfFuel
  | fuel + 1, c, body, post => do
    tick
    if !(← truth (← evalExpr fuel c)) then return .normal
    match ← execBlock fuel body with
    | .brk => return .normal
    | .ret v => return .ret v
    | .normal | .cont =>
      match post with
      | some p => let _ ← execStmt fuel p
      | none => pure ()
      runLoop fuel c body post

/-- An expression statement: a call whose result is dropped, or any expression. -/
def execExprStmt : Nat → Expr → Eval Unit
  | 0, _ => fault .outOfFuel
  | fuel + 1, e =>
    match e with
    | .call name ns args span => withLine span.line do
      let _ ← callFunction fuel name ns args
    | _ => do
      let _ ← evalExpr fuel e

/-- Builds one member of the compound being built, or one top-level declaration,
counting a step. A fault is reported on the member's line and with its name. -/
def buildMember : Nat → Stmt → Eval Unit
  | 0, _ => fault .outOfFuel
  | fuel + 1, s => withNode s.declName <| withLine s.span.line do
    tick
    match s with
    | .var name ty placement attrs _ => buildVar fuel name ty placement attrs
    | .multi names ty _ => names.forM fun n => buildVar fuel n ty .cursor []
    | .array name ty size placement attrs _ =>
      let node ← place (evalExpr fuel) placement (buildArray fuel name ty size)
      emit node false attrs
    | .pointer name target addrType addrEndian placement attrs _ =>
      let node ← place (evalExpr fuel) placement
        (buildPointer fuel name target addrType addrEndian attrs)
      emit node false attrs
    | .padding size _ =>
      let n ← lift (← evalExpr fuel size).toUnsigned
      if n ≥ 2 ^ 64 then fault (.paddingTooLarge n)
      let start ← cursor
      checkRange start n
      let node ← newNode "padding" "padding" start n .padding
      setCursor (start + n)
      modifyScope (·.pushMember node)
    | .ifElse c t e _ =>
      let body := if ← truth (← evalExpr fuel c) then t else e
      body.forM (buildMember fuel)
    | .exprStmt e _ => execExprStmt fuel e
    | .typeDef .. | .function .. => pure ()
    | _ => fault .functionOnly

/-- A variable declaration: a host variable, or a node of its type where it is placed. -/
def buildVar : Nat → String → TypeDecl → Placement → List Attribute → Eval Unit
  | 0, _, _, _, _ => fault .outOfFuel
  | fuel + 1, name, ty, placement, attrs =>
    match placement with
    | .input => declareHost name ty true
    | .output => declareHost name ty false
    | _ => do
      let built ← place (evalExpr fuel) placement (buildType fuel ty name)
      emit built.node built.inline attrs

/-- Builds a node of a type at the cursor, in the type's byte order if it names one, and
applies the type's attributes. Counts one level of recursion. -/
def buildType : Nat → TypeDecl → String → Eval Built
  | 0, _, _ => fault .outOfFuel
  | fuel + 1, ty, name => do
    enter
    let saved := (← get).endian
    if ty.endian.isSome then modify fun m => { m with endian := ty.endian }
    -- the byte order is put back and the type left whether or not the body fails
    let result ← attempt (buildBody fuel ty name)
    modify fun m => { m with endian := saved }
    leave
    let built ← MonadExcept.ofExcept result
    let (node, inl) ← applyAttributes built.node ty.attrs
    return ⟨node, built.inline || inl⟩

/-- Builds the body of a type; an alias shows its own name. -/
def buildBody : Nat → TypeDecl → String → Eval Built
  | 0, _, _ => fault .outOfFuel
  | fuel + 1, ty, name => do
    let typeName := ty.displayName
    match ty.body with
    | .builtin b => return ⟨← buildBuiltin b name typeName, false⟩
    | .alias inner =>
      let built ← buildType fuel inner name
      return { built with node := { built.node with typeName := typeName } }
    | .forward q =>
      match (← read).program.typeNamed? q with
      | some d => buildType fuel d name
      | none => fault (.unknownType q)
    | .struct bases members => return ⟨← buildStruct fuel bases members name typeName, false⟩
    | .union members => return ⟨← buildUnion fuel members name typeName, false⟩
    | .enum underlying entries => return ⟨← buildEnum fuel underlying entries name typeName, false⟩
    | .bitfield entries => return ⟨← buildBitfield fuel entries name typeName, false⟩

/-- A struct: the children of its bases, then its members, one after the other. -/
def buildStruct : Nat → List TypeDecl → List Stmt → String → String → Eval Node
  | 0, _, _, _, _ => fault .outOfFuel
  | fuel + 1, bases, members, name, typeName => do
    let start ← cursor
    pushFrame .compound typeName
    -- the frame is closed whether or not a base or a member fails
    let result ← attempt do
      bases.forM fun base => do
        let inherited ← buildType fuel base ""
        splice inherited.node
      members.forM (buildMember fuel)
    let frame ← popFrame
    MonadExcept.ofExcept result
    let size := (← cursor) - start
    let node ← newNode name typeName start size .struct
    return { node with children := frame.members.reverse }

/-- A union: every member from the same start; the union is as large as its largest
member. -/
def buildUnion : Nat → List Stmt → String → String → Eval Node
  | 0, _, _, _ => fault .outOfFuel
  | fuel + 1, members, name, typeName => do
    let start ← cursor
    pushFrame .compound typeName
    -- the frame is closed whether or not a member fails
    let result ← attempt (members.foldlM (fun size m => do
      setCursor start
      buildMember fuel m
      return max size ((← cursor) - start)) 0)
    let frame ← popFrame
    let size ← MonadExcept.ofExcept result
    setCursor (start + size)
    let node ← newNode name typeName start size .union
    return { node with children := frame.members.reverse }

/-- An enum: a value of the underlying type, shown by its entry. -/
def buildEnum : Nat → Builtin → List EnumEntry → String → String → Eval Node
  | 0, _, _, _, _ => fault .outOfFuel
  | fuel + 1, underlying, entries, name, typeName => do
    let size ← match underlying.size? with
      | some s => pure s
      | none => fault .enumUnsized
    let table ← enumEntries fuel underlying entries
    let start ← cursor
    checkRange start size
    let node ← newNode name typeName start size (.enum table)
    setCursor (start + size)
    return node

/-- A bitfield: fields of consecutive bit ranges from the low bit, at most 128 bits in
all, over as many bytes as the bits need. -/
def buildBitfield : Nat → List BitfieldEntry → String → String → Eval Node
  | 0, _, _, _ => fault .outOfFuel
  | fuel + 1, entries, name, typeName => do
    let start ← cursor
    let (bits, fields) ← entries.foldlM (fun (off, fields) entry => do
      let w ← lift (← evalExpr fuel entry.width).toUnsigned
      if w ≥ 2 ^ 32 || w > 128 - off then fault .bitfieldTooWide
      if entry.padding then return (off + w, fields)
      let field ← newNode entry.name "bits" start 0 (.bitfieldField off w)
      return (off + w, field :: fields)) (0, [])
    let size := (bits + 7) / 8
    checkRange start size
    let fields := fields.reverse.map fun f => { f with size := size }
    setCursor (start + size)
    let node ← newNode name typeName start size .bitfield
    return { node with children := fields }

/-- An array; arrays of `char` and `char16` are strings. -/
def buildArray : Nat → String → TypeDecl → ArraySize → Eval Node
  | 0, _, _, _ => fault .outOfFuel
  | fuel + 1, name, ty, size => do
    match ty.asBuiltin? with
    | some .char => buildString fuel name ty size 1
    | some .char16 => buildString fuel name ty size 2
    | _ =>
      let start ← cursor
      let elements ← match size with
        | .fixed count => do
          let n ← lift (← evalExpr fuel count).toUnsigned
          checkArrayLength n
          fixedElements fuel ty 0 n []
        | .whileCond c => whileElements fuel ty c 0 []
        | .unsized => unsizedElements fuel ty 0 []
      let size := (← cursor) - start
      let node ← newNode name ty.displayName start size .array
      return { node with children := elements }

/-- Element `i` of an array, counting a step. -/
def buildElement : Nat → TypeDecl → Nat → Eval Node
  | 0, _, _ => fault .outOfFuel
  | fuel + 1, ty, i => do
    tick
    return (← buildType fuel ty ("[" ++ toString i ++ "]")).node

/-- Elements `i` to `n - 1`; `acc` holds the earlier ones, most recent first. -/
def fixedElements : Nat → TypeDecl → Nat → Nat → List Node → Eval (List Node)
  | 0, _, _, _, _ => fault .outOfFuel
  | fuel + 1, ty, i, n, acc => do
    if i < n then
      let e ← buildElement fuel ty i
      fixedElements fuel ty (i + 1) n (e :: acc)
    else return acc.reverse

/-- Elements while the condition holds; `count` elements are in `acc`, most recent first. -/
def whileElements : Nat → TypeDecl → Expr → Nat → List Node → Eval (List Node)
  | 0, _, _, _, _ => fault .outOfFuel
  | fuel + 1, ty, c, count, acc => do
    if ← truth (← evalExpr fuel c) then
      checkArrayLength (count + 1)
      let e ← buildElement fuel ty count
      whileElements fuel ty c (count + 1) (e :: acc)
    else return acc.reverse

/-- Elements up to and including the first all-zero one, or to the end of the data. -/
def unsizedElements : Nat → TypeDecl → Nat → List Node → Eval (List Node)
  | 0, _, _, _ => fault .outOfFuel
  | fuel + 1, ty, count, acc => do
    if (← cursor) < (← read).data.size then
      checkArrayLength (count + 1)
      let e ← buildElement fuel ty count
      let bytes ← readBytes e.offset e.size
      if bytes.all (· == 0) then return (e :: acc).reverse
      else unsizedElements fuel ty (count + 1) (e :: acc)
    else return acc.reverse

/-- A string of `unit`-byte characters; lengths and limits count characters. -/
def buildString : Nat → String → TypeDecl → ArraySize → Nat → Eval Node
  | 0, _, _, _, _ => fault .outOfFuel
  | fuel + 1, name, ty, size, unit => do
    let start ← cursor
    match size with
    | .fixed count =>
      let n ← lift (← evalExpr fuel count).toUnsigned
      checkArrayLength n
      if n ≥ 2 ^ 64 || n * unit ≥ 2 ^ 64 then fault (.stringTooLong n)
      checkRange start (n * unit)
      setCursor (start + n * unit)
    | .whileCond c => whileChars fuel c start unit
    | .unsized => unsizedChars fuel unit
    let size := (← cursor) - start
    let node ← if unit = 1 then newNode name "char" start size .string
      else newNode name "char16" start size .string16
    return if ty.endian.isSome then { node with endian := ty.endian } else node

/-- Characters while the condition holds, each counting a step. -/
def whileChars : Nat → Expr → Nat → Nat → Eval Unit
  | 0, _, _, _ => fault .outOfFuel
  | fuel + 1, c, start, unit => do
    if ← truth (← evalExpr fuel c) then
      tick
      let cur ← cursor
      checkArrayLength ((cur - start) / unit + 1)
      checkRange cur unit
      setCursor (cur + unit)
      whileChars fuel c start unit

/-- Characters up to and including the first zero one, or while whole characters are
left, each counting a step. -/
def unsizedChars : Nat → Nat → Eval Unit
  | 0, _ => fault .outOfFuel
  | fuel + 1, unit => do
    let cur ← cursor
    -- the test adds on the 64-bit cursor before it compares
    if cur + unit ≥ 2 ^ 64 then fault .addOverflow
    else if cur + unit ≤ (← read).data.size then
      tick
      let bytes ← readBytes cur unit
      setCursor (cur + unit)
      if !bytes.all (· == 0) then unsizedChars fuel unit

/-- A pointer: the address at the cursor, plus the result of a `pointer_base` function,
and the target built at that address while the cursor only passes the address. -/
def buildPointer : Nat → String → TypeDecl → Builtin → Option Endian → List Attribute →
    Eval Node
  | 0, _, _, _, _, _ => fault .outOfFuel
  | fuel + 1, name, target, addrType, addrEndian, attrs => do
    let width ← match addrType.size? with
      | some w => pure w
      | none => fault .pointerSizeType
    let start ← cursor
    let endian ← endianFor addrEndian
    let raw := Word.ofBytes endian (← readBytes start width)
    setCursor (start + width)
    let address ← match attrs.find? (·.name == "pointer_base") with
      | none => pure raw
      | some attr => withLine attr.span.line do
        let fname ← match attr.value with
          | some v => pure v
          | none => fault (.attributeMissingValue "pointer_base")
        let f ← roleFunction fname "pointer base"
        match ← callUser fuel f [.uint raw] with
        | some v => return (raw + (← lift v.toUnsigned)) % 2 ^ 128
        | none => fault (.noReturnValue fname)
    if address ≥ 2 ^ 64 then fault (.pointerOutOfRange address)
    let built ← atOffset address (buildType fuel target name)
    let node ← newNode name (target.displayName ++ "*") start width (.pointer built.node)
    return { node with endian := addrEndian.or (← get).endian }

end

end ByteLayout

import ByteLayout.Eval.Scope
import ByteLayout.Eval.Config
import ByteLayout.Layout.Decode
import ByteLayout.Syntax.Tree

/-!
# The evaluation machine

An evaluation reads a fixed context (the program, its functions, the data and the
configuration) and threads a machine state: the cursor, the scope stack, the byte order
inherited from enclosing declarations, the recursion depth, the step and node counters,
the host variables and the console. It also records how many nodes were dropped by
splicing their children into the enclosing frame, which no evaluation reads. A fault ends the evaluation; an error carries the
fault with the line and the declaration it arose in, each recorded once, innermost first.

## Main definitions

* `FunctionDef`, `collectFunctions` — the functions a program defines.
* `Context`, `Machine`, `Eval` — the context, the state and the evaluation monad.
* `Eval.tick`, `Eval.countPattern`, `Eval.enter` — the counters and their limits.
* `Eval.newNode` — a node counted against the node limit, in the inherited byte order.
* `Eval.splice` — a node's children in its place, the node dropped.
-/

namespace ByteLayout

/-- A function: its qualified name, parameters and body. -/
structure FunctionDef where
  name : String
  params : List Param
  body : List Stmt

/-- The functions defined by a list of statements, looking into statement groups. -/
def collectFunctions : List Stmt → List FunctionDef
  | [] => []
  | .function name params body _ :: rest => ⟨name, params, body⟩ :: collectFunctions rest
  | .compound inner _ :: rest => collectFunctions inner ++ collectFunctions rest
  | _ :: rest => collectFunctions rest

/-- What an evaluation reads but never changes. -/
structure Context where
  program : Program
  /-- The program's functions, the last definition of a name first. -/
  functions : List FunctionDef
  data : ByteArray
  config : RunConfig

/-- The context of a run of `program` over `data`. -/
def Context.of (program : Program) (data : ByteArray) (config : RunConfig) : Context :=
  ⟨program, (collectFunctions program.stmts).reverse, data, config⟩

/-- The function with a qualified name. -/
def Context.function? (c : Context) (name : String) : Option FunctionDef :=
  c.functions.find? (·.name == name)

/-- The state an evaluation threads. -/
structure Machine where
  cursor : Nat
  scope : Scope
  /-- The byte order of the innermost enclosing declaration that names one. -/
  endian : Option Endian
  depth : Nat
  steps : Nat
  patterns : Nat
  /-- The nodes made and then dropped because their children were handed to the enclosing
  frame in their place. A record of the run for its accounting: nothing reads it. -/
  spliced : Nat
  /-- Values supplied for `in` variables; the first entry of a name counts. -/
  inputs : List (String × Value)
  /-- Names of the `out` variables, most recent first. -/
  outputs : List String
  /-- Printed lines, most recent first. -/
  console : List String

/-- The state at the start of a run, with the supplied `in` values (later entries of a
name win). -/
def Machine.initial (inputs : List (String × Value)) : Machine :=
  ⟨0, Scope.initial, none, 0, 0, 0, 0, inputs.reverse, [], []⟩

/-- Evaluations: they read a context, thread a machine and may fail. A failure keeps the
machine as it was when the failure was raised, so that a caller can put back what it
changed before it passes the failure on. -/
abbrev Eval := ReaderT Context (EStateM EvalError Machine)

namespace Eval

/-- Fails with a fault. -/
def fault {α : Type} (f : EvalFault) : Eval α := throw (EvalError.ofFault f)

/-- A run of `x` under `c` from `m`, as its value and final machine or its failure; the
machine a failure leaves is dropped. -/
def outcome {α : Type} (x : Eval α) (c : Context) (m : Machine) : Except EvalError (α × Machine) :=
  match (x.run c).run m with
  | .ok a m' => .ok (a, m')
  | .error e _ => .error e

/-- The outcome of `x` as a value: a failure of `x` is caught, with the machine it left. -/
def attempt {α : Type} (x : Eval α) : Eval (Except EvalError α) :=
  tryCatch (Except.ok <$> x) fun e => pure (.error e)

/-- A computation that may fault, as an evaluation. -/
def lift {α : Type} : Except EvalFault α → Eval α
  | .ok a => pure a
  | .error f => fault f

/-- Records `line` on an error that has no line yet. -/
def withLine {α : Type} (line : Nat) (x : Eval α) : Eval α :=
  tryCatch x fun e => throw (e.withLine line)

/-- Records the declaration `name` on an error that has none yet. -/
def withNode {α : Type} (name : String) (x : Eval α) : Eval α :=
  tryCatch x fun e => throw (e.withNode name)

/-- The configuration. -/
def config : Eval RunConfig := return (← read).config

/-- The document's default byte order. -/
def defaultEndian : Eval Endian := return (← read).config.defaultEndian

/-- The byte order for a declaration: its own, else the inherited one, else the
document default. -/
def endianFor (declared : Option Endian) : Eval Endian := do
  return (declared <|> (← get).endian).getD (← defaultEndian)

/-- The cursor. -/
def cursor : Eval Nat := return (← get).cursor

/-- Moves the cursor. -/
def setCursor (c : Nat) : Eval Unit := modify fun m => { m with cursor := c }

/-- Changes the scope stack. -/
def modifyScope (g : Scope → Scope) : Eval Unit := modify fun m => { m with scope := g m.scope }

/-- Hands a node's children to the innermost frame in place of the node, which is dropped. -/
def splice (node : Node) : Eval Unit :=
  modify fun m => { m with scope := m.scope.extendMembers node.children, spliced := m.spliced + 1 }

/-- Opens a frame starting at the cursor. -/
def pushFrame (kind : FrameKind) (typeName : String) : Eval Unit := do
  let c ← cursor
  modifyScope (·.push kind c typeName)

/-- Closes the innermost frame and returns it. -/
def popFrame : Eval Frame := do
  let (f, s) := (← get).scope.pop
  modify fun m => { m with scope := s }
  return f

/-- Counts one step against the step limit. -/
def tick : Eval Unit := do
  modify fun m => { m with steps := m.steps + 1 }
  let max := (← config).maxSteps
  if max > 0 && (← get).steps > max then fault (.stepLimit max)

/-- Counts one node against the node limit. -/
def countPattern : Eval Unit := do
  modify fun m => { m with patterns := m.patterns + 1 }
  let max := (← config).maxPatterns
  if max > 0 && (← get).patterns > max then fault (.patternLimit max)

/-- Enters a type instantiation or a function call. -/
def enter : Eval Unit := do
  let max := (← config).maxRecursionDepth
  if max > 0 && (← get).depth ≥ max then fault (.recursionLimit max)
  modify fun m => { m with depth := m.depth + 1 }

/-- Leaves a type instantiation or a function call. -/
def leave : Eval Unit := modify fun m => { m with depth := m.depth - 1 }

/-- Checks that `size` bytes from `offset` lie inside the data. -/
def checkRange (offset size : Nat) : Eval Unit := do
  let len := (← read).data.size
  if offset + size > len then fault (.outOfBounds offset size len)

/-- The bytes `[offset, offset + size)` of the data. -/
def readBytes (offset size : Nat) : Eval (List Nat) := do
  lift (Data.read (← read).data offset size)

/-- Checks an array or string length against the array limit. -/
def checkArrayLength (count : Nat) : Eval Unit := do
  let max := (← config).maxArrayLength
  if max > 0 && count > max then fault (.arrayLimit max)

/-- A fresh node, counted against the node limit, in the inherited byte order. -/
def newNode (name typeName : String) (offset size : Nat) (kind : NodeKind) : Eval Node := do
  countPattern
  return { Node.fresh name typeName offset size kind with endian := (← get).endian }

/-- A node used as a value: a compound stands for itself, a leaf is read from the data. -/
def nodeValue (n : Node) : Eval Value := do
  if n.isCompound then return .pattern n
  lift (n.readValue (← read).data (← defaultEndian))

end Eval

end ByteLayout

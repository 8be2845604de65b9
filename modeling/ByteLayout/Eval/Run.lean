import ByteLayout.Eval.Interp
import ByteLayout.Syntax.Source

/-!
# Running programs

A run builds a program's top-level declarations over the data, one after the other, and
reports the forest of nodes, the final values of the `out` variables, the printed lines
and how many steps and nodes it took. The shown value of a node is computed afterwards,
by a fresh evaluation with no host variables: it applies the node's `transform` function
to its value and its `format` function to the result.

## Main definitions

* `Evaluation` — what a run reports.
* `runProgram` — a run of a parsed program.
* `transformNode`, `formatNode` — the value and the shown text of a node.
-/

namespace ByteLayout

/-- What a successful run reports. -/
structure Evaluation where
  patterns : List Node
  /-- The `out` variables in declaration order, with their final values. -/
  outVariables : List (String × Value)
  console : List String
  steps : Nat
  patternCount : Nat
  /-- The nodes made and then dropped by splices; not reported. -/
  spliced : Nat

/-- Builds every top-level statement and returns the global frame's nodes. -/
def buildProgram (fuel : Nat) (program : Program) : Eval (List Node) := do
  program.stmts.forM (buildMember fuel)
  return (← get).scope.current.members.reverse

/-- The `out` variables of a final state, in declaration order. -/
def Machine.outVariables (m : Machine) : List (String × Value) :=
  m.outputs.reverse.filterMap fun name =>
    (m.scope.global.findVar name).map fun v => (name, v.value)

/-- A run of `program` over `data` with values for its `in` variables (a later entry of a
name wins). -/
def runProgram (program : Program) (data : ByteArray) (config : RunConfig)
    (inputs : List (String × Value)) : Except EvalError Evaluation := do
  let (patterns, m) ←
    (buildProgram Eval.fuel program).outcome (Context.of program data config)
      (Machine.initial inputs)
  return ⟨patterns, m.outVariables, m.console.reverse, m.steps, m.patterns, m.spliced⟩

/-- Runs an evaluation in a fresh state with no host variables. -/
def Eval.fresh {α : Type} (program : Program) (data : ByteArray) (config : RunConfig)
    (x : Eval α) : Except EvalError α :=
  Prod.fst <$> x.outcome (Context.of program data config) (Machine.initial [])

/-- The value of a node after its `transform` function, if it has one. -/
def transformValue (fuel : Nat) (node : Node) : Eval Value := do
  let v ← Eval.nodeValue node
  match node.transform with
  | none => return v
  | some name =>
    let f ← Eval.roleFunction name "transform"
    match ← callUser fuel f [v] with
    | some r => return r
    | none => Eval.fault (.noReturnValue name)

/-- The shown text of a node: its `format` function applied to its transformed value, the
transformed value, or the default rendering. -/
def formatValue (fuel : Nat) (node : Node) : Eval String := do
  match node.formatter with
  | some name =>
    let v ← transformValue fuel node
    let f ← Eval.roleFunction name "formatter"
    match ← callUser fuel f [v] with
    | some r => return r.display
    | none => Eval.fault (.noReturnValue name)
  | none =>
    if node.transform.isSome then return (← transformValue fuel node).display
    Eval.lift (node.formatted (← read).data (← Eval.defaultEndian))

/-- The transformed value of a node of a run of `program`. -/
def transformNode (program : Program) (data : ByteArray) (config : RunConfig) (node : Node) :
    Except EvalError Value :=
  Eval.fresh program data config (transformValue Eval.fuel node)

/-- The shown text of a node of a run of `program`. -/
def formatNode (program : Program) (data : ByteArray) (config : RunConfig) (node : Node) :
    Except EvalError String :=
  Eval.fresh program data config (formatValue Eval.fuel node)

end ByteLayout

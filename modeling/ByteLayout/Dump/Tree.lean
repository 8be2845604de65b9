import ByteLayout.Dump.Settings
import ByteLayout.Eval.Run

/-!
# Printing the tree

A forest is printed one node per line, depth first, each line indented by two spaces per
level: `name : type @ 0xOFFSET [size]`, then ` = value` unless the node is padding (a
value that cannot be computed is shown as the error in angle brackets), then the node's
comment after `  // `. Hidden nodes are skipped with their subtrees unless the settings
show them. Below `maxDepth` levels nothing is printed; a pointer's only child is its
target; an array prints at most `maxArrayElements` elements and then the number left out.

## Main definitions

* `Tree.lines` — the printed forest.
* `runDump` — a program run over data and printed, with its `out` variables.
-/

namespace ByteLayout

namespace Tree

/-- The first line of a node, without indentation. -/
def header (shown : Node → Except EvalError String) (n : Node) : String :=
  let base := n.display ++ " : " ++ n.typeName ++ " @ 0x" ++ Radix.hexUpper n.offset ++
    " [" ++ toString n.size ++ "]"
  let value := match n.kind with
    | .padding => ""
    | _ =>
      match shown n with
      | .ok v => " = " ++ v
      | .error e => " = <" ++ e.message ++ ">"
  let comment := match n.comment with
    | some c => "  // " ++ c
    | none => ""
  base ++ value ++ comment ++ "\n"

mutual

/-- The lines of a node at a depth. -/
def node (shown : Node → Except EvalError String) (s : OutputSettings) (depth : Nat) :
    Node → String
  | n@⟨_, _, _, _, _, kind, _, _, _, hidden, _, _, children⟩ =>
    if hidden && !s.showHidden then ""
    else
      let indent := String.ofList (List.replicate (2 * depth) ' ')
      let line := indent ++ header shown n
      if s.maxDepth ≠ 0 && depth + 1 ≥ s.maxDepth then line
      else
        match kind with
        | .pointer target => line ++ node shown s (depth + 1) target
        | .array =>
          let limit := if s.maxArrayElements > 0 then s.maxArrayElements else children.length
          let more := if children.length > limit then
              indent ++ "  ... " ++ toString (children.length - limit) ++ " more\n"
            else ""
          line ++ forest shown s (depth + 1) limit children ++ more
        | _ => line ++ forest shown s (depth + 1) children.length children

/-- The lines of the first `limit` nodes of a list at a depth. -/
def forest (shown : Node → Except EvalError String) (s : OutputSettings) (depth : Nat) :
    Nat → List Node → String
  | 0, _ => ""
  | _, [] => ""
  | limit + 1, n :: rest => node shown s depth n ++ forest shown s depth limit rest

end

/-- The printed forest. -/
def lines (shown : Node → Except EvalError String) (s : OutputSettings) (nodes : List Node) :
    String :=
  forest shown s 0 nodes.length nodes

end Tree

/-- Why a dump failed: the source does not read, or the run fails. -/
inductive DumpError where
  | source (e : SourceError)
  | eval (e : EvalError)

/-- Runs a program over data with unsigned `in` values and prints the tree, then one
line `out NAME = VALUE` per `out` variable. -/
def runDump (source : String) (data : ByteArray) (settings : Settings)
    (defines : List (String × Nat)) : Except DumpError String := do
  let program ← (parseSource source).mapError DumpError.source
  let ev ← (runProgram program data settings.limits (defines.map fun (k, v) => (k, .uint v))).mapError
    DumpError.eval
  let tree := Tree.lines (formatNode program data settings.limits) settings.output ev.patterns
  let outs := ev.outVariables.map fun (k, v) => "out " ++ k ++ " = " ++ v.display ++ "\n"
  return tree ++ String.join outs

end ByteLayout

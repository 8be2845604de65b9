import ByteLayout.Eval.Machine

/-!
# Attributes

Attributes change how a node is presented. `color` sets a colour given as `RRGGBB` or
`RRGGBBAA` hexadecimal, stored with red in the low byte; `name` and `comment` set the
shown name and a comment; `hidden` hides the node; `inline` splices a compound's children
into the enclosing scope; `format` and `transform` name one-parameter functions that
render or map the value; `pointer_base` names a one-parameter function whose result is
added to a pointer's address. Attributes with other names are ignored.

## Main definitions

* `Attribute.takesValue?` — the known attributes and whether each needs a value.
* `parseColor` — the packed colour of a hexadecimal text.
* `Eval.roleFunction` — a function named by an attribute, with one parameter.
* `Eval.applyAttributes` — the attributes applied in order to a node.
-/

namespace ByteLayout

/-- For a known attribute, whether it needs a value. -/
def Attribute.takesValue? : String → Option Bool
  | "color" | "name" | "comment" | "format" | "transform" | "pointer_base" => some true
  | "hidden" | "inline" => some false
  | _ => none

/-- The value of a hexadecimal digit. -/
def hexDigitValue? (c : Char) : Option Nat :=
  if c.isDigit then some (c.toNat - 48)
  else if 'a' ≤ c ∧ c ≤ 'f' then some (c.toNat - 87)
  else if 'A' ≤ c ∧ c ≤ 'F' then some (c.toNat - 55)
  else none

/-- The packed colour of `RRGGBB` (opaque) or `RRGGBBAA`: the bytes reversed, so that red
is the low byte and alpha the high byte. -/
def parseColor (text : String) : Except EvalFault Nat :=
  match text.toList.mapM hexDigitValue? with
  | none => .error (.invalidColor text)
  | some ds =>
    let raw := ds.foldl (fun acc d => acc * 16 + d) 0
    if ds.length = 6 then .ok (Word.reverseBytes raw 4 / 256)
    else if ds.length = 8 then .ok (Word.reverseBytes raw 4)
    else .error (.invalidColor text)

namespace Eval

/-- The function an attribute names for a role; it must exist and take one parameter. -/
def roleFunction (name role : String) : Eval FunctionDef := do
  match (← read).function? name with
  | none => fault (.missingRoleFunction role name)
  | some f => if f.params.length = 1 then pure f else fault (.roleArity role name)

/-- Applies one attribute; the flag says whether the node is to be inlined. -/
def applyAttribute (node : Node) (attr : Attribute) : Eval (Node × Bool) := do
  match Attribute.takesValue? attr.name with
  | none => return (node, false)
  | some takesValue =>
    let value ← match attr.value, takesValue with
      | some v, true => pure v
      | none, false => pure ""
      | none, true => fault (.attributeMissingValue attr.name)
      | some _, false => fault (.attributeUnexpectedValue attr.name)
    match attr.name with
    | "color" => return (node.setColor (← lift (parseColor value)), false)
    | "name" => return ({ node with displayName := some value }, false)
    | "comment" => return ({ node with comment := some value }, false)
    | "hidden" => return ({ node with hidden := true }, false)
    | "inline" => if node.isCompound then return (node, true) else fault .inlineNotNested
    | "format" =>
      let _ ← roleFunction value "formatter"
      return ({ node with formatter := some value }, false)
    | "transform" =>
      let _ ← roleFunction value "transform"
      return ({ node with transform := some value }, false)
    | "pointer_base" =>
      match node.kind with
      | .pointer _ =>
        let _ ← roleFunction value "pointer base"
        return (node, false)
      | _ => fault .pointerBaseTarget
    | _ => return (node, false)

/-- Applies attributes in order, each on the line it was written and with the cursor
restored after it; the flag says whether any asked for inlining. -/
def applyAttributes (node : Node) (attrs : List Attribute) : Eval (Node × Bool) := do
  let saved ← cursor
  let step (acc : Node × Bool) (attr : Attribute) : Eval (Node × Bool) := do
    let (node, i) ← withLine attr.span.line (applyAttribute acc.1 attr)
    setCursor saved
    return (node, acc.2 || i)
  attrs.foldlM step (node, false)

end Eval

end ByteLayout

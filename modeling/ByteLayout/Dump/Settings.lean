import ByteLayout.Dump.Toml
import ByteLayout.Eval.Config

/-!
# Dump settings

The settings of the tree dump: the evaluation limits and how much of the tree to print.
A settings file is a TOML document with a `[limits]` table (`max_steps`,
`max_recursion_depth`, `max_array_length`, `max_patterns`, `default_endian`) and an
`[output]` table (`show_hidden`, `max_depth`, `max_array_elements`). Missing entries keep
their defaults and unknown ones are ignored; an entry of the wrong type or out of the
range of its machine type makes the whole file invalid. A table may also be given as an
array of its fields in order. After reading, a recursion depth
of zero or above 4096 and an array length above `2 ^ 24` fall back to their defaults.

## Main definitions

* `OutputSettings`, `Settings` — what the dump uses.
* `Settings.standard` — the defaults.
* `Settings.ofToml?` — the settings of a file, validated.
-/

namespace ByteLayout

/-- How much of the tree is printed. -/
structure OutputSettings where
  showHidden : Bool
  /-- Levels printed; zero prints all. -/
  maxDepth : Nat
  /-- Elements printed per array; zero prints all. -/
  maxArrayElements : Nat
  deriving DecidableEq, Repr

/-- The settings of a dump. -/
structure Settings where
  limits : RunConfig
  output : OutputSettings
  deriving DecidableEq, Repr

namespace Settings

/-- The settings without a file. -/
def standard : Settings := ⟨RunConfig.standard, ⟨false, 0, 32⟩⟩

/-- Replaces out-of-range limits by their defaults. -/
def validate (s : Settings) : Settings :=
  let l := s.limits
  let l := if l.maxRecursionDepth = 0 ∨ l.maxRecursionDepth > 4096 then
      { l with maxRecursionDepth := RunConfig.standard.maxRecursionDepth } else l
  let l := if l.maxArrayLength > 0x1000000 then
      { l with maxArrayLength := RunConfig.standard.maxArrayLength } else l
  { s with limits := l }

/-- The fields of a settings table as they are read from a TOML value: a table gives its
entries by name and an array its items in field order, so `limits = [5]` sets only the
first field; a missing value, or a date-time (read as a map with one private key), gives
none, and every field keeps its default. Other values are refused. -/
inductive Fields where
  | named (entries : List (String × Toml.Value))
  | positional (items : List Toml.Value)

namespace Fields

/-- The fields a value gives. -/
def of? : Option Toml.Value → Option Fields
  | none => some (.named [])
  | some (.table entries _) => some (.named entries)
  | some (.array items) => some (.positional items)
  | some (.tables items) => some (.positional (items.map fun e => .table e .header))
  | some .datetime => some (.named [])
  | some _ => none

/-- The field with a name, at a position of the field order. -/
def get? (f : Fields) (name : String) (position : Nat) : Option Toml.Value :=
  match f with
  | .named entries => entries.lookup name
  | .positional items => items[position]?

end Fields

/-- An unsigned field below `bound`, or `default` when it is missing. -/
def natField? (v : Option Toml.Value) (bound default : Nat) : Option Nat :=
  match v with
  | none => some default
  | some (.int i) => if 0 ≤ i ∧ i < bound then some i.toNat else none
  | some _ => none

/-- A boolean field, or `default` when it is missing. -/
def boolField? (v : Option Toml.Value) (default : Bool) : Option Bool :=
  match v with
  | none => some default
  | some (.bool b) => some b
  | some _ => none

/-- A byte order read as an enumeration: the string `"little"` or `"big"`, or a table,
inline or not, with exactly one entry, which names the variant and holds an empty table
or array. -/
def endianOf? (v : Toml.Value) : Option Endian :=
  let variant (name : String) : Option Endian :=
    if name = "little" then some .little else if name = "big" then some .big else none
  let unit : Toml.Value → Bool
    | .array [] | .tables [] | .table [] _ => true
    | _ => false
  match v with
  | .str s => variant s
  | .table [(name, inner)] _ => (variant name).filter fun _ => unit inner
  | _ => none

/-- A byte-order field, or `default` when it is missing. -/
def endianField? (v : Option Toml.Value) (default : Endian) : Option Endian :=
  match v with
  | none => some default
  | some v => endianOf? v

/-- The settings a TOML document describes, before validation. -/
def ofDocument? (doc : Toml.Value) : Option Settings := do
  let l ← Fields.of? (doc.field? "limits")
  let o ← Fields.of? (doc.field? "output")
  let std := standard
  let limits : RunConfig := {
    maxSteps := ← natField? (l.get? "max_steps" 0) (2 ^ 64) std.limits.maxSteps
    maxRecursionDepth :=
      ← natField? (l.get? "max_recursion_depth" 1) (2 ^ 32) std.limits.maxRecursionDepth
    maxArrayLength := ← natField? (l.get? "max_array_length" 2) (2 ^ 64) std.limits.maxArrayLength
    maxPatterns := ← natField? (l.get? "max_patterns" 3) (2 ^ 64) std.limits.maxPatterns
    defaultEndian := ← endianField? (l.get? "default_endian" 4) std.limits.defaultEndian }
  let output : OutputSettings := {
    showHidden := ← boolField? (o.get? "show_hidden" 0) std.output.showHidden
    maxDepth := ← natField? (o.get? "max_depth" 1) (2 ^ 64) std.output.maxDepth
    maxArrayElements :=
      ← natField? (o.get? "max_array_elements" 2) (2 ^ 64) std.output.maxArrayElements }
  return ⟨limits, output⟩

/-- The validated settings of a settings file, or `none` when it cannot be read. -/
def ofToml? (text : String) : Option Settings :=
  (Toml.parse? text >>= ofDocument?).map validate

end Settings

end ByteLayout

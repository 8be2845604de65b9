import ByteLayout.Syntax.Builtin

/-!
# Run configuration

The budget of one evaluation and the byte order of declarations that name none. Each
limit of zero is switched off.

## Main definitions

* `RunConfig` — the limits and the default byte order.
* `RunConfig.standard` — ten million steps, recursion depth 256, arrays of 65536
  elements, 262144 nodes, little endian.
-/

namespace ByteLayout

/-- The limits of one evaluation and the document's default byte order. -/
structure RunConfig where
  /-- Built members, executed statements, array elements and loop iterations. -/
  maxSteps : Nat
  /-- Nested type instantiations and function calls. -/
  maxRecursionDepth : Nat
  /-- Elements of one array or characters of one string. -/
  maxArrayLength : Nat
  /-- Nodes created. -/
  maxPatterns : Nat
  defaultEndian : Endian
  deriving DecidableEq, Repr

/-- The configuration used when none is given. -/
def RunConfig.standard : RunConfig := ⟨10000000, 256, 65536, 262144, .little⟩

end ByteLayout

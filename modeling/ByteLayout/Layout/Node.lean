import ByteLayout.Syntax.Builtin

/-!
# Pattern nodes

The result of evaluating a pattern program is a forest of nodes. A node names a region
of the data, `size` bytes from `offset`, and says how to read it (`NodeKind`): as an
integer, float, boolean, character or string, as padding, as an enum with its entry
table, as a field of a bitfield, or as a compound whose children are its members,
elements or fields. A pointer node covers the address bytes and carries the node built
at the address it holds.

## Main definitions

* `Node`, `NodeKind` — the node and its kind.
* `Node.display` — the shown name.
* `Node.relocate` — moves a node and its descendants by the same distance.
* `Node.setColor` — colours a node and, for an array, its elements.
-/

namespace ByteLayout

mutual

/-- How a node's bytes are read. -/
inductive NodeKind where
  | unsigned
  | signed
  | float
  | boolean
  | character
  | character16
  /-- One-byte characters up to the first zero. -/
  | string
  /-- UTF-16 units in the node's byte order, up to the first zero unit. -/
  | string16
  | padding
  /-- An integer shown by the name of its entry. -/
  | enum (entries : List (String × Nat))
  /-- `bitSize` bits of the enclosing bitfield, from bit `bitOffset` of its value. -/
  | bitfieldField (bitOffset bitSize : Nat)
  | struct
  | union
  | bitfield
  | array
  /-- The address bytes of a pointer; `pointee` was built at the address. -/
  | pointer (pointee : Node)

/-- A region of the data with its name, type and presentation. -/
structure Node where
  name : String
  /-- Set by the `name` attribute. -/
  displayName : Option String
  typeName : String
  offset : Nat
  size : Nat
  kind : NodeKind
  /-- The byte order the node was declared with; none means the document default. -/
  endian : Option Endian
  /-- A colour as `0xAABBGGRR`. -/
  color : Option Nat
  comment : Option String
  hidden : Bool
  /-- The function that renders the value. -/
  formatter : Option String
  /-- The function that maps the value before it is shown. -/
  transform : Option String
  children : List Node

end

instance : Inhabited Node :=
  ⟨⟨"", none, "", 0, 0, .padding, none, none, none, false, none, none, []⟩⟩

namespace Node

/-- A fresh node with no presentation set and no children. -/
def fresh (name typeName : String) (offset size : Nat) (kind : NodeKind) : Node :=
  ⟨name, none, typeName, offset, size, kind, none, none, none, false, none, none, []⟩

/-- The name shown for a node: the `name` attribute's, else its own. -/
def display (n : Node) : String := n.displayName.getD n.name

/-- Structs, unions, bitfields and arrays. -/
def isCompound (n : Node) : Bool :=
  match n.kind with
  | .struct | .union | .bitfield | .array => true
  | _ => false

/-- Whether the node is an array. -/
def isArray (n : Node) : Bool :=
  match n.kind with
  | .array => true
  | _ => false

/-- The first child with a given name. -/
def child? (n : Node) (name : String) : Option Node := n.children.find? (·.name == name)

/-- Adds `delta` modulo `2 ^ 64` to the offset of the node and of every descendant
reached through children; pointer targets keep their address. -/
def shift (delta : Nat) : Node → Node
  | ⟨nm, dn, tn, off, sz, k, en, co, cm, hi, fo, tr, cs⟩ =>
    ⟨nm, dn, tn, (off + delta) % 2 ^ 64, sz, k, en, co, cm, hi, fo, tr, cs.map (shift delta)⟩

/-- Moves the node to `offset`, translating its descendants by the same distance. -/
def relocate (n : Node) (offset : Nat) : Node :=
  n.shift ((offset + 2 ^ 64 - n.offset % 2 ^ 64) % 2 ^ 64)

/-- Sets the colour; an array passes it on to its elements, recursively. -/
def setColor (c : Nat) : Node → Node
  | ⟨nm, dn, tn, off, sz, k, en, _, cm, hi, fo, tr, cs⟩ =>
    let cs' := match k with
      | .array => cs.map (setColor c)
      | _ => cs
    ⟨nm, dn, tn, off, sz, k, en, some c, cm, hi, fo, tr, cs'⟩

end Node

end ByteLayout

import ByteLayout.Value.Cast

/-!
# Scopes

Evaluation keeps a stack of frames. The global frame holds the top-level nodes and the
host variables; a compound frame collects the members of a struct or union being built;
a function frame holds a call's parameters and locals. A name is looked up from the
innermost frame outward, stopping after the nearest function frame (a function sees
neither its caller's locals nor the members being built around the call), and then in
the global frame. In each frame a variable comes before a member of the same name, and
among members the most recent one wins.

`this` names the innermost compound frame and each `parent` one frame further out; such
a frame is shown as a struct node spanning from its start to the cursor.

## Main definitions

* `Frame`, `Scope` — the frames, innermost first, and the global frame.
* `Scope.lookup` — the first step of a path.
* `Scope.assign` — assignment, converting to the variable's declared type.
* `Scope.resolve` — a whole path to a value or a node.
-/

namespace ByteLayout

/-- What a frame was opened for. -/
inductive FrameKind where
  | global
  | compound
  | function
  deriving DecidableEq, Repr

/-- A variable with its declared type, if any, and the byte order casts to it use. -/
structure Variable where
  value : Value
  ty : Option Builtin
  endian : Endian

/-- One frame of the scope stack. -/
structure Frame where
  kind : FrameKind
  /-- The nodes built in this frame, most recent first. -/
  members : List Node
  vars : List (String × Variable)
  start : Nat
  typeName : String

namespace Frame

/-- An empty frame. -/
def empty (kind : FrameKind) (start : Nat) (typeName : String) : Frame :=
  ⟨kind, [], [], start, typeName⟩

/-- The most recent member with a name. -/
def member? (f : Frame) (name : String) : Option Node := f.members.find? (·.name == name)

/-- The variable with a name. -/
def findVar (f : Frame) (name : String) : Option Variable := f.vars.lookup name

/-- Defines or redefines a variable. -/
def define (f : Frame) (name : String) (v : Variable) : Frame :=
  { f with vars := (name, v) :: f.vars.filter (·.1 != name) }

/-- The frame as a struct node from its start to `cursor`, with its members in order. -/
def toNode (f : Frame) (name : String) (cursor : Nat) : Node :=
  { Node.fresh name f.typeName f.start (cursor - f.start) .struct with
    children := f.members.reverse }

end Frame

/-- The scope stack: the frames above the global frame, innermost first, and the global
frame. -/
structure Scope where
  inner : List Frame
  global : Frame

/-- A step of a path whose index expressions have been evaluated. -/
inductive Seg where
  | name (n : String)
  | parent
  | current
  | index (i : Nat)

/-- Where a path walk stands: a frame named by `this` or `parent`, a node, a variable's
value, or a character of a string. -/
inductive Step where
  | frame (f : Frame) (name : String)
  | node (n : Node)
  | value (v : Value)
  | char (c : Char)

/-- What a path denotes. -/
inductive Resolved where
  | value (v : Value)
  | node (n : Node)

namespace Scope

/-- The scope at the start of a run: the global frame alone. -/
def initial : Scope := ⟨[], Frame.empty .global 0 ""⟩

/-- The innermost frame. -/
def current (s : Scope) : Frame := s.inner.headD s.global

/-- Changes the innermost frame. -/
def modifyCurrent (s : Scope) (g : Frame → Frame) : Scope :=
  match s.inner with
  | [] => { s with global := g s.global }
  | f :: rest => { s with inner := g f :: rest }

/-- Opens a frame. -/
def push (s : Scope) (kind : FrameKind) (start : Nat) (typeName : String) : Scope :=
  { s with inner := Frame.empty kind start typeName :: s.inner }

/-- Closes the innermost frame and returns it; with only the global frame left, the
global frame stays and an empty frame is returned. -/
def pop (s : Scope) : Frame × Scope :=
  match s.inner with
  | [] => (Frame.empty .global 0 "", s)
  | f :: rest => (f, { s with inner := rest })

/-- Adds a node to the innermost frame. -/
def pushMember (s : Scope) (n : Node) : Scope :=
  s.modifyCurrent fun f => { f with members := n :: f.members }

/-- Adds nodes to the innermost frame, in order. -/
def extendMembers (s : Scope) (ns : List Node) : Scope :=
  s.modifyCurrent fun f => { f with members := ns.reverse ++ f.members }

/-- Defines a variable in the innermost frame. -/
def define (s : Scope) (name : String) (v : Variable) : Scope :=
  s.modifyCurrent (·.define name v)

/-- The frames above the global frame that a lookup visits: up to and including the
innermost function frame. -/
def visibleInner : List Frame → List Frame
  | [] => []
  | f :: rest => if f.kind = .function then [f] else f :: visibleInner rest

/-- The frames a lookup visits, innermost first; the global frame is always last. -/
def visible (s : Scope) : List Frame := visibleInner s.inner ++ [s.global]

/-- The visible variable with a name. -/
def findVar (s : Scope) (name : String) : Option Variable :=
  s.visible.findSome? (·.findVar name)

/-- Replaces the variable in the innermost visible frame that defines it. -/
def setVariable (s : Scope) (name : String) (v : Variable) : Scope :=
  match go s.inner with
  | some inner => { s with inner := inner }
  | none => { s with global := s.global.define name v }
where
  /-- The inner frames with the variable replaced, if a visible one defines it. -/
  go : List Frame → Option (List Frame)
    | [] => none
    | f :: rest =>
      if (f.findVar name).isSome then some (f.define name v :: rest)
      else if f.kind = .function then none
      else (go rest).map (f :: ·)

/-- Assigns to a visible variable, cast to its declared type in its byte order. -/
def assign (s : Scope) (name : String) (value : Value) : Except EvalFault Scope := do
  match s.findVar name with
  | none => throw (.undeclaredAssign name)
  | some var =>
    let value ← match var.ty with
      | some t => value.cast t var.endian
      | none => pure value
    return s.setVariable name { var with value := value }

/-- The `levels`-th compound frame counting outward from the innermost. -/
def compound (s : Scope) (levels : Nat) : Except EvalFault Frame :=
  match (s.inner.filter (·.kind = .compound))[levels]? with
  | some f => .ok f
  | none => .error (if levels = 0 then .thisOutside else .noParent)

/-- The first step of a path starting with a name: a variable or member of the
innermost visible frame that has one. -/
def lookup (s : Scope) (name : String) : Except EvalFault Step :=
  match s.visible.findSome? fun f =>
      match f.findVar name with
      | some v => some (Step.value v.value)
      | none => (f.member? name).map .node with
  | some st => .ok st
  | none => .error (.noVariable name)

end Scope

/-- The number of `parent` steps at the start of a path, and the rest of it. -/
def Seg.leadingParents : List Seg → Nat × List Seg
  | .parent :: rest => let (k, r) := leadingParents rest; (k + 1, r)
  | rest => (0, rest)

/-- One step of a walk. A pointer is walked through to its target and a pattern value to
its node; a name selects a member of a frame or the first child of a compound with
that name, an index selects an element of an array or a character of a string. -/
def Step.descend (st : Step) (seg : Seg) : Except EvalFault Step :=
  let st := match st with
    | .node ⟨_, _, _, _, _, .pointer target, _, _, _, _, _, _, _⟩ => Step.node target
    | .value (.pattern n) => .node n
    | other => other
  match st, seg with
  | .frame f _, .name n =>
    match f.member? n with
    | some m => .ok (.node m)
    | none => .error (.noMember n f.typeName)
  | .node nd, .name n =>
    if nd.isCompound then
      match nd.child? n with
      | some c => .ok (.node c)
      | none => .error (.noMember n nd.typeName)
    else .error (.nonCompoundMember n)
  | .node nd, .index i =>
    if nd.isArray then
      match nd.children[i]? with
      | some c => .ok (.node c)
      | none => .error (.arrayIndex i nd.children.length)
    else .error .nonArrayIndex
  | .value (.str s), .index i =>
    match s.toList[i]? with
    | some c => .ok (.char c)
    | none => .error (.stringIndex i s.length)
  | _, .name n => .error (.nonCompoundMember n)
  | _, .index _ => .error .nonArrayIndex
  | _, .parent | _, .current => .error .misplacedParent

namespace Scope

/-- The value or node a path denotes, with the cursor closing the frames it names. -/
def resolve (s : Scope) (segs : List Seg) (cursor : Nat) : Except EvalFault Resolved := do
  let (first, rest) ← match segs with
    | [] => throw .emptyPath
    | .current :: rest => pure (Step.frame (← s.compound 0) "this", rest)
    | .parent :: rest =>
      let (k, rest) := Seg.leadingParents rest
      pure (Step.frame (← s.compound (k + 1)) "parent", rest)
    | .name n :: rest => pure (← s.lookup n, rest)
    | .index _ :: _ => throw .pathStartsWithIndex
  let last ← rest.foldlM Step.descend first
  return match last with
    | .frame f name => .node (f.toNode name cursor)
    | .node n => .node n
    | .value v => .value v
    | .char c => .value (.char c)

end Scope

end ByteLayout

import ByteLayout.Eval.Machine
import ByteLayout.Eval.Template

/-!
# Built-in functions

The functions every program can call by their qualified names:

* `std::print(template, args…)` appends the rendered template to the console;
* `std::format(template, args…)` returns it;
* `std::assert(condition, message)` fails with the message when the condition is false;
* `std::mem::size()` is the data size and `std::mem::eof()` whether the cursor is at or
  past its end;
* `std::mem::read_unsigned(offset, size[, order])` and `read_signed` read `size` bytes
  (1 to 16) at `offset`, in the document default order (selector 0 or absent), big
  endian (1) or little endian (2).

## Main definitions

* `Intrinsic.lookup?` — the built-in function with a name.
-/

namespace ByteLayout

namespace Intrinsic

/-- The arguments a built-in takes: at least `min`, at most `max` when bounded. -/
structure Arity where
  min : Nat
  max : Option Nat

/-- How an arity is shown in the error for a wrong argument count. -/
def Arity.describe (a : Arity) : String :=
  match a.max with
  | none => "at least " ++ toString a.min
  | some m => if m = a.min then toString m else toString a.min ++ " to " ++ toString m

/-- Fails unless `args` has an allowed length. -/
def checkArity (name : String) (a : Arity) (args : List Value) : Eval Unit :=
  if args.length < a.min || (a.max.map fun m => decide (args.length > m)).getD false then
    Eval.fault (.arity name a.describe args.length)
  else pure ()

/-- Renders the first argument as a template over the others. -/
def renderArgs (args : List Value) : Eval String :=
  match args with
  | [] => pure ""
  | t :: rest => Eval.lift (Template.render t.display rest)

/-- `std::print`. -/
def print (args : List Value) : Eval (Option Value) := do
  checkArity "std::print" ⟨1, none⟩ args
  let line ← renderArgs args
  modify fun m => { m with console := line :: m.console }
  return none

/-- `std::format`. -/
def format (args : List Value) : Eval (Option Value) := do
  checkArity "std::format" ⟨1, none⟩ args
  return some (.str (← renderArgs args))

/-- `std::assert`. -/
def check (args : List Value) : Eval (Option Value) := do
  checkArity "std::assert" ⟨2, some 2⟩ args
  match args with
  | [c, msg] => if !(← Eval.lift c.toBool) then Eval.fault (.assertionFailed msg.display)
  | _ => pure ()
  return none

/-- `std::mem::size`. -/
def memSize (args : List Value) : Eval (Option Value) := do
  checkArity "std::mem::size" ⟨0, some 0⟩ args
  return some (.uint (← read).data.size)

/-- `std::mem::eof`. -/
def memEof (args : List Value) : Eval (Option Value) := do
  checkArity "std::mem::eof" ⟨0, some 0⟩ args
  return some (.bool (decide ((← Eval.cursor) ≥ (← read).data.size)))

/-- The word and size read by the `read_*` built-ins. -/
def readRaw (name : String) (args : List Value) : Eval (Nat × Nat) := do
  checkArity name ⟨2, some 3⟩ args
  let offset ← Eval.lift (args.getD 0 (.uint 0)).toUnsigned
  if offset ≥ 2 ^ 64 then Eval.fault (.readOffsetOutOfRange offset)
  let size ← Eval.lift (args.getD 1 (.uint 0)).toUnsigned
  if size < 1 || size > 16 then Eval.fault (.invalidReadSize size)
  let selector ← match args[2]? with
    | none => pure 0
    | some v => Eval.lift v.toUnsigned
  let endian ← match selector with
    | 0 => Eval.defaultEndian
    | 1 => pure Endian.big
    | 2 => pure Endian.little
    | n => Eval.fault (.invalidEndianness n)
  let bytes ← Eval.readBytes offset size
  return (Word.ofBytes endian bytes, size)

/-- `std::mem::read_unsigned`. -/
def readUnsigned (args : List Value) : Eval (Option Value) := do
  let (raw, _) ← readRaw "std::mem::read_unsigned" args
  return some (.uint raw)

/-- `std::mem::read_signed`. -/
def readSigned (args : List Value) : Eval (Option Value) := do
  let (raw, size) ← readRaw "std::mem::read_signed" args
  return some (.sint (Word.signExtend raw (size * 8)))

/-- The built-in functions by name. -/
def table : List (String × (List Value → Eval (Option Value))) :=
  [("std::print", print), ("std::format", format), ("std::assert", check),
    ("std::mem::size", memSize), ("std::mem::eof", memEof),
    ("std::mem::read_unsigned", readUnsigned), ("std::mem::read_signed", readSigned)]

/-- The built-in function with a name. -/
def lookup? (name : String) : Option (List Value → Eval (Option Value)) :=
  table.lookup name

end Intrinsic

end ByteLayout

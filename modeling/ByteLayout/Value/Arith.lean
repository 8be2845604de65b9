import ByteLayout.Value.Basic
import ByteLayout.Syntax.Tree

/-!
# Operators on values

The binary and unary operators. A node operand is refused by every binary operator. The
logical operators work on truthiness. With a string operand only concatenation (of
strings and characters), string equality and repetition by an integral count are
defined. With a double operand the arithmetic and comparisons are those of doubles,
and `%` is the remainder of truncated division. Otherwise both operands are read as
128-bit integers, signed when either of them is signed, and every operation wraps
around modulo `2 ^ 128`: division truncates toward zero, shifts take their amount
modulo 128, and a right shift of a signed value is arithmetic.

## Main definitions

* `Value.binary`, `Value.unary`.
* `Word.intOp` — the integer operations on one reading of the words.
-/

namespace ByteLayout

namespace Word

/-- An integer operation read in the signed or the unsigned domain: the result wraps
into that domain and comparisons give booleans. `none` for the logical operators, which
never reach here. -/
def intOp (signed : Bool) (op : BinOp) (l r : Int) : Option (Except EvalFault (Sum Int Bool)) :=
  let norm (i : Int) : Int := if signed then wrapSigned i else (wrap i : Int)
  let shift : Nat := wrap r % 128
  match op with
  | .add => some (.ok (.inl (norm (l + r))))
  | .sub => some (.ok (.inl (norm (l - r))))
  | .mul => some (.ok (.inl (norm (l * r))))
  | .div => some (if r = 0 then .error .divisionByZero else .ok (.inl (norm (l.tdiv r))))
  | .mod => some (if r = 0 then .error .moduloByZero else .ok (.inl (norm (l.tmod r))))
  | .bitAnd => some (.ok (.inl (norm ((wrap l &&& wrap r : Nat) : Int))))
  | .bitOr => some (.ok (.inl (norm ((wrap l ||| wrap r : Nat) : Int))))
  | .bitXor => some (.ok (.inl (norm ((wrap l ^^^ wrap r : Nat) : Int))))
  | .shl => some (.ok (.inl (norm (l * 2 ^ shift))))
  | .shr => some (.ok (.inl (norm (if signed then l.fdiv (2 ^ shift) else (wrap l / 2 ^ shift : Nat)))))
  | .eq => some (.ok (.inr (l == r)))
  | .ne => some (.ok (.inr (l != r)))
  | .lt => some (.ok (.inr (decide (l < r))))
  | .gt => some (.ok (.inr (decide (l > r))))
  | .le => some (.ok (.inr (decide (l ≤ r))))
  | .ge => some (.ok (.inr (decide (l ≥ r))))
  | .logAnd | .logOr | .logXor => none

end Word

namespace Value

/-- The fault for operands an operator does not accept. -/
def invalidOperands (op : BinOp) (l r : Value) : EvalFault :=
  .invalidOperands l.kindName r.kindName op.symbol

/-- Whether a value is a node. -/
def isPattern : Value → Bool
  | .pattern _ => true
  | _ => false

/-- Whether a value is a string. -/
def isStr : Value → Bool
  | .str _ => true
  | _ => false

/-- Whether a value is a double. -/
def isFloat : Value → Bool
  | .float _ => true
  | _ => false

/-- Whether a value is a signed integer. -/
def isSigned : Value → Bool
  | .sint _ => true
  | _ => false

/-- `count` copies of a string. -/
def repeatString (s : String) (count : Nat) : String :=
  if s.isEmpty then "" else String.join (List.replicate count s)

/-- The operators with a string operand: concatenation of strings and characters,
equality of strings, and repetition by an integral count below `2 ^ 64`. -/
def stringOp (op : BinOp) (l r : Value) : Except EvalFault Value :=
  let repeatBy (s : String) (n : Value) : Except EvalFault Value := do
    let count ← n.toUnsigned
    if count < 2 ^ 64 then return .str (repeatString s count)
    else throw .repetitionTooLarge
  match op, l, r with
  | .add, .str _, .str _ | .add, .str _, .char _ | .add, .char _, .str _ =>
    .ok (.str (l.display ++ r.display))
  | .eq, .str a, .str b => .ok (.bool (a == b))
  | .ne, .str a, .str b => .ok (.bool (a != b))
  | .mul, .str s, n => if n.isIntegral then repeatBy s n else .error (invalidOperands op l r)
  | .mul, n, .str s => if n.isIntegral then repeatBy s n else .error (invalidOperands op l r)
  | _, _, _ => .error (invalidOperands op l r)

/-- The operators with a double operand. -/
def floatOp (op : BinOp) (l r : Value) : Except EvalFault Value := do
  let a ← l.toFloat
  let b ← r.toFloat
  match op with
  | .add => return .float (a.add b)
  | .sub => return .float (a.sub b)
  | .mul => return .float (a.mul b)
  | .div => if b.beq Binary64.zero then throw .divisionByZero else return .float (a.div b)
  | .mod => if b.beq Binary64.zero then throw .moduloByZero else return .float (a.rem b)
  | .eq => return .bool (a.beq b)
  | .ne => return .bool (!a.beq b)
  | .lt => return .bool (a.lt b)
  | .gt => return .bool (b.lt a)
  | .le => return .bool (a.le b)
  | .ge => return .bool (b.le a)
  | _ => throw (invalidOperands op l r)

/-- Applies a binary operator to two values. -/
def binary (op : BinOp) (l r : Value) : Except EvalFault Value := do
  if l.isPattern || r.isPattern then throw (invalidOperands op l r)
  match op with
  | .logAnd => return .bool ((← l.toBool) && (← r.toBool))
  | .logOr => return .bool ((← l.toBool) || (← r.toBool))
  | .logXor => return .bool ((← l.toBool) != (← r.toBool))
  | _ =>
  if l.isStr || r.isStr then stringOp op l r
  else if l.isFloat || r.isFloat then floatOp op l r
  else
    let signed := l.isSigned || r.isSigned
    let a : Int ← if signed then l.toSigned else (l.toUnsigned.map fun n => (n : Int))
    let b : Int ← if signed then r.toSigned else (r.toUnsigned.map fun n => (n : Int))
    match Word.intOp signed op a b with
    | some (.ok (.inl v)) => return if signed then .sint v else .uint v.toNat
    | some (.ok (.inr c)) => return .bool c
    | some (.error f) => throw f
    | none => throw (invalidOperands op l r)

/-- Applies a unary operator: `!` negates truthiness, `+` keeps the value, `-` negates
a double or the signed reading of an integer, `~` complements the bits (and negates a
boolean). -/
def unary (op : UnaryOp) (v : Value) : Except EvalFault Value := do
  let invalid : EvalFault := .invalidOperand v.kindName op.symbol
  match op, v with
  | .not, v => return .bool (!(← v.toBool))
  | _, .str _ => throw invalid
  | _, .pattern _ => throw invalid
  | .plus, v => return v
  | .neg, .float f => return .float f.neg
  | .neg, v => return .sint (Word.wrapSigned (-(← v.toSigned)))
  | .bitNot, .float _ => throw invalid
  | .bitNot, .bool b => return .bool (!b)
  | .bitNot, .sint i => return .sint (-i - 1)
  | .bitNot, v => return .uint (Word.maxUnsigned - (← v.toUnsigned))

end Value

end ByteLayout

import Mathlib
import ByteLayout.Syntax.Parser.Expr

set_option autoImplicit false

/-!
# Printing expressions

An expression printed back as source text. The printer writes the tokens of an expression
and puts an operand in parentheses only where it binds more loosely than its place in the
precedence ladder requires; the text is the spelling of each token followed by a blank.

The ladder has fifteen levels (`Expr.prec`): the ternary, eleven levels of binary operators
from `||` to the multiplicative ones, prefix operators, casts and primaries. A binary
operator's left operand may sit at the operator's own level, since the operators fold to
the left, and its right operand one level tighter; a ternary's condition is tighter than a
ternary while its branches may be anything; a prefix operator takes a prefix operation, a
cast or a primary. A cast writes its operand between its own parentheses.

Spans are positions in the source, and printed text has positions of its own, so
expressions are compared with their spans erased (`Expr.unspan`).

## Main definitions

* `Expr.unspan` — an expression with every span erased.
* `Token.Kind.spelling` — the source text of a token.
* `BinOp.level`, `Expr.prec` — the precedence ladder.
* `Expr.tokens`, `Expr.tokensAt`, `Expr.render` — an expression as tokens and as text.
* `isIdentifier`, `Expr.Printable` — the expressions whose text is read back as
  themselves.
-/

namespace ByteLayout

/-! ### Comparing expressions without their spans -/

mutual

/-- The expression with every span replaced by the default one. -/
def Expr.unspan : Expr → Expr
  | .lit v _ => .lit v default
  | .path segs _ => .path (PathSeg.unspanAll segs) default
  | .cursor _ => .cursor default
  | .unary op e _ => .unary op e.unspan default
  | .binary op l r _ => .binary op l.unspan r.unspan default
  | .ternary c t e _ => .ternary c.unspan t.unspan e.unspan default
  | .cast ty en e _ => .cast ty en e.unspan default
  | .scope ty m _ => .scope ty m default
  | .call n ns args _ => .call n ns (Expr.unspanAll args) default
  | .addressOf segs _ => .addressOf (PathSeg.unspanAll segs) default
  | .sizeOfPath segs _ => .sizeOfPath (PathSeg.unspanAll segs) default
  | .sizeOfType ty _ => .sizeOfType ty default

/-- `Expr.unspan` on each expression of a list. -/
def Expr.unspanAll : List Expr → List Expr
  | [] => []
  | e :: es => e.unspan :: Expr.unspanAll es

/-- A path segment with the spans of its index erased. -/
def PathSeg.unspan : PathSeg → PathSeg
  | .name n => .name n
  | .parent => .parent
  | .current => .current
  | .index e => .index e.unspan

/-- `PathSeg.unspan` on each segment of a list. -/
def PathSeg.unspanAll : List PathSeg → List PathSeg
  | [] => []
  | s :: ss => s.unspan :: PathSeg.unspanAll ss

end

@[simp] theorem Expr.unspanAll_eq (es : List Expr) : Expr.unspanAll es = es.map Expr.unspan := by
  induction es with
  | nil => rfl
  | cons e es ih => simp [Expr.unspanAll, ih]

@[simp] theorem PathSeg.unspanAll_eq (ss : List PathSeg) :
    PathSeg.unspanAll ss = ss.map PathSeg.unspan := by
  induction ss with
  | nil => rfl
  | cons s ss ih => simp [PathSeg.unspanAll, ih]

/-! ### Spelling tokens -/

/-- A character as written between the quotes `q`: the quote and the backslash escaped by a
backslash, every other character as itself. -/
def Token.escapeIn (q c : Char) : List Char :=
  if c = q ∨ c = '\\' then ['\\', c] else [c]

/-- The source text of a token. Integers are written in decimal and strings and characters
between quotes, escaped by `Token.escapeIn`; the end of the source has no text. -/
def Token.Kind.spelling : Token.Kind → String
  | .int v => toString v
  | .float v => v.toDecimalString
  | .str v => "\"" ++ String.ofList (v.toList.flatMap (Token.escapeIn '"')) ++ "\""
  | .char c => "'" ++ String.ofList (Token.escapeIn '\'' c) ++ "'"
  | .bool b => toString b
  | .ident n => n
  | .builtin t => t.name
  | .keyword w => w
  | .symbol s => s
  | .eof => ""

/-- Whether a text is a word: ASCII letters, digits and underscores, not starting with a
digit. -/
def isWord (w : String) : Bool :=
  match w.toList with
  | [] => false
  | c :: cs => (c.isAlpha || c == '_') && cs.all fun d => d.isAlphanum || d == '_'

/-- Whether a name is read back as an identifier: a word that is no keyword, boolean or
builtin type name. -/
def isIdentifier (n : String) : Bool :=
  isWord n && Token.Kind.ofWord n == .ident n

example : isIdentifier "header_size" = true := by decide
example : isIdentifier "parent" = false := by decide
example : isIdentifier "u32" = false := by decide

/-! ### The precedence ladder -/

/-- The level of a binary operator, from `||` at 0 to the multiplicative operators at 10. -/
def BinOp.level : BinOp → Nat
  | .logOr => 0
  | .logXor => 1
  | .logAnd => 2
  | .bitOr => 3
  | .bitXor => 4
  | .bitAnd => 5
  | .eq | .ne => 6
  | .lt | .gt | .le | .ge => 7
  | .shl | .shr => 8
  | .add | .sub => 9
  | .mul | .div | .mod => 10

theorem BinOp.level_lt (op : BinOp) : op.level < 11 := by
  cases op <;> decide

/-- How tightly the outermost construct of an expression binds: 0 for a ternary,
`level + 1` for a binary operator, 12 for a prefix operator, 13 for a cast and 14 for
everything else. -/
def Expr.prec : Expr → Nat
  | .ternary .. => 0
  | .binary op .. => op.level + 1
  | .unary .. => 12
  | .cast .. => 13
  | _ => 14

theorem Expr.prec_le (e : Expr) : e.prec ≤ 14 := by
  cases e with
  | binary op => have := op.level_lt; simp only [Expr.prec]; omega
  | _ => simp [Expr.prec]

/-! ### Printing -/

/-- The tokens, in parentheses when `p` holds. -/
def Token.parensIf (p : Prop) [Decidable p] (ts : List Token.Kind) : List Token.Kind :=
  if p then .symbol "(" :: ts ++ [.symbol ")"] else ts

/-- The token of a literal. -/
def Literal.token : Literal → Token.Kind
  | .int v => .int v
  | .float v => .float v
  | .bool v => .bool v
  | .char v => .char v
  | .str v => .str v

/-- The byte-order keyword of a cast, if it has one. -/
def Endian.tokens : Option Endian → List Token.Kind
  | none => []
  | some .little => [.keyword "le"]
  | some .big => [.keyword "be"]

mutual

/-- The tokens of an expression. An operand is put in parentheses where its `Expr.prec` is
below what its place requires. -/
def Expr.tokens : Expr → List Token.Kind
  | .lit v _ => [v.token]
  | .path segs _ => PathSeg.pathTokens false segs
  | .cursor _ => [.symbol "$"]
  | .unary op e _ => .symbol op.symbol :: Token.parensIf (e.prec < 12) e.tokens
  | .binary op l r _ =>
    Token.parensIf (l.prec < op.level + 1) l.tokens ++
      .symbol op.symbol :: Token.parensIf (r.prec < op.level + 2) r.tokens
  | .ternary c t e _ =>
    Token.parensIf (c.prec < 1) c.tokens ++ .symbol "?" :: t.tokens ++ .symbol ":" :: e.tokens
  | .cast ty en e _ => Endian.tokens en ++ .builtin ty :: .symbol "(" :: e.tokens ++ [.symbol ")"]
  | .scope ty m _ => [.ident ty.name, .symbol "::", .ident m]
  | .call n _ args _ => .ident n :: .symbol "(" :: Expr.argTokens false args ++ [.symbol ")"]
  | .addressOf segs _ =>
    .keyword "addressof" :: .symbol "(" :: PathSeg.pathTokens false segs ++ [.symbol ")"]
  | .sizeOfPath segs _ =>
    .keyword "sizeof" :: .symbol "(" :: PathSeg.pathTokens false segs ++ [.symbol ")"]
  | .sizeOfType ty _ => [.keyword "sizeof", .symbol "(", .builtin ty, .symbol ")"]

/-- The tokens of call arguments, each after a comma when `comma` holds, every one after
the first otherwise. -/
def Expr.argTokens (comma : Bool) : List Expr → List Token.Kind
  | [] => []
  | a :: as => (if comma then [.symbol ","] else []) ++ a.tokens ++ Expr.argTokens true as

/-- The tokens of a member path: a name, `parent` or `this` after a point when `dot` holds
(every one after the first otherwise), an index between brackets. -/
def PathSeg.pathTokens (dot : Bool) : List PathSeg → List Token.Kind
  | [] => []
  | .name n :: rest =>
    (if dot then [.symbol "."] else []) ++ .ident n :: PathSeg.pathTokens true rest
  | .parent :: rest =>
    (if dot then [.symbol "."] else []) ++ .keyword "parent" :: PathSeg.pathTokens true rest
  | .current :: rest =>
    (if dot then [.symbol "."] else []) ++ .keyword "this" :: PathSeg.pathTokens true rest
  | .index e :: rest => .symbol "[" :: e.tokens ++ .symbol "]" :: PathSeg.pathTokens true rest

end

/-- The tokens of an expression at a place that requires level `level`. -/
def Expr.tokensAt (level : Nat) (e : Expr) : List Token.Kind :=
  Token.parensIf (e.prec < level) e.tokens

/-- The source text of an expression: the spelling of each token followed by a blank. -/
def Expr.render (e : Expr) : String :=
  String.join (e.tokens.map fun k => k.spelling ++ " ")

example : (Expr.binary .mul (.binary .add (.lit (.int 1) default) (.lit (.int 2) default) default)
    (.lit (.int 3) default) default).render = "( 1 + 2 ) * 3 " := by decide

/-! ### The printable expressions -/

/-- Whether a segment is a step (a name, `parent` or `this`) rather than an index. -/
def PathSeg.isStep : PathSeg → Bool
  | .index _ => false
  | _ => true

/-- Whether a segment is `this`. -/
def PathSeg.isCurrent : PathSeg → Bool
  | .current => true
  | _ => false

/-- The shape of a member path the grammar reads: a step first, `this` nowhere else, and an
index only right after a step. -/
def PathSeg.WellShaped (segs : List PathSeg) : Prop :=
  (∃ s rest, segs = s :: rest ∧ s.isStep ∧ ∀ t ∈ rest, t.isCurrent = false) ∧
    segs.IsChain fun a b => a.isStep ∨ b.isStep

mutual

/-- The expressions the printer writes as text that is read back as themselves: integer
literals below `2 ^ 128` (no floats), names that are identifiers, member paths of the shape
the grammar reads, calls with no namespace, and no scope resolution. -/
def Expr.Printable : Expr → Prop
  | .lit (.int v) _ => v < 2 ^ 128
  | .lit (.float _) _ => False
  | .lit _ _ => True
  | .path segs _ => PathSeg.WellShaped segs ∧ PathSeg.AllPrintable segs
  | .cursor _ => True
  | .unary _ e _ => e.Printable
  | .binary _ l r _ => l.Printable ∧ r.Printable
  | .ternary c t e _ => c.Printable ∧ t.Printable ∧ e.Printable
  | .cast _ _ e _ => e.Printable
  | .scope .. => False
  | .call n ns args _ => isIdentifier n ∧ ns = "" ∧ Expr.AllPrintable args
  | .addressOf segs _ => PathSeg.WellShaped segs ∧ PathSeg.AllPrintable segs
  | .sizeOfPath segs _ => PathSeg.WellShaped segs ∧ PathSeg.AllPrintable segs
  | .sizeOfType _ _ => True

/-- Every expression of the list is printable. -/
def Expr.AllPrintable : List Expr → Prop
  | [] => True
  | e :: es => e.Printable ∧ Expr.AllPrintable es

/-- Every name of the path is an identifier and every index printable. -/
def PathSeg.AllPrintable : List PathSeg → Prop
  | [] => True
  | .name n :: rest => isIdentifier n ∧ PathSeg.AllPrintable rest
  | .index e :: rest => e.Printable ∧ PathSeg.AllPrintable rest
  | _ :: rest => PathSeg.AllPrintable rest

end

end ByteLayout

import ByteLayout.Syntax.Builtin
import ByteLayout.Number.Shortest

/-!
# Tokens of the pattern language

A token is a kind with its payload and the span of source bytes it was read from. The
keywords and symbols are kept by their spelling; the lexer only ever produces spellings
from `Token.keywords` and `Token.symbols`.

## Main definitions

* `Span` — start and end byte offsets and the line of the start.
* `Token.Kind` — literals, identifiers, builtin type names, keywords, symbols, end.
* `Token.Kind.describe` — how a token is named in parse errors.
-/

namespace ByteLayout

/-- A range of source bytes `[start, stop)` and the 1-based line on which it starts. -/
structure Span where
  start : Nat
  stop : Nat
  line : Nat
  deriving DecidableEq, Repr, Inhabited

/-- The smallest span covering both, reported on the earlier line. -/
def Span.merge (a b : Span) : Span :=
  ⟨min a.start b.start, max a.stop b.stop, min a.line b.line⟩

namespace Token

/-- The reserved words. -/
def keywords : List String :=
  ["struct", "union", "enum", "bitfield", "fn", "namespace", "using", "padding", "if",
    "else", "while", "for", "break", "continue", "return", "in", "out", "le", "be",
    "parent", "this", "sizeof", "addressof"]

/-- The operators and punctuation. -/
def symbols : List String :=
  ["+", "-", "*", "/", "%", "&", "|", "^", "~", "<<", ">>", "&&", "||", "^^", "!", "==",
    "!=", "<", ">", "<=", ">=", "=", "+=", "-=", "*=", "/=", "%=", "&=", "|=", "^=", "<<=",
    ">>=", "$", "@", "::", ".", ",", ";", ":", "?", "(", ")", "[", "]", "\x7b", "\x7d"]

/-- What a token is. -/
inductive Kind where
  | int (v : Nat)
  | float (v : Binary64)
  | str (v : String)
  | char (v : Char)
  | bool (v : Bool)
  | ident (name : String)
  | builtin (t : Builtin)
  /-- A reserved word, by its spelling. -/
  | keyword (w : String)
  /-- An operator or punctuation mark, by its spelling. -/
  | symbol (s : String)
  /-- The end of the source. -/
  | eof
  deriving DecidableEq, Repr, Inhabited

/-- How a token is named in parse errors: literals with their kind and value, everything
else quoted, and the end as "end of program". -/
def Kind.describe : Kind → String
  | .int v => "integer '" ++ toString v ++ "'"
  | .float v => "float '" ++ v.toDecimalString ++ "'"
  | .str v => "string \"" ++ v ++ "\""
  | .char c => "char '" ++ c.toString ++ "'"
  | .bool b => "'" ++ toString b ++ "'"
  | .ident n => "'" ++ n ++ "'"
  | .builtin t => "'" ++ t.name ++ "'"
  | .keyword w => "'" ++ w ++ "'"
  | .symbol s => "'" ++ s ++ "'"
  | .eof => "end of program"

/-- The kind of a word made of letters, digits and underscores: a keyword, a boolean,
a builtin type name or an identifier. -/
def Kind.ofWord (w : String) : Kind :=
  if w = "true" then .bool true
  else if w = "false" then .bool false
  else if keywords.contains w then .keyword w
  else match Builtin.ofName? w with
    | some t => .builtin t
    | none => .ident w

end Token

/-- A token with the span it was read from. -/
structure Token where
  kind : Token.Kind
  span : Span
  deriving Repr, Inhabited

end ByteLayout

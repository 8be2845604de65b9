import ByteLayout.Syntax.Lexer
import ByteLayout.Syntax.Parser.Stmt

/-!
# From source text to program

Reading a source is lexing followed by parsing; the first failure of either stops it.

## Main definitions

* `SourceError` — a lexer or a parser error.
* `parseSource` — the program a source text spells.
-/

namespace ByteLayout

/-- Why a source text is not a program. -/
inductive SourceError where
  | lex (e : LexError)
  | parse (e : ParseError)

/-- The program a source text spells. -/
def parseSource (source : String) : Except SourceError Program :=
  match tokenize source with
  | .error e => .error (.lex e)
  | .ok ts =>
    match parseTokens ts with
    | .error e => .error (.parse e)
    | .ok p => .ok p

end ByteLayout

import ByteLayout.Syntax.Token
import ByteLayout.Number.Decimal

/-!
# Reading source text into tokens

The lexer reads the UTF-8 bytes of a source from left to right. Between tokens it skips
ASCII whitespace, line comments `// …` and block comments `/* … */`, which nest. Each
token is the longest match of its class: numbers (hexadecimal, octal and binary with a
prefix, decimal integers and floats, with `_` and `'` separators), string and character
literals with escapes, words (identifiers, keywords, booleans, builtin type names) and
operators. The first malformed token stops the lexer with an error on the line where
that token starts.

Every scanner takes the byte offset where it starts and returns an offset no smaller,
which is what makes the token loop end.

## Main definitions

* `LexFault`, `LexError` — why and where reading failed.
* `Lexer.tokenize` — the token list of a source, ending with the end token.
-/

namespace ByteLayout

/-- Why a source cannot be read into tokens. -/
inductive LexFault where
  | unterminatedComment
  | unexpectedChar (c : Char)
  /-- A radix prefix such as `0x` with no digit after it. -/
  | missingDigits (radix : String) (marker : String)
  | radixOverflow (radix : String)
  | invalidFloat
  | integerOverflow
  | unterminatedEscape
  | invalidHexEscape
  | unknownEscape (c : Char)
  | unterminatedString
  | unterminatedChar
  | emptyChar
  deriving DecidableEq, Repr

/-- The text of a lexer fault. -/
def LexFault.message : LexFault → String
  | .unterminatedComment => "unterminated block comment"
  | .unexpectedChar c => "unexpected character '" ++ c.toString ++ "'"
  | .missingDigits radix marker => "expected " ++ radix ++ " digits after '" ++ marker ++ "'"
  | .radixOverflow radix => radix ++ " literal overflow"
  | .invalidFloat => "invalid float literal"
  | .integerOverflow => "integer literal overflow"
  | .unterminatedEscape => "unterminated escape sequence"
  | .invalidHexEscape => "invalid hex escape"
  | .unknownEscape c => "unknown escape sequence '\\" ++ c.toString ++ "'"
  | .unterminatedString => "unterminated string literal"
  | .unterminatedChar => "unterminated character literal"
  | .emptyChar => "empty character literal"

/-- A lexer fault with the line of the token or comment where it occurred. -/
structure LexError where
  fault : LexFault
  line : Nat
  deriving Repr

/-- The full text of a lexer error. -/
def LexError.message (e : LexError) : String :=
  "lex error at line " ++ toString e.line ++ ": " ++ e.fault.message

namespace Lexer

/-! ### Byte classes -/

/-- ASCII whitespace: space, tab, line feed, form feed and carriage return. -/
def isBlank (b : UInt8) : Bool := b = 32 || b = 9 || b = 10 || b = 12 || b = 13

/-- An ASCII decimal digit. -/
def isDecDigit (b : UInt8) : Bool := 48 ≤ b && b ≤ 57

/-- An ASCII hexadecimal digit of either case. -/
def isHexDigit (b : UInt8) : Bool :=
  isDecDigit b || (65 ≤ b && b ≤ 70) || (97 ≤ b && b ≤ 102)

/-- An ASCII octal digit. -/
def isOctDigit (b : UInt8) : Bool := 48 ≤ b && b ≤ 55

/-- An ASCII binary digit. -/
def isBinDigit (b : UInt8) : Bool := b = 48 || b = 49

/-- An ASCII letter. -/
def isLetter (b : UInt8) : Bool := (65 ≤ b && b ≤ 90) || (97 ≤ b && b ≤ 122)

/-- A byte that may continue a word. -/
def isWordByte (b : UInt8) : Bool := isLetter b || isDecDigit b || b = 95

/-- The value of a hexadecimal digit (also decimal, octal and binary digits). -/
def digitValue (b : UInt8) : Nat :=
  if isDecDigit b then b.toNat - 48
  else if 65 ≤ b && b ≤ 70 then b.toNat - 55
  else b.toNat - 87

/-- The character with code point `b`: how a single byte reads as Latin-1. -/
def latin1 (b : UInt8) : Char := Char.ofNat b.toNat

/-! ### Scanning -/

variable (src : ByteArray)

/-- The byte at `p`, if any. -/
def byteAt? (p : Nat) : Option UInt8 := src[p]?

/-- Number of line feeds in `[a, b)`. -/
def newlinesBetween (a b : Nat) : Nat :=
  if h : a < b ∧ a < src.size then
    (if src[a] = 10 then 1 else 0) + newlinesBetween (a + 1) b
  else 0
termination_by b - a

/-- The 1-based line of byte offset `p`. -/
def lineAt (p : Nat) : Nat := 1 + newlinesBetween src 0 p

/-- The lexer's incremental line counter: the line feeds before `scanned` are counted, and
`line` is the line there. -/
structure LineCounter where
  scanned : Nat
  line : Nat
deriving Repr, DecidableEq

/-- A counter at the start of the source, on line 1. -/
def LineCounter.start : LineCounter := ⟨0, 1⟩

/-- The line of the byte at `pos` (at the end of the source, past it) and the counter after
the query. Queries in increasing order only count the line feeds since the last one; a query
before the counted part counts again from the start and leaves the counter as it was. -/
def LineCounter.lineAt (lines : LineCounter) (pos : Nat) : Nat × LineCounter :=
  let pos := min pos src.size
  if pos < lines.scanned then (Lexer.lineAt src pos, lines)
  else
    let line := lines.line + newlinesBetween src lines.scanned pos
    (line, ⟨pos, line⟩)

/-- The first offset at or after `p` whose byte fails `keep`, or the end. -/
def scanWhile (keep : UInt8 → Bool) (p : Nat) : { q : Nat // p ≤ q } :=
  if h : p < src.size then
    if keep src[p] then
      let r := scanWhile keep (p + 1)
      ⟨r.1, by have := r.2; omega⟩
    else ⟨p, Nat.le_refl p⟩
  else ⟨p, Nat.le_refl p⟩
termination_by src.size - p

/-- The offset just after the block comment whose body starts at `p`, with `depth`
comments open; `none` when the source ends first. Markers are only seen while two bytes
remain. -/
def blockEnd (p depth : Nat) : Option { q : Nat // p ≤ q } :=
  if depth = 0 then some ⟨p, Nat.le_refl p⟩
  else if h : p + 1 < src.size then
    if src[p] = 47 ∧ src[p + 1] = 42 then
      (blockEnd (p + 2) (depth + 1)).map fun r => ⟨r.1, by have := r.2; omega⟩
    else if src[p] = 42 ∧ src[p + 1] = 47 then
      (blockEnd (p + 2) (depth - 1)).map fun r => ⟨r.1, by have := r.2; omega⟩
    else (blockEnd (p + 1) depth).map fun r => ⟨r.1, by have := r.2; omega⟩
  else none
termination_by src.size - p

/-- Skips whitespace and comments from `p`. An unclosed block comment fails with the
offset where it opens. -/
def skipTrivia (p : Nat) : Except Nat { q : Nat // p ≤ q } :=
  if h : p < src.size then
    if isBlank src[p] then
      match skipTrivia (p + 1) with
      | .ok r => .ok ⟨r.1, by have := r.2; omega⟩
      | .error e => .error e
    else if src[p] = 47 ∧ byteAt? src (p + 1) = some 47 then
      match scanWhile src (· != 10) (p + 2) with
      | ⟨q, hq⟩ =>
        match skipTrivia q with
        | .ok r => .ok ⟨r.1, by have := r.2; omega⟩
        | .error e => .error e
    else if src[p] = 47 ∧ byteAt? src (p + 1) = some 42 then
      match blockEnd src (p + 2) 1 with
      | none => .error p
      | some ⟨q, hq⟩ =>
        match skipTrivia q with
        | .ok r => .ok ⟨r.1, by have := r.2; omega⟩
        | .error e => .error e
    else .ok ⟨p, Nat.le_refl p⟩
  else .ok ⟨p, Nat.le_refl p⟩
termination_by src.size - p

/-- Consumes digits of a class from `p`, with `_` anywhere and `'` before a digit as
separators. -/
def scanDigits (isDigit : UInt8 → Bool) (p : Nat) : { q : Nat // p ≤ q } :=
  if h : p < src.size then
    let b := src[p]
    if isDigit b || b = 95 then
      let r := scanDigits isDigit (p + 1)
      ⟨r.1, by have := r.2; omega⟩
    else if b = 39 ∧ (byteAt? src (p + 1)).any isDigit then
      let r := scanDigits isDigit (p + 1)
      ⟨r.1, by have := r.2; omega⟩
    else ⟨p, Nat.le_refl p⟩
  else ⟨p, Nat.le_refl p⟩
termination_by src.size - p

/-- The bytes of `[a, b)` without the separators `_` and `'`. -/
def cleanDigits (a b : Nat) : List UInt8 :=
  ((src.extract a b).toList).filter fun c => c != 95 && c != 39

/-- The value of a digit string in a radix. -/
def digitsValue (radix : Nat) (ds : List UInt8) : Nat :=
  ds.foldl (fun acc d => acc * radix + digitValue d) 0

/-- Decodes the UTF-8 character starting at `p` and its length in bytes; a byte that
starts no character reads as U+FFFD of length one. -/
def charAt (p : Nat) : Char × { n : Nat // 0 < n } :=
  let b (i : Nat) : Nat := (src[p + i]?.getD 0).toNat
  let b0 := b 0
  let cont (n : Nat) (h : 0 < n) (code : Nat) : Char × { n : Nat // 0 < n } :=
    if code.isValidChar then (Char.ofNat code, ⟨n, h⟩) else ('�', ⟨1, Nat.one_pos⟩)
  if b0 < 0x80 then (Char.ofNat b0, ⟨1, Nat.one_pos⟩)
  else if b0 < 0xE0 then cont 2 (by decide) ((b0 % 32) * 64 + b 1 % 64)
  else if b0 < 0xF0 then cont 3 (by decide) (((b0 % 16) * 64 + b 1 % 64) * 64 + b 2 % 64)
  else cont 4 (by decide) ((((b0 % 8) * 64 + b 1 % 64) * 64 + b 2 % 64) * 64 + b 3 % 64)

/-! ### Tokens -/

/-- An offset strictly after `start`: where a token that begins at `start` ends. -/
structure After (start : Nat) where
  pos : Nat
  lt : start < pos

/-- The offset just after `start`. -/
def After.next (start : Nat) : After start := ⟨start + 1, Nat.lt_succ_self start⟩

/-- Continues a scan from the end of a token piece. -/
def After.andThen {start : Nat} (g : After start) (f : (p : Nat) → { q : Nat // p ≤ q }) :
    After start :=
  ⟨(f g.pos).1, Nat.lt_of_lt_of_le g.lt (f g.pos).2⟩

/-- Moves `n` bytes further. -/
def After.skip {start : Nat} (g : After start) (n : Nat) : After start :=
  ⟨g.pos + n, by have := g.lt; omega⟩

/-- An offset after a later start is also after an earlier one. -/
def After.weaken {start p : Nat} (g : After p) (h : start ≤ p) : After start :=
  ⟨g.pos, by have := g.lt; omega⟩

/-- A token kind read from `start` up to an offset after it, or the fault there. -/
abbrev Scan (start : Nat) := Except LexFault (Token.Kind × After start)

/-- Whether the byte at `p` is one of `cs`. -/
def byteIn (p : Nat) (cs : List Char) : Bool :=
  match byteAt? src p with
  | some b => cs.contains (latin1 b)
  | none => false

/-- A radix literal at `start` (`0` and the radix letter): its digits, an optional
`u`/`U`, and a value below `2 ^ 128`. -/
def radixNumber (start radix : Nat) (isDigit : UInt8 → Bool) (name : String) :
    Scan start :=
  let d := scanDigits src isDigit (start + 2)
  let ds := cleanDigits src (start + 2) d.1
  if ds.isEmpty then
    let marker := String.ofList ((src.extract start (start + 2)).toList.map latin1)
    .error (.missingDigits name marker)
  else
    let q : After start := ⟨d.1, by have := d.2; omega⟩
    let q := if byteIn src q.pos ['U', 'u'] then q.skip 1 else q
    let v := digitsValue radix ds
    if v < 2 ^ 128 then .ok (.int v, q) else .error (.radixOverflow name)

/-- A decimal literal whose first digit is at `start`: digits, an optional fraction (a
point followed by a digit), an optional exponent (`e` or `E` followed by a digit or a
sign), then a float suffix `f F d D` or, for an integer, an optional `u`/`U`. -/
def decimalNumber (start : Nat) : Scan start :=
  let whole := (After.next start).andThen (scanDigits src isDecDigit)
  let hasFraction := byteIn src whole.pos ['.'] &&
    (byteAt? src (whole.pos + 1)).any isDecDigit
  let frac := if hasFraction then (whole.skip 1).andThen (scanDigits src isDecDigit) else whole
  let hasExponent := byteIn src frac.pos ['e', 'E'] &&
    ((byteAt? src (frac.pos + 1)).any isDecDigit || byteIn src (frac.pos + 1) ['+', '-'])
  let expo :=
    if hasExponent then
      let afterMark := frac.skip 1
      let afterSign :=
        if byteIn src afterMark.pos ['+', '-'] then afterMark.skip 1 else afterMark
      afterSign.andThen (scanWhile src isDecDigit)
    else frac
  let textEnd := expo.pos
  let suffixed := byteIn src textEnd ['F', 'f', 'D', 'd']
  let isFloat := hasFraction || hasExponent || suffixed
  let q :=
    if suffixed then expo.skip 1
    else if !isFloat && byteIn src textEnd ['U', 'u'] then expo.skip 1
    else expo
  let text := cleanDigits src start textEnd
  if isFloat then
    match Decimal.ofChars? (text.map latin1) with
    | some d => .ok (.float d.toBinary64, q)
    | none => .error .invalidFloat
  else
    let v := digitsValue 10 text
    if v < 2 ^ 128 then .ok (.int v, q) else .error .integerOverflow

/-- A number starting at `start`, whose first byte is a digit. -/
def number (start : Nat) : Scan start :=
  if byteAt? src start = some 48 then
    if byteIn src (start + 1) ['x', 'X'] then radixNumber src start 16 isHexDigit "hex"
    else if byteIn src (start + 1) ['o', 'O'] then radixNumber src start 8 isOctDigit "octal"
    else if byteIn src (start + 1) ['b', 'B'] && byteIn src (start + 2) ['0', '1'] then
      radixNumber src start 2 isBinDigit "binary"
    else decimalNumber src start
  else decimalNumber src start

/-- The escape whose letter is at `p` (just after the backslash): the character it
stands for and the offset after it. `\x` takes one or two hexadecimal digits and gives
the character with that code. -/
def escape (p : Nat) : Except LexFault (Char × After p) :=
  match byteAt? src p with
  | none => .error .unterminatedEscape
  | some b =>
    let one := After.next p
    match latin1 b with
    | 'n' => .ok ('\n', one)
    | 'r' => .ok ('\r', one)
    | 't' => .ok ('\t', one)
    | '\\' => .ok ('\\', one)
    | '"' => .ok ('"', one)
    | '\'' => .ok ('\'', one)
    | '0' => .ok (Char.ofNat 0, one)
    | 'a' => .ok (Char.ofNat 7, one)
    | 'b' => .ok (Char.ofNat 8, one)
    | 'f' => .ok (Char.ofNat 12, one)
    | 'v' => .ok (Char.ofNat 11, one)
    | 'x' =>
      let hex (i : Nat) : Bool := (byteAt? src (p + i)).any isHexDigit
      let n := if hex 1 then (if hex 2 then 2 else 1) else 0
      if n = 0 then .error .invalidHexEscape
      else
        let v := digitsValue 16 ((src.extract (p + 1) (p + 1 + n)).toList)
        .ok (Char.ofNat v, one.skip n)
    | c => .error (.unknownEscape c)

/-- The body of a string literal from `p` up to and including the closing quote,
appended to `acc`. -/
def stringBody (p : Nat) (acc : String) : Except LexFault (String × After p) :=
  if h : p < src.size then
    let b := src[p]
    if b = 34 then .ok (acc, After.next p)
    else if b = 92 then
      match escape src (p + 1) with
      | .error e => .error e
      | .ok (c, q) =>
        have hq := q.lt
        match stringBody q.pos (acc.push c) with
        | .ok (s, r) => .ok (s, r.weaken (by omega))
        | .error e => .error e
    else
      let (c, n) := charAt src p
      have hn := n.2
      match stringBody (p + n.1) (acc.push c) with
      | .ok (s, r) => .ok (s, r.weaken (by omega))
      | .error e => .error e
  else .error .unterminatedString
termination_by src.size - p

/-- A string literal whose opening quote is at `start`. -/
def stringLiteral (start : Nat) : Scan start :=
  match stringBody src (start + 1) "" with
  | .ok (s, q) => .ok (.str s, q.weaken (by omega))
  | .error e => .error e

/-- A character literal whose opening quote is at `start`: one character or escape and
the closing quote. -/
def charLiteral (start : Nat) : Scan start :=
  let close (c : Char) (q : After start) : Scan start :=
    if byteIn src q.pos ['\''] then .ok (.char c, q.skip 1) else .error .unterminatedChar
  match byteAt? src (start + 1) with
  | none => .error .unterminatedChar
  | some 39 => .error .emptyChar
  | some 92 =>
    match escape src (start + 2) with
    | .ok (c, q) => close c (q.weaken (by omega))
    | .error e => .error e
  | some _ =>
    let (c, n) := charAt src (start + 1)
    close c ⟨start + 1 + n.1, by omega⟩

/-- A word starting at `start`: letters, digits and underscores. -/
def word (start : Nat) : Scan start :=
  let q := (After.next start).andThen (scanWhile src isWordByte)
  let text := String.ofList ((src.extract start q.pos).toList.map latin1)
  .ok (Token.Kind.ofWord text, q)

/-- The operator or punctuation mark at `p`, the longest spelling that matches, with
its length less one. -/
def symbolAt (p : Nat) : Option (String × Nat) :=
  let nextIs (i : Nat) (c : Char) : Bool := byteIn src (p + i) [c]
  let withAssign (plain : String) : String × Nat :=
    if nextIs 1 '=' then (plain ++ "=", 1) else (plain, 0)
  match byteAt? src p with
  | none => none
  | some b =>
    match latin1 b with
    | '+' => some (withAssign "+")
    | '-' => some (withAssign "-")
    | '*' => some (withAssign "*")
    | '/' => some (withAssign "/")
    | '%' => some (withAssign "%")
    | '&' => some (if nextIs 1 '&' then ("&&", 1) else withAssign "&")
    | '|' => some (if nextIs 1 '|' then ("||", 1) else withAssign "|")
    | '^' => some (if nextIs 1 '^' then ("^^", 1) else withAssign "^")
    | '~' => some ("~", 0)
    | '<' =>
      some (if nextIs 1 '<' then (if nextIs 2 '=' then ("<<=", 2) else ("<<", 1))
        else withAssign "<")
    | '>' =>
      some (if nextIs 1 '>' then (if nextIs 2 '=' then (">>=", 2) else (">>", 1))
        else withAssign ">")
    | '=' => some (withAssign "=")
    | '!' => some (withAssign "!")
    | ':' => some (if nextIs 1 ':' then ("::", 1) else (":", 0))
    | c =>
      if ['(', ')', '[', ']', '\x7b', '\x7d', '$', '@', '.', ',', ';', '?'].contains c then
        some (c.toString, 0)
      else none

/-- The token that starts at `start`, a byte of the source that is not trivia. -/
def nextToken (start : Nat) : Scan start :=
  match byteAt? src start with
  | none => .error (.unexpectedChar (charAt src start).1)
  | some b =>
    if isDecDigit b then number src start
    else if b = 34 then stringLiteral src start
    else if b = 39 then charLiteral src start
    else if isLetter b || b = 95 then word src start
    else
      match symbolAt src start with
      | some (s, n) => .ok (.symbol s, ⟨start + n + 1, by omega⟩)
      | none => .error (.unexpectedChar (charAt src start).1)

/-- Reads tokens from `p` on, after those in `acc`, until the end token; `lines` counts the
lines up to the tokens read so far. -/
def tokensFrom (p : Nat) (lines : LineCounter) (acc : Array Token) :
    Except LexError (Array Token) :=
  match skipTrivia src p with
  | .error opening => .error ⟨.unterminatedComment, (lines.lineAt src opening).1⟩
  | .ok q =>
    -- the line of the token's first byte, asked once for the token or for its error
    let (line, lines) := lines.lineAt src q.1
    if q.1 < src.size then
      match nextToken src q.1 with
      | .error f => .error ⟨f, line⟩
      | .ok (kind, r) =>
        have _ := q.2
        have _ := r.lt
        tokensFrom r.pos lines (acc.push ⟨kind, ⟨q.1, r.pos, line⟩⟩)
    else .ok (acc.push ⟨.eof, ⟨q.1, q.1, line⟩⟩)
termination_by src.size - p

end Lexer

/-- The tokens of a source, ending with the end token. -/
def tokenize (source : String) : Except LexError (Array Token) :=
  Lexer.tokensFrom source.toUTF8 0 .start #[]

end ByteLayout

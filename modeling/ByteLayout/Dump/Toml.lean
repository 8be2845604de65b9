import ByteLayout.Number.Power

/-!
# A reader for TOML documents

Settings files are TOML 1.0. This reader accepts the language's documents — comments,
bare, quoted and dotted keys, `[table]` and `[[array of tables]]` headers, basic and
literal strings (also multi-line), integers in the four radixes, floats, booleans,
date-times, arrays and inline tables — and rejects the malformed ones: a missing line
break after an entry, a key defined twice, a table opened twice, an integer outside the
64-bit signed range, a float literal too large for a double, an impossible date, and
arrays, inline tables or dotted keys nested 80 levels deep. Only the structure matters
to its users, so floats and date-times keep no value.

## Main definitions

* `Toml.Value` — a value of a document; tables carry their `Toml.Origin`.
* `Toml.parse?` — the root table of a document, or `none` when it is malformed.

## Design

Whether an entry may still be added to a table depends on how the table came to be,
recorded as its `Origin`:

* a table opened by a `[header]` takes its own entries and dotted keys below it, but no
  second header;
* a table created on the way to a deeper header (`a` in `[a.b]`) may still be opened
  once by a header of its own;
* a table created by a dotted key (`a` in `a.b = 1`) takes further dotted keys of the
  table it was created in, and no header;
* an inline table is closed at its brace.

A value starting with a sign or a digit is read by trying a date-time, a float and an
integer in turn. Each alternative either matches a prefix, does not apply (and the next
one is tried), or is malformed after it has committed — a month after `2024-`, a digit
after an underscore — which rejects the document. `Scan` records these three outcomes.
-/

namespace ByteLayout

namespace Toml

/-- How a table entered a document, which decides what may still add entries to it. -/
inductive Origin where
  /-- The root, a table opened by a `[header]`, or an element of an array of tables. -/
  | header
  /-- Created on the way to a deeper header; a header of its own may still open it. -/
  | implicit
  /-- Created by a dotted key; later dotted keys may add to it, headers may not. -/
  | dotted
  /-- Written as `{ ... }`; nothing outside the braces adds to it. -/
  | inline
  /-- Created by a dotted key inside braces; later keys in the same braces may add to it. -/
  | inlineDotted
  deriving DecidableEq, Repr

/-- Whether a table was written inside braces. -/
def Origin.isInline : Origin → Bool
  | .inline | .inlineDotted => true
  | _ => false

/-- A value of a TOML document. -/
inductive Value where
  | str (s : String)
  | int (i : Int)
  | float
  | bool (b : Bool)
  | datetime
  /-- An array written as `[ ... ]`. -/
  | array (items : List Value)
  /-- An array of tables: the entries of one table per `[[header]]`. -/
  | tables (items : List (List (String × Value)))
  | table (entries : List (String × Value)) (origin : Origin)
  deriving Inhabited

/-- The entry of a table with a key. -/
def Value.field? (v : Value) (key : String) : Option Value :=
  match v with
  | .table entries _ => entries.lookup key
  | _ => none

/-- Replaces the value of a key among the entries of a table. -/
def setEntry (k : String) (v : Value) (entries : List (String × Value)) :
    List (String × Value) :=
  entries.map fun (k', old) => if k' = k then (k', v) else (k', old)

/-- Arrays and inline tables may nest, and dotted keys have parts, below this bound. -/
def nestingLimit : Nat := 80

/-- A reader of a text: the rest of the text, failing with `none`. -/
abbrev Reader := StateT (List Char) Option

/-- The next character, if any. -/
def peek : Reader (Option Char) := return (← get).head?

/-- Consumes the next character. -/
def next : Reader Char := do
  match ← get with
  | c :: rest => set rest; return c
  | [] => failure

/-- Consumes a given character. -/
def expect (c : Char) : Reader Unit := do
  if (← next) ≠ c then failure

/-- Whether a character may appear in a comment: no control character but tab. -/
def commentChar (c : Char) : Bool :=
  c = '\t' || (c.toNat ≥ 0x20 && c.toNat ≠ 0x7F)

/-- Skips spaces and tabs. -/
def skipBlanks : Reader Unit := modify (·.dropWhile fun c => c = ' ' || c = '\t')

/-- Skips a comment running to the end of the line. -/
def skipComment : Reader Unit := do
  if (← peek) = some '#' then
    let rest ← get
    let body := rest.tail.takeWhile (· ≠ '\n')
    let body := if body.getLast? = some '\r' then body.dropLast else body
    if !body.all commentChar then failure
    set (rest.drop (body.length + 1))

/-- Consumes a line break. -/
def newline : Reader Unit := do
  match ← get with
  | '\n' :: rest => set rest
  | '\r' :: '\n' :: rest => set rest
  | _ => failure

/-- The end of an entry: blanks, an optional comment, then a line break or the end. -/
def lineEnd : Reader Unit := do
  skipBlanks
  skipComment
  if (← peek).isSome then newline

/-- Skips blanks, comments and line breaks, as between the items of an array. -/
def skipSpace : Nat → Reader Unit
  | 0 => pure ()
  | fuel + 1 => do
    skipBlanks
    skipComment
    match ← peek with
    | some '\n' | some '\r' => newline; skipSpace fuel
    | _ => pure ()

/-- Whether a character may appear in a bare key. -/
def bareKeyChar (c : Char) : Bool :=
  ('a' ≤ c && c ≤ 'z') || ('A' ≤ c && c ≤ 'Z') || ('0' ≤ c && c ≤ '9') || c = '_' || c = '-'

/-- Whether a character is a decimal digit. -/
def isDec (c : Char) : Bool := '0' ≤ c && c ≤ '9'

/-- The value of a hexadecimal digit. -/
def hexValue? (c : Char) : Option Nat :=
  if '0' ≤ c && c ≤ '9' then some (c.toNat - 48)
  else if 'a' ≤ c && c ≤ 'f' then some (c.toNat - 87)
  else if 'A' ≤ c && c ≤ 'F' then some (c.toNat - 55)
  else none

/-- The character of a `\u` or `\U` escape: the digits must name a Unicode scalar value. -/
def escapeChar? (ds : List Char) : Option Char := do
  let n ← ds.foldlM (fun acc c => (hexValue? c).map (acc * 16 + ·)) 0
  if n.isValidChar then some (Char.ofNat n) else none

/-- Whether only blanks stand before the next line break. -/
def endsLine (cs : List Char) : Bool :=
  match cs.dropWhile fun c => c = ' ' || c = '\t' with
  | '\n' :: _ | '\r' :: '\n' :: _ => true
  | _ => false

/-- Drops blanks and line breaks. A carriage return counts only as the start of a
`\r\n` line break: a lone one is kept, and the string it stands in is then refused. -/
def skipWhite : List Char → List Char
  | [] => []
  | '\r' :: '\n' :: rest => skipWhite rest
  | c :: rest => if c = ' ' || c = '\t' || c = '\n' then skipWhite rest else c :: rest

theorem skipWhite_length_le (cs : List Char) : (skipWhite cs).length ≤ cs.length := by
  fun_induction skipWhite cs <;> simp_all <;> omega

/-- The body of a basic string after its opening quote, up to the closing quote. With
`multi`, line breaks are allowed and a backslash at the end of a line removes the
following blanks and line breaks. -/
def basicBody (multi : Bool) : List Char → List Char → Option (List Char × List Char)
  | [], _ => none
  | '"' :: '"' :: '"' :: '"' :: '"' :: rest, acc =>
    if multi then some ((acc.reverse ++ ['"', '"']), rest)
    else some (acc.reverse, '"' :: '"' :: '"' :: '"' :: rest)
  | '"' :: '"' :: '"' :: '"' :: rest, acc =>
    if multi then some ((acc.reverse ++ ['"']), rest)
    else some (acc.reverse, '"' :: '"' :: '"' :: rest)
  | '"' :: '"' :: '"' :: rest, acc =>
    if multi then some (acc.reverse, rest) else some (acc.reverse, '"' :: '"' :: rest)
  | '"' :: rest, acc =>
    if multi then basicBody multi rest ('"' :: acc) else some (acc.reverse, rest)
  | '\\' :: 'b' :: rest, acc => basicBody multi rest ('\x08' :: acc)
  | '\\' :: 't' :: rest, acc => basicBody multi rest ('\t' :: acc)
  | '\\' :: 'n' :: rest, acc => basicBody multi rest ('\n' :: acc)
  | '\\' :: 'f' :: rest, acc => basicBody multi rest ('\x0c' :: acc)
  | '\\' :: 'r' :: rest, acc => basicBody multi rest ('\r' :: acc)
  | '\\' :: '"' :: rest, acc => basicBody multi rest ('"' :: acc)
  | '\\' :: '\\' :: rest, acc => basicBody multi rest ('\\' :: acc)
  | '\\' :: 'u' :: a :: b :: c :: d :: rest, acc => do
    let ch ← escapeChar? [a, b, c, d]
    basicBody multi rest (ch :: acc)
  | '\\' :: 'U' :: a :: b :: c :: d :: e :: f :: g :: h :: rest, acc => do
    let ch ← escapeChar? [a, b, c, d, e, f, g, h]
    basicBody multi rest (ch :: acc)
  | '\\' :: rest, acc =>
    -- a line-ending backslash: only blanks may stand between it and the line break
    if multi && endsLine rest then basicBody multi (skipWhite rest) acc else none
  | '\r' :: '\n' :: rest, acc => if multi then basicBody multi rest ('\n' :: acc) else none
  | c :: rest, acc =>
    if c = '\n' then (if multi then basicBody multi rest ('\n' :: acc) else none)
    else if commentChar c then basicBody multi rest (c :: acc)
    else none
termination_by cs => cs.length
decreasing_by
  all_goals simp_wf
  all_goals first | omega | (have h := skipWhite_length_le rest; omega)

/-- The body of a literal string after its opening quote, up to the closing quote. -/
def literalBody (multi : Bool) : List Char → List Char → Option (List Char × List Char)
  | [], _ => none
  | '\'' :: '\'' :: '\'' :: '\'' :: '\'' :: rest, acc =>
    if multi then some ((acc.reverse ++ ['\'', '\'']), rest)
    else some (acc.reverse, '\'' :: '\'' :: '\'' :: '\'' :: rest)
  | '\'' :: '\'' :: '\'' :: '\'' :: rest, acc =>
    if multi then some ((acc.reverse ++ ['\'']), rest)
    else some (acc.reverse, '\'' :: '\'' :: '\'' :: rest)
  | '\'' :: '\'' :: '\'' :: rest, acc =>
    if multi then some (acc.reverse, rest) else some (acc.reverse, '\'' :: '\'' :: rest)
  | '\'' :: rest, acc =>
    if multi then literalBody multi rest ('\'' :: acc) else some (acc.reverse, rest)
  | '\r' :: '\n' :: rest, acc => if multi then literalBody multi rest ('\n' :: acc) else none
  | c :: rest, acc =>
    if c = '\n' then (if multi then literalBody multi rest ('\n' :: acc) else none)
    else if commentChar c then literalBody multi rest (c :: acc)
    else none

/-- Drops the line break that may follow the opening quotes of a multi-line string. -/
def trimFirstNewline : List Char → List Char
  | '\n' :: rest => rest
  | '\r' :: '\n' :: rest => rest
  | cs => cs

/-- A string of any of the four kinds, at its opening quote. -/
def string (allowMulti : Bool) : Reader String := do
  let cs ← get
  let (body, rest) ← match cs with
    | '"' :: '"' :: '"' :: rest =>
      if allowMulti then basicBody true (trimFirstNewline rest) [] else failure
    | '"' :: rest => basicBody false rest []
    | '\'' :: '\'' :: '\'' :: rest =>
      if allowMulti then literalBody true (trimFirstNewline rest) [] else failure
    | '\'' :: rest => literalBody false rest []
    | _ => failure
  set rest
  return String.ofList body

/-- One part of a key: bare, or a single-line quoted string. -/
def simpleKey : Reader String := do
  match ← peek with
  | some '"' | some '\'' => string false
  | _ =>
    let cs ← get
    let key := cs.takeWhile bareKeyChar
    if key.isEmpty then failure
    set (cs.drop key.length)
    return String.ofList key

/-- The parts of a dotted key. -/
def keyParts : Nat → Reader (List String)
  | 0 => failure
  | fuel + 1 => do
    skipBlanks
    let first ← simpleKey
    skipBlanks
    if (← peek) = some '.' then
      let _ ← next
      return first :: (← keyParts fuel)
    else return [first]

/-- A dotted key as the tables it passes through and its last part; it has fewer than
`nestingLimit` parts. -/
def key (fuel : Nat) : Reader (List String × String) := do
  let parts ← keyParts fuel
  if parts.length ≥ nestingLimit then failure
  match parts.reverse with
  | last :: revInit => return (revInit.reverse, last)
  | [] => failure

/-! ### Numbers and date-times -/

/-- The outcome of reading one alternative of the grammar at the front of a text. -/
inductive Scan (α : Type) where
  /-- It matched, leaving the rest of the text. -/
  | done (a : α) (rest : List Char)
  /-- It does not apply here; the next alternative is tried. -/
  | miss
  /-- It applies but is malformed; the document is rejected. -/
  | fail

/-- Tries `s`, and `t` when `s` does not apply. -/
def Scan.orElse {α : Type} : Scan α → (Unit → Scan α) → Scan α
  | .miss, t => t ()
  | s, _ => s

/-- A scan that must match once its alternative has been chosen. -/
def Scan.commit {α : Type} : Scan α → Scan α
  | .miss => .fail
  | s => s

/-- Runs a scan at the position; it must match. -/
def scan {α : Type} (s : List Char → Scan α) : Reader α := do
  match s (← get) with
  | .done a rest => set rest; return a
  | _ => failure

/-- The value of decimal digits. -/
def decimalValue (cs : List Char) : Nat :=
  cs.foldl (fun acc c => acc * 10 + (c.toNat - 48)) 0

/-- The value of digits in a radix, dropping underscores. -/
def digitsValue (radix : Nat) (cs : List Char) : Nat :=
  (cs.filter (· ≠ '_')).foldl (fun acc c => acc * radix + ((hexValue? c).getD 0)) 0

/-- Exactly `n` decimal digits at the front of a text, as a number. -/
def fixedDigits (n : Nat) (cs : List Char) : Option (Nat × List Char) :=
  let ds := cs.take n
  if ds.length = n && ds.all isDec then some (decimalValue ds, cs.drop n) else none

/-- The days of a month of a year of the Gregorian calendar. -/
def daysInMonth (year month : Nat) : Nat :=
  if month = 2 then
    if year % 4 = 0 && (year % 100 != 0 || year % 400 = 0) then 29 else 28
  else if month = 4 || month = 6 || month = 9 || month = 11 then 30
  else 31

/-- A date `YYYY-MM-DD`. After the year and its dash, a valid month and day must follow. -/
def fullDate (cs : List Char) : Scan Unit :=
  match fixedDigits 4 cs with
  | some (year, '-' :: r) =>
    match fixedDigits 2 r with
    | some (month, r) =>
      if month < 1 || month > 12 then .fail
      else match r with
        | '-' :: r =>
          match fixedDigits 2 r with
          | some (day, r) => if 1 ≤ day && day ≤ daysInMonth year month then .done () r else .fail
          | none => .fail
        | _ => .fail
    | none => .fail
  | _ => .miss

/-- A time `HH:MM:SS` with an optional fraction of a second. After a valid hour and its
colon, valid minutes and seconds must follow; a leap second `60` is allowed. -/
def partialTime (cs : List Char) : Scan Unit :=
  match fixedDigits 2 cs with
  | some (hour, ':' :: r) =>
    if hour > 23 then .miss
    else match fixedDigits 2 r with
      | some (minute, ':' :: r) =>
        if minute > 59 then .fail
        else match fixedDigits 2 r with
          | some (second, r) =>
            if second > 60 then .fail
            else match r with
              | '.' :: r' =>
                let ds := r'.takeWhile isDec
                if ds.isEmpty then .done () r else .done () (r'.drop ds.length)
              | _ => .done () r
          | none => .fail
      | _ => .fail
  | _ => .miss

/-- A time offset: `Z`, or a sign and hours and minutes. -/
def timeOffset (cs : List Char) : Scan Unit :=
  match cs with
  | 'Z' :: r | 'z' :: r => .done () r
  | '+' :: r | '-' :: r =>
    match fixedDigits 2 r with
    | some (hour, ':' :: r) =>
      if hour > 23 then .fail
      else match fixedDigits 2 r with
        | some (minute, r) => if minute > 59 then .fail else .done () r
        | none => .fail
    | _ => .fail
  | _ => .miss

/-- A date-time, a date or a time. After a date, a time may follow a `T` or a space, and
an offset may follow that time. -/
def dateTime (cs : List Char) : Scan Unit :=
  match fullDate cs with
  | .done () r =>
    match r with
    | d :: r' =>
      if d = 'T' || d = 't' || d = ' ' then
        match partialTime r' with
        | .done () r'' =>
          match timeOffset r'' with
          | .done () r3 => .done () r3
          | .miss => .done () r''
          | .fail => .fail
        | .miss => .done () r
        | .fail => .fail
      else .done () r
    | [] => .done () []
  | .fail => .fail
  | .miss => partialTime cs

/-- The rest of a run of digits after its first one: digits, each underscore standing
between two digits. The run read so far is `acc`, reversed. -/
def digitTail (digit : Char → Bool) : List Char → List Char → Scan (List Char)
  | '_' :: d :: rest, acc => if digit d then digitTail digit rest (d :: '_' :: acc) else .fail
  | ['_'], _ => .fail
  | c :: rest, acc =>
    if digit c then digitTail digit rest (c :: acc) else .done acc.reverse (c :: rest)
  | [], acc => .done acc.reverse []

/-- Digits with single underscores between them, starting with a digit. -/
def digitRun (digit : Char → Bool) : List Char → Scan (List Char)
  | c :: rest => if digit c then digitTail digit rest [c] else .miss
  | [] => .miss

/-- A decimal integer: an optional sign, then `0` alone or digits not starting with `0`. -/
def decInt (cs : List Char) : Scan (List Char) :=
  let (sign, body) : List Char × List Char := match cs with
    | '+' :: r => (['+'], r)
    | '-' :: r => (['-'], r)
    | r => ([], r)
  match body with
  | '0' :: r => .done (sign ++ ['0']) r
  | c :: r =>
    if isDec c then
      match digitTail isDec r [c] with
      | .done ds rest => .done (sign ++ ds) rest
      | .miss => .miss
      | .fail => .fail
    else .miss
  | [] => .miss

/-- An exponent: `e` or `E`, an optional sign, then digits. -/
def exponent : List Char → Scan (List Char)
  | e :: r =>
    if e = 'e' || e = 'E' then
      let (sign, r) : List Char × List Char := match r with
        | '+' :: r' => (['+'], r')
        | '-' :: r' => (['-'], r')
        | r' => ([], r')
      match (digitRun isDec r).commit with
      | .done ds rest => .done (e :: sign ++ ds) rest
      | _ => .fail
    else .miss
  | [] => .miss

/-- A fraction: a point, then digits. -/
def fraction : List Char → Scan (List Char)
  | '.' :: r =>
    match (digitRun isDec r).commit with
    | .done ds rest => .done ('.' :: ds) rest
    | _ => .fail
  | _ => .miss

/-- Whether a float literal (sign, digits, fraction, exponent; no underscores) rounds to
positive infinity as a double: it is positive and at least `2 ^ 1024 - 2 ^ 970`, the
midpoint between the largest double and `2 ^ 1024`. Its value `m * 10 ^ e` lies in
`[10 ^ (d + e - 1), 10 ^ (d + e))` for the `d` digits of `m`, and the bound lies between
`10 ^ 308` and `10 ^ 309`, so only `d + e = 309` needs an exact comparison. -/
def overflowsDouble (cs : List Char) : Bool :=
  let (neg, body) : Bool × List Char := match cs with
    | '-' :: r => (true, r)
    | '+' :: r => (false, r)
    | r => (false, r)
  let intDs := body.takeWhile isDec
  let r := body.drop intDs.length
  let (fracDs, r) : List Char × List Char := match r with
    | '.' :: r' => (r'.takeWhile isDec, r'.dropWhile isDec)
    | r' => ([], r')
  let expo : Int := match r with
    | _ :: '-' :: ds => -(decimalValue ds : Int)
    | _ :: '+' :: ds => decimalValue ds
    | _ :: ds => decimalValue ds
    | [] => 0
  let m := decimalValue (intDs ++ fracDs)
  let e : Int := expo - fracDs.length
  if neg || m = 0 then false
  else
    let magnitude : Int := (Nat.toDigits 10 m).length + e
    if magnitude ≤ 308 then false
    else if magnitude ≥ 310 then true
    else
      let bound := 2 ^ 1024 - 2 ^ 970
      if 0 ≤ e then m * 10 ^ e.toNat ≥ bound else m ≥ bound * 10 ^ (-e).toNat

/-- A float: a decimal integer followed by an exponent, or by a fraction and an optional
exponent; or `inf` or `nan` after an optional sign. A literal too large for a double is
malformed. -/
def float (cs : List Char) : Scan Unit :=
  let finite : Scan Unit :=
    match decInt cs with
    | .done intPart r =>
      let tail : Scan (List Char) := (exponent r).orElse fun _ =>
        match fraction r with
        | .done f r' =>
          match exponent r' with
          | .done e r'' => .done (f ++ e) r''
          | .miss => .done f r'
          | .fail => .fail
        | .miss => .miss
        | .fail => .fail
      match tail with
      | .done t rest =>
        if overflowsDouble ((intPart ++ t).filter (· ≠ '_')) then .fail else .done () rest
      | .miss => .miss
      | .fail => .fail
    | .miss => .miss
    | .fail => .fail
  finite.orElse fun _ =>
    let body := match cs with
      | '+' :: r | '-' :: r => r
      | r => r
    match body with
    | 'i' :: 'n' :: 'f' :: rest | 'n' :: 'a' :: 'n' :: rest => .done () rest
    | _ => .miss

/-- Whether an integer fits in 64 signed bits. -/
def fitsInt64 (i : Int) : Bool := -(2 ^ 63 : Int) ≤ i && i < 2 ^ 63

/-- The digits of an integer after its radix prefix; they must be there and fit. -/
def radixInt (radix : Nat) (digit : Char → Bool) (cs : List Char) : Scan Int :=
  match (digitRun digit cs).commit with
  | .done ds rest =>
    let v : Int := digitsValue radix ds
    if fitsInt64 v then .done v rest else .fail
  | _ => .fail

/-- An integer: `0x`, `0o` or `0b` and digits, or a decimal integer; it must fit in 64
signed bits. -/
def integer (cs : List Char) : Scan Int :=
  match cs with
  | '0' :: 'x' :: r => radixInt 16 (fun c => (hexValue? c).isSome) r
  | '0' :: 'o' :: r => radixInt 8 (fun c => '0' ≤ c && c ≤ '7') r
  | '0' :: 'b' :: r => radixInt 2 (fun c => c = '0' || c = '1') r
  | _ =>
    match decInt cs with
    | .done ds rest =>
      let v : Int := match ds with
        | '-' :: d => -(digitsValue 10 d : Int)
        | '+' :: d => digitsValue 10 d
        | d => digitsValue 10 d
      if fitsInt64 v then .done v rest else .fail
    | .miss => .miss
    | .fail => .fail

/-- A value starting with a sign or a digit: a date-time, a float or an integer, tried in
that order. -/
def numeric (cs : List Char) : Scan Value :=
  match dateTime cs with
  | .done () rest => .done .datetime rest
  | .fail => .fail
  | .miss =>
    match float cs with
    | .done () rest => .done .float rest
    | .fail => .fail
    | .miss =>
      match integer cs with
      | .done i rest => .done (.int i) rest
      | .fail => .fail
      | .miss => .miss

/-- A value spelled by a word: `true`, `false`, `inf` or `nan`. -/
def word : Reader Value := do
  match ← get with
  | 't' :: 'r' :: 'u' :: 'e' :: rest => set rest; return .bool true
  | 'f' :: 'a' :: 'l' :: 's' :: 'e' :: rest => set rest; return .bool false
  | 'i' :: 'n' :: 'f' :: rest | 'n' :: 'a' :: 'n' :: rest => set rest; return .float
  | _ => failure

/-! ### Values and documents -/

/-- Adds `last = v` under the tables `path` of the entries of an inline table. The
tables on the way are those created by earlier dotted keys in the same braces. -/
def insertInline : List String → String → Value → List (String × Value) →
    Option (List (String × Value))
  | [], last, v, entries =>
    if (entries.lookup last).isSome then none else some (entries ++ [(last, v)])
  | k :: ks, last, v, entries =>
    match entries.lookup k with
    | none => do
      let inner ← insertInline ks last v []
      return entries ++ [(k, .table inner .inlineDotted)]
    | some (.table inner .inlineDotted) => do
      let inner ← insertInline ks last v inner
      return setEntry k (.table inner .inlineDotted) entries
    | some _ => none

mutual

/-- A value at the position, inside `depth` arrays and inline tables. -/
def value : Nat → Nat → Reader Value
  | 0, _ => failure
  | fuel + 1, depth => do
    match ← peek with
    | some '"' | some '\'' => return .str (← string true)
    | some '[' =>
      if depth + 1 ≥ nestingLimit then failure
      let _ ← next
      return .array (← arrayItems fuel (depth + 1) [])
    | some '\x7b' =>
      if depth + 1 ≥ nestingLimit then failure
      let _ ← next
      skipBlanks
      if (← peek) = some '\x7d' then
        let _ ← next
        return .table [] .inline
      return .table (← inlineEntries fuel (depth + 1) []) .inline
    | some c => if c = '+' || c = '-' || isDec c then scan numeric else word
    | none => failure

/-- The items of an array after its opening bracket. -/
def arrayItems : Nat → Nat → List Value → Reader (List Value)
  | 0, _, _ => failure
  | fuel + 1, depth, acc => do
    skipSpace fuel
    if (← peek) = some ']' then
      let _ ← next
      return acc.reverse
    let v ← value fuel depth
    skipSpace fuel
    match ← next with
    | ',' => arrayItems fuel depth (v :: acc)
    | ']' => return (v :: acc).reverse
    | _ => failure

/-- The entries of an inline table after its opening brace. -/
def inlineEntries : Nat → Nat → List (String × Value) → Reader (List (String × Value))
  | 0, _, _ => failure
  | fuel + 1, depth, entries => do
    let (path, last) ← key fuel
    expect '='
    skipBlanks
    let v ← value fuel depth
    let some entries := insertInline path last v entries | failure
    skipBlanks
    match ← next with
    | ',' =>
      skipBlanks
      inlineEntries fuel depth entries
    | '\x7d' => return entries
    | _ => failure

end

/-- Applies `g` to the table at the end of `path` below a table with the given entries
and origin. Each step enters a table, or the last table of an array of tables; a missing
table is created, by a dotted key when `dotted` holds and on the way to a header
otherwise. Values and inline tables cannot be entered, and a dotted key cannot enter a
table opened by a header. -/
def within (dotted : Bool) (g : List (String × Value) → Origin → Option (List (String × Value))) :
    List String → List (String × Value) → Origin → Option (List (String × Value))
  | [], entries, origin => g entries origin
  | k :: ks, entries, _ =>
    let fresh : Origin := if dotted then .dotted else .implicit
    match entries.lookup k with
    | none => do
      let inner ← within dotted g ks [] fresh
      return entries ++ [(k, .table inner fresh)]
    | some (.tables items) =>
      match items.getLast? with
      | some lastTable => do
        let inner ← within dotted g ks lastTable .header
        return setEntry k (.tables (items.dropLast ++ [inner])) entries
      | none => none
    | some (.table inner origin) =>
      if origin.isInline || (dotted && origin == .header) then none
      else do
        let inner ← within dotted g ks inner origin
        return setEntry k (.table inner origin) entries
    | some _ => none

/-- Adds `last = v` under the tables `path` of a table of the document. A dotted key
must end in a table created by dotted keys, and a plain key in the table itself. -/
def addEntry (path : List String) (last : String) (v : Value) :
    List (String × Value) → Origin → Option (List (String × Value)) :=
  within true (fun entries origin =>
    if (origin == .dotted) == path.isEmpty then none
    else if (entries.lookup last).isSome then none
    else some (entries ++ [(last, v)])) path

/-- A document being read: the root entries and the path of the table that entries go
to, empty for the root. -/
structure Doc where
  root : List (String × Value)
  current : List String

/-- Opens a `[table]` header at `path ++ [last]`: the table must be new, or created on
the way to an earlier header, in which case it moves to the end of its parent. -/
def Doc.openTable (d : Doc) (path : List String) (last : String) : Option Doc := do
  let root ← within false (fun entries _ =>
    match entries.lookup last with
    | none => some (entries ++ [(last, .table [] .header)])
    | some (.table inner .implicit) =>
      some (entries.filter (·.1 ≠ last) ++ [(last, .table inner .header)])
    | some _ => none) path d.root .header
  return { root := root, current := path ++ [last] }

/-- Opens an `[[array of tables]]` header at `path ++ [last]`: a new table at the end of
the array, which is created if missing. -/
def Doc.openArrayTable (d : Doc) (path : List String) (last : String) : Option Doc := do
  let root ← within false (fun entries _ =>
    match entries.lookup last with
    | none => some (entries ++ [(last, .tables [[]])])
    | some (.tables items) => some (setEntry last (.tables (items ++ [[]])) entries)
    | some _ => none) path d.root .header
  return { root := root, current := path ++ [last] }

/-- The entries of a document. -/
def entries : Nat → Doc → Reader Doc
  | 0, _ => failure
  | fuel + 1, d => do
    skipBlanks
    match ← peek with
    | none => return d
    | some '\n' | some '\r' =>
      newline
      entries fuel d
    | some '#' =>
      lineEnd
      entries fuel d
    | some '[' =>
      let _ ← next
      let isArray := (← peek) = some '['
      if isArray then let _ ← next
      let (path, last) ← key fuel
      expect ']'
      if isArray then expect ']'
      lineEnd
      let opened := if isArray then d.openArrayTable path last else d.openTable path last
      let some d := opened | failure
      entries fuel d
    | some _ =>
      let (path, last) ← key fuel
      expect '='
      skipBlanks
      let v ← value fuel 0
      lineEnd
      let some root := within false (addEntry path last v) d.current d.root .header | failure
      entries fuel { d with root := root }

/-- The root table of a document, or `none` when it is not well-formed TOML. A leading
byte-order mark is skipped. -/
def parse? (text : String) : Option Value :=
  let cs := match text.toList with
    | '\uFEFF' :: rest => rest
    | cs => cs
  match (entries (cs.length + 2) ⟨[], []⟩).run cs with
  | some (d, []) => some (.table d.root .header)
  | _ => none

end Toml

end ByteLayout

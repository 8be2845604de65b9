import ByteLayout.Text.Radix

/-!
# Escaped text

Characters and strings are shown quoted with their non-printable characters escaped: tab,
carriage return, line feed, quotes and the backslash by a backslash sequence, the
printable ASCII range `0x20`–`0x7E` as itself, and every other character by its code
point in lowercase hexadecimal inside `\u{…}`.

## Main definitions

* `Escape.char` — the escape of one character.
* `Escape.string` — the escapes of a string's characters, concatenated.
-/

namespace ByteLayout

namespace Escape

/-- The escape of one character. -/
def char (c : Char) : String :=
  if c = '\t' then "\\t"
  else if c = '\r' then "\\r"
  else if c = '\n' then "\\n"
  else if c = '\'' then "\\'"
  else if c = '"' then "\\\""
  else if c = '\\' then "\\\\"
  else if 0x20 ≤ c.toNat ∧ c.toNat ≤ 0x7E then c.toString
  else "\\u\x7b" ++ String.ofList (Radix.digits 16 false c.toNat) ++ "\x7d"

/-- The escapes of a string's characters, in order. -/
def string (s : String) : String :=
  s.toList.foldl (fun acc c => acc ++ char c) ""

end Escape

end ByteLayout

import ByteLayout.Value.Basic
import ByteLayout.Text.Radix

/-!
# Format templates

A template is text with placeholders. `{{` and `}}` stand for single braces, a
lone closing brace is kept, and every other brace opens a placeholder that runs to the
next closing brace and takes the next argument. An empty placeholder shows the argument's
text. A placeholder `:[#][digits][kind]` pads to a width of `digits` characters; the kind
is empty or `d` for the argument's text, or `x`, `X`, `b`, `o` for its unsigned value in
hexadecimal (lower or upper case), binary or octal, with the prefix `0x`, `0b` or `0o`
when `#` is given. A width that starts with `0` pads with zeros between the prefix and
the digits, otherwise with spaces before the prefix.

## Main definitions

* `Template.Spec` — a parsed placeholder.
* `Template.Spec.parse?` — the placeholder grammar.
* `Template.render` — the template filled with arguments.
-/

namespace ByteLayout

namespace Template

/-- The largest width a placeholder may ask for: widths are machine words. -/
def maxWidth : Nat := 2 ^ 64 - 1

/-- How a placeholder shows its argument. -/
inductive Kind where
  /-- The argument's text. -/
  | text
  /-- The unsigned value in a radix, with the prefix shown by `#`. -/
  | radix (base : Nat) (upper : Bool) (prefix_ : String)
  deriving DecidableEq, Repr

/-- A parsed placeholder. -/
structure Spec where
  alternate : Bool
  zeroPad : Bool
  width : Nat
  kind : Kind
  deriving Repr

/-- The kind named by the end of a placeholder. -/
def Kind.ofString? : String → Option Kind
  | "" | "d" => some .text
  | "x" => some (.radix 16 false "0x")
  | "X" => some (.radix 16 true "0x")
  | "b" => some (.radix 2 false "0b")
  | "o" => some (.radix 8 false "0o")
  | _ => none

/-- The value of a list of decimal digit characters. -/
def digitsValue (ds : List Char) : Nat :=
  ds.foldl (fun acc c => acc * 10 + (c.toNat - 48)) 0

/-- Parses the text after the colon of a placeholder. -/
def Spec.parse? (body : List Char) : Option Spec :=
  let (alternate, rest) :=
    match body with
    | '#' :: r => (true, r)
    | r => (false, r)
  let zeroPad := rest.head? == some '0'
  let ds := rest.takeWhile Char.isDigit
  let width := digitsValue ds
  if width > maxWidth then none
  else (Kind.ofString? (String.ofList (rest.drop ds.length))).map
    fun kind => ⟨alternate, zeroPad, width, kind⟩

/-- The argument shown by one placeholder; `spec` is the text between the braces. -/
def placeholder (spec : String) (arg : Value) : Except EvalFault String :=
  match spec.toList with
  | [] => .ok arg.display
  | ':' :: body =>
    match Spec.parse? body with
    | none => .error (.invalidFormatSpec spec)
    | some s => do
      let (text, pre) ← match s.kind with
        | .text => pure (arg.display, "")
        | .radix base upper pre => do
          let n ← arg.toUnsigned
          pure (String.ofList (Radix.digits base upper n), pre)
      let pre := if s.alternate then pre else ""
      let pad := s.width - (pre.length + text.length)
      if s.zeroPad then return pre ++ String.ofList (List.replicate pad '0') ++ text
      else return String.ofList (List.replicate pad ' ') ++ pre ++ text
  | _ => .error (.invalidFormatSpec spec)

/-- Renders the characters of a template onto `out`. The second argument holds the
characters of an open placeholder, most recent first. -/
def renderChars : List Char → Option (List Char) → List Value → String →
    Except EvalFault String
  | [], none, _, out => .ok out
  | [], some _, _, _ => .error .unterminatedPlaceholder
  | c :: rest, some spec, args, out =>
    if c = '\x7d' then
      match args with
      | [] => .error .missingFormatArgument
      | a :: args => do
        let piece ← placeholder (String.ofList spec.reverse) a
        renderChars rest none args (out ++ piece)
    else renderChars rest (some (c :: spec)) args out
  | '\x7b' :: '\x7b' :: rest, none, args, out => renderChars rest none args (out.push '\x7b')
  | '\x7d' :: '\x7d' :: rest, none, args, out => renderChars rest none args (out.push '\x7d')
  | '\x7b' :: rest, none, args, out => renderChars rest (some []) args out
  | c :: rest, none, args, out => renderChars rest none args (out.push c)

/-- The template with its placeholders replaced by the arguments, left to right. Extra
arguments are ignored. -/
def render (template : String) (args : List Value) : Except EvalFault String :=
  renderChars template.toList none args ""

end Template

end ByteLayout

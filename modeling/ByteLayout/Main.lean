import ByteLayout.Dump.Tree

/-!
# The command line

`bytelayout PATTERN DATA [--config FILE] [--endian little|big] [--max-steps N]
[--show-hidden] [-D NAME=VALUE]…` runs the pattern program in `PATTERN` over the bytes of
`DATA` and prints the tree of nodes, then the final values of the `out` variables. The
settings come from `--config`, else from `bytelayout/config.toml` in the user's
configuration directory when it exists and reads, else from the defaults; the options
then override the byte order and the step limit, and `--show-hidden` prints hidden nodes.
Each `-D NAME=VALUE` supplies an `in` variable, in decimal or `0x` hexadecimal.

## Main definitions

* `Cli` — the parsed command line.
* `Cli.parse` — the arguments read into a command line.
* `main` — the program.
-/

namespace ByteLayout

/-- The parsed command line. -/
structure Cli where
  pattern : String
  data : String
  config : Option String
  endian : Option Endian
  maxSteps : Option Nat
  showHidden : Bool
  defines : List (String × Nat)

/-- The value of a `-D` definition: decimal, or hexadecimal after `0x`, below `2 ^ 128`. -/
def Cli.defineValue? (text : String) : Option Nat :=
  let t := text.trimAscii.toString
  let digits (radix : Nat) (s : String) : Option Nat :=
    if s.isEmpty then none
    else s.toList.foldlM (fun acc c => do
      let d ← Toml.hexValue? c
      if d < radix then some (acc * radix + d) else none) 0
  let v := if t.startsWith "0x" || t.startsWith "0X" then digits 16 (t.drop 2).toString
    else digits 10 t
  v.bind fun n => if n < 2 ^ 128 then some n else none

/-- A `-D NAME=VALUE` definition. -/
def Cli.define? (arg : String) : Except String (String × Nat) :=
  match arg.splitOn "=" with
  | [] | [_] => .error ("expected NAME=VALUE, got '" ++ arg ++ "'")
  | name :: rest =>
    let value := "=".intercalate rest
    match Cli.defineValue? value with
    | some n => .ok (name.trimAscii.toString, n)
    | none => .error ("invalid value '" ++ value.trimAscii.toString ++ "'")

/-- Reads the arguments after the positional ones and options seen so far. -/
def Cli.parseFrom (cli : Cli) (positional : List String) : List String → Except String Cli
  | [] =>
    match positional.reverse with
    | [pattern, data] => .ok { cli with pattern := pattern, data := data }
    | _ => .error "expected the pattern file and the data file"
  | "--config" :: path :: rest => Cli.parseFrom { cli with config := some path } positional rest
  | "--endian" :: "little" :: rest =>
    Cli.parseFrom { cli with endian := some .little } positional rest
  | "--endian" :: "big" :: rest => Cli.parseFrom { cli with endian := some .big } positional rest
  | "--max-steps" :: n :: rest =>
    match n.toNat? with
    | some v => Cli.parseFrom { cli with maxSteps := some v } positional rest
    | none => .error ("invalid value '" ++ n ++ "' for '--max-steps'")
  | "--show-hidden" :: rest => Cli.parseFrom { cli with showHidden := true } positional rest
  | "-D" :: d :: rest | "--define" :: d :: rest => do
    let def_ ← Cli.define? d
    Cli.parseFrom { cli with defines := cli.defines ++ [def_] } positional rest
  | arg :: rest =>
    if arg.startsWith "-" then .error ("unexpected argument '" ++ arg ++ "'")
    else Cli.parseFrom cli (arg :: positional) rest

/-- The command line of a list of arguments. -/
def Cli.parse (args : List String) : Except String Cli :=
  Cli.parseFrom ⟨"", "", none, none, none, false, []⟩ [] args

/-- The settings file in the user's configuration directory, if there is one. -/
def userConfigPath : IO (Option String) := do
  match ← IO.getEnv "XDG_CONFIG_HOME" with
  | some dir => if dir.isEmpty then home else return some (dir ++ "/bytelayout/config.toml")
  | none => home
where
  /-- The configuration directory under the home directory. -/
  home : IO (Option String) := do
    return (← IO.getEnv "HOME").map (· ++ "/.config/bytelayout/config.toml")

/-- The settings named by the command line, with its overrides applied. -/
def Cli.settings (cli : Cli) : IO (Except String Settings) := do
  let loaded : Except String Settings ← match cli.config with
    | some path =>
      match ← (IO.FS.readFile path).toBaseIO with
      | .ok text =>
        pure (match Settings.ofToml? text with
          | some s => .ok s
          | none => .error ("failed to parse config file " ++ path))
      | .error _ => pure (.error ("failed to read config file " ++ path))
    | none =>
      match ← userConfigPath with
      | none => pure (.ok Settings.standard)
      | some path =>
        match ← (IO.FS.readFile path).toBaseIO with
        | .ok text => pure (.ok ((Settings.ofToml? text).getD Settings.standard))
        | .error _ => pure (.ok Settings.standard)
  return loaded.map fun s =>
    let limits := match cli.endian with
      | some e => { s.limits with defaultEndian := e }
      | none => s.limits
    let limits := match cli.maxSteps with
      | some n => { limits with maxSteps := n }
      | none => limits
    { limits := limits, output := { s.output with showHidden := s.output.showHidden || cli.showHidden } }

/-- Runs the command line; the exit code is 1 on any error. -/
def runCli (args : List String) : IO UInt32 := do
  let stderr ← IO.getStderr
  match Cli.parse args with
  | .error msg =>
    stderr.putStrLn ("error: " ++ msg)
    return 2
  | .ok cli =>
    match ← cli.settings with
    | .error msg =>
      stderr.putStrLn ("Error: " ++ msg)
      return 1
    | .ok settings =>
      let .ok source ← (IO.FS.readFile cli.pattern).toBaseIO | do
        stderr.putStrLn ("Error: failed to read pattern " ++ cli.pattern)
        return 1
      let .ok data ← (IO.FS.readBinFile cli.data).toBaseIO | do
        stderr.putStrLn ("Error: failed to open " ++ cli.data)
        return 1
      match runDump source data settings cli.defines with
      | .ok text =>
        let stdout ← IO.getStdout
        stdout.putStr text
        stdout.flush
        return 0
      | .error (.source (.lex e)) =>
        stderr.putStrLn ("Error: in " ++ cli.pattern ++ ": " ++ e.message)
        return 1
      | .error (.source (.parse e)) =>
        stderr.putStrLn ("Error: in " ++ cli.pattern ++ ": " ++ e.message)
        return 1
      | .error (.eval e) =>
        stderr.putStrLn ("Error: evaluating " ++ cli.pattern ++ ": " ++ e.message)
        return 1

end ByteLayout

/-- The program: runs the command line. -/
def main (args : List String) : IO UInt32 := ByteLayout.runCli args

import QasmStudio.Number.Reader
import QasmStudio.Number.Word
import QasmStudio.Text.Split

/-!
# Command line flags

A flag has one or two dashes and a value after an equals sign or in the next argument. Flags end at
the first argument that is none.
-/

namespace QasmStudio.Cli

structure Flags where
  config : String := ""
  program : String := ""
  print : Bool := false
  output : String := ""
  verbosity : Option Int := none
  deriving DecidableEq, Repr, Inhabited

def usage : String :=
  "Usage: autoqasm [options]\n\n" ++
  "Builds the bundled AutoQASM programs and previews their OpenQASM 3.\n\n" ++
  "Options:\n" ++
  "  -config string\n    \tConfiguration file (default: nearest autoqasm.toml)\n" ++
  "  -o string\n    \tOutput file for -print (default: [output] path, or stdout)\n" ++
  "  -print\n    \tBuild the programs and print them instead of starting the previewer\n" ++
  "  -program string\n    \tOnly build the named program\n" ++
  "  -v int\n    \tLog verbosity, 2 for debug (default: [log] verbosity)\n" ++
  "\nExamples:\n" ++
  "  autoqasm                          # Start the previewer\n" ++
  "  autoqasm -print                   # Print every program\n" ++
  "  autoqasm -print -program bell     # Print one program\n" ++
  "  autoqasm -print -o out.cbor       # Write artifacts ([output] format = \"cbor\")"

inductive FlagStop where
  | help
  | bad
  deriving DecidableEq, Repr, Inhabited

def bool? : String → Option Bool
  | "1" | "t" | "T" | "true" | "TRUE" | "True" => some true
  | "0" | "f" | "F" | "false" | "FALSE" | "False" => some false
  | _ => none

/-- Digits of a base with underscores between them; a base counts as a digit before. -/
def digits? (base : Nat) (before : Bool) (cs : List Char) : Option Nat :=
  if cs.any Number.isHexDigit && ok before cs then some (Number.digitsValue base 0 cs) else none
where
  ok (before : Bool) : List Char → Bool
    | [] => before
    | c :: cs =>
      if c = '_' then before && cs ≠ [] && ok false cs
      else Number.isHexDigit c && Number.hexValue c < base && ok true cs

def magnitude? : List Char → Option Nat
  | ['0'] => some 0
  | '0' :: c :: rest => match Number.lowerAscii c with
    | 'x' => digits? 16 true rest
    | 'o' => digits? 8 true rest
    | 'b' => digits? 2 true rest
    | _ => digits? 8 true (c :: rest)
  | cs => digits? 10 false cs

/-- A word in decimal, or in another base with its mark. -/
def int? (s : String) : Option Int := do
  let n ← match s.toList with
    | '+' :: cs => (magnitude? cs).map Int.ofNat
    | '-' :: cs => (magnitude? cs).map fun n => -(n : Int)
    | cs => (magnitude? cs).map Int.ofNat
  if Word.InRange n then some n else none

/-- An argument that is a flag, by its name and the value after the equals sign. -/
inductive Argument where
  /-- No flag. -/
  | plain
  | terminator
  | malformed
  | flag (name : String) (value : Option String)

def Argument.read (s : String) : Argument :=
  match s.toList with
  | ['-', '-'] => .terminator
  | '-' :: '-' :: name => named name
  | ['-'] => .plain
  | '-' :: name => named name
  | _ => .plain
where
  named (cs : List Char) : Argument :=
    match cs with
    | [] => .malformed
    | '-' :: _ => .malformed
    | '=' :: _ => .malformed
    | cs => match cs.span (· ≠ '=') with
      | (name, []) => .flag (String.ofList name) none
      | (name, _ :: value) => .flag (String.ofList name) (some (String.ofList value))

def Flags.set (f : Flags) (name value : String) : Option Flags :=
  match name with
  | "config" => some { f with config := value }
  | "program" => some { f with program := value }
  | "o" => some { f with output := value }
  | "v" => (int? value).map fun n => { f with verbosity := some n }
  | _ => none

def takesValue (name : String) : Bool := ["config", "program", "o", "v"].contains name

def Flags.read (f : Flags) : List String → Except FlagStop Flags
  | [] => .ok f
  | arg :: args =>
    match Argument.read arg with
    | .plain => .ok f
    | .terminator => .ok f
    | .malformed => .error .bad
    | .flag "print" value => match bool? (value.getD "true") with
      | some b => Flags.read { f with print := b } args
      | none => .error .bad
    | .flag name value =>
      if takesValue name then
        match value, args with
        | some v, args => set f name v args
        | none, v :: args => set f name v args
        | none, [] => .error .bad
      else if name = "h" || name = "help" then .error .help
      else .error .bad
where
  set (f : Flags) (name value : String) (args : List String) : Except FlagStop Flags :=
    match f.set name value with
    | some f => Flags.read f args
    | none => .error .bad

end QasmStudio.Cli

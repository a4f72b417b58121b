import QasmStudio.Convert.Config
import QasmStudio.Demo.Basic
import QasmStudio.Toml.Reader

/-!
# Settings

The settings file has a section for the program, the device, the log and the output. Without one in
the working directory the nearest above it counts. Names are compared without regard to case, and
unknown ones are passed over.
-/

namespace QasmStudio

structure Settings where
  numQubits : Int := 0
  device : Device := {}
  verbosity : Int := 0
  /-- Where messages are logged; empty for the standard error. -/
  logFile : String := ""
  format : String := "qasm"
  output : String := ""
  path : String := ""
  deriving DecidableEq, Repr, Inhabited

inductive SettingsError where
  /-- `step` of reading a file went wrong. -/
  | unreadable (path step : String) (e : PathError)
  | malformed (path : String)
  | negativeQubits (path : String)
  | unknownFormat (path format : String)
  deriving DecidableEq, Repr

namespace SettingsError

def message : SettingsError → String
  | unreadable path step e =>
    "cannot read " ++ path ++ ": " ++ step ++ " " ++ path ++ ": " ++ e.message
  | malformed path => "parse error in " ++ path
  | negativeQubits path => path ++ ": num_qubits must not be negative"
  | unknownFormat path format => path ++ ": " ++ QasmStudio.unknownFormat format

def isMissing : SettingsError → Bool
  | unreadable _ _ .notFound => true
  | _ => false

end SettingsError

namespace Settings

def fileName : String := "autoqasm.toml"

def config (s : Settings) : BuildConfig := ⟨s.numQubits, s.device⟩

/-- A character without its case: the ASCII letters and the two others that have an ASCII letter in
another case. -/
def foldCase (c : Char) : Char :=
  if c.toNat = 0x17F then 's' else if c.toNat = 0x212A then 'k' else Number.lowerAscii c

def sameName (a b : String) : Bool := a.toList.map foldCase = b.toList.map foldCase

open Toml (Node Table)

def string? : Node → Option String
  | .string s => some s
  | _ => none

def integer? : Node → Option Int
  | .integer n => some n
  | _ => none

def strings? : Node → Option (List String)
  | .array items => items.mapM string?
  | _ => none

def setField (s : Settings) (group key : String) (n : Node) : Option Settings :=
  let named (g name : String) : Bool := group = g && sameName name key
  if named "program" "num_qubits" then do return { s with numQubits := ← integer? n }
  else if named "device" "name" then do
    return { s with device := { s.device with name := ← string? n } }
  else if named "device" "pragmas" then do
    return { s with device := { s.device with pragmas := ← strings? n } }
  else if named "log" "verbosity" then do return { s with verbosity := ← integer? n }
  else if named "log" "file" then do return { s with logFile := ← string? n }
  else if named "output" "format" then do return { s with format := ← string? n }
  else if named "output" "path" then do return { s with output := ← string? n }
  else some s

def groups : List String := ["program", "device", "log", "output"]

def setGroup (s : Settings) (name : String) (n : Node) : Option Settings :=
  match groups.find? (sameName name) with
  | none => some s
  | some group => match n with
    | .table entries => entries.foldlM (fun s (key, n) => s.setField group key n) s
    | _ => none

/-- A format of settings files: sets what a text says, if it can be read. -/
abbrev Reader := Settings → String → Option Settings

def toml : Reader := fun s source => do
  let t ← Toml.read? source.toList
  t.foldlM (fun s (name, n) => s.setGroup name n) s

variable (reader : Reader)

def parse (path : String) (source : String) : Except SettingsError Settings :=
  match reader {} source with
  | none => .error (.malformed path)
  | some s =>
    if s.numQubits < 0 then .error (.negativeQubits path)
    else if s.format = "qasm" || s.format = "cbor" then .ok { s with path := path }
    else .error (.unknownFormat path s.format)

def ofFile (path : String) : Except (String × PathError) Content → Except SettingsError Settings
  | .error (step, e) => .error (.unreadable path step e)
  | .ok (.text source) => parse reader path source
  | .ok (.bytes _) => .error (.malformed path)

/-- Loads a file by its path in writing, which may be relative to `base`. -/
def load (t : FileTree) (base : Path) (path : String) : Except SettingsError Settings :=
  ofFile reader path (t.read base path)

def loadAt (t : FileTree) (p : Path) : Except SettingsError Settings :=
  ofFile reader p.render (t.readAt p)

/-- The settings files that count for a directory, the nearest first. -/
def candidates (dir : Path) : List Path := dir.ancestors.map (· ++ [fileName])

def pathIn (dir : Path) : String := Path.render (dir ++ [fileName])

def isIn (t : FileTree) (dir : Path) : Bool := t.contains [] (pathIn dir)

/-- Loads the settings file of a directory, or else the nearest one above, if there is one. -/
def find (t : FileTree) (dir : Path) : Except SettingsError (Option Settings) :=
  if isIn t dir then some <$> load reader t [] (pathIn dir)
  else if dir.parent = dir then .ok none
  else find t dir.parent
termination_by dir.length
decreasing_by exact Path.length_parent_lt (by assumption)

end Settings

end QasmStudio

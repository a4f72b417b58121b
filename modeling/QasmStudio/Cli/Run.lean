import QasmStudio.Cli.Flags
import QasmStudio.Demo.Builtin
import QasmStudio.Settings

/-!
# The command

The command builds the bundled programs and prints them, or hands them to the previewer. It looks
at a tree of files and gives back the tree with what it wrote.
-/

namespace QasmStudio.Cli

structure Outcome where
  exit : Nat := 0
  output : Content := .text ""
  report : String := ""
  notice : String := ""
  files : FileTree

inductive Command where
  | finished (o : Outcome)
  | preview (demos : List Demo) (config : BuildConfig) (files : FileTree)

def settings (t : FileTree) (cwd : Path) (f : Flags) : Except SettingsError Settings :=
  if f.config ≠ "" then Settings.load Settings.toml t cwd f.config
  else (·.getD {}) <$> Settings.find Settings.toml t cwd

/-- At this verbosity and below nothing is logged. -/
def silence : Int := -4

/-- How much is logged. The previewer has the screen, so without a file it logs on demand only. -/
def verbosity (f : Flags) (s : Settings) : Int :=
  match f.verbosity with
  | some n => n
  | none => if !f.print && s.logFile = "" then silence else s.verbosity

/-- Opens the file for the log, if there is one. A missing file is made. -/
def openLog (t : FileTree) (cwd : Path) (f : Flags) (s : Settings) : Except PathError FileTree :=
  if s.logFile = "" || verbosity f s ≤ silence then .ok t
  else do
    let p ← t.creatable cwd s.logFile
    if (t.entry? p).isSome then .ok t else .ok (t.write p (.text ""))

def demos (f : Flags) : Except String (List Demo) :=
  if f.program = "" then .ok Demo.builtin
  else match Demo.find? Demo.builtin f.program with
    | some d => .ok [d]
    | none => .error ("unknown program " ++ Text.quote f.program ++ " (have " ++
        Demo.names Demo.builtin ++ ")")

def failed (t : FileTree) (message : String) : Outcome :=
  { exit := 1, report := "Error: " ++ message, files := t }

def noLog (t : FileTree) (name : String) (e : PathError) : Outcome :=
  { exit := 1, notice := "log file error: open " ++ name ++ ": " ++ e.message, files := t }

def noTerminal (t : FileTree) : Outcome :=
  failed t "could not open a new TTY: open /dev/tty: no such device or address"

/-- Writes programs that were built to a file, or to the output if it has no name. -/
def deliver (t : FileTree) (cwd : Path) (name : String) (c : Content) : Outcome :=
  if name = "" then { output := c, files := t }
  else match t.creatable cwd name with
    | .ok p => { files := t.write p c }
    | .error e => failed t ("open " ++ name ++ ": " ++ e.message)

def print (t : FileTree) (cwd : Path) (entropy : Nat → List UInt8) (f : Flags) (s : Settings)
    (ds : List Demo) : Except Fault Outcome := do
  let rs ← BuildResult.ofDemos s.config entropy ds
  match rs.filterMap (·.failure?), Format.named? s.format with
  | [], some format =>
    let name := if f.output = "" then s.output else f.output
    return deliver t cwd name (BuildResult.write format rs)
  | [], none => return failed t (unknownFormat s.format)
  | errors, _ => return failed t ("\n".intercalate (errors.map (·.message)))

def run (t : FileTree) (cwd : Path) (entropy : Nat → List UInt8) (args : List String) :
    Except Fault Command :=
  match Flags.read {} args with
  | .error .help => return .finished { notice := usage, files := t }
  | .error .bad => return .finished { exit := 2, notice := usage, files := t }
  | .ok f =>
    match settings t cwd f with
    | .error e => return .finished (failed t e.message)
    | .ok s => match openLog t cwd f s with
      | .error e => return .finished (noLog t s.logFile e)
      | .ok t => match demos f with
        | .error message => return .finished (failed t message)
        | .ok ds =>
          if f.print then do return .finished (← print t cwd entropy f s ds)
          else return .preview ds s.config t

end QasmStudio.Cli

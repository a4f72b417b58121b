import QasmStudio.Cli.Run
import QasmStudio.Preview.View

/-!
# The command line

Takes down the files that the command looks at, runs the command on them, and writes the files it
changed. The previewer reads one key a line: the name of a key, or text to type.
-/

namespace QasmStudio.Shell

def directoryCode : UInt32 := 21

def observe (p : Path) : IO (Option (Path × FileEntry)) := do
  match ← (IO.FS.readBinFile p.render).toBaseIO with
  | .ok bytes =>
    let content := match String.fromUTF8? bytes with
      | some s => Content.text s
      | none => .bytes bytes.toList
    return some (p, .file content)
  | .error (.inappropriateType _ code _) =>
    return if code = directoryCode then some (p, .directory) else none
  | .error _ => return none

def snapshot (paths : List Path) : IO FileTree := do
  return ⟨(← paths.mapM observe).filterMap id⟩

def pathsTo (cwd : Path) (s : String) : List Path :=
  if s = "" then [] else (Path.clean cwd s).ancestors

def survey (cwd : Path) (f : Cli.Flags) : IO FileTree := do
  let first := cwd.ancestors ++ Settings.candidates cwd ++ pathsTo cwd f.config
  let s := ((Cli.settings (← snapshot first) cwd f).toOption).getD {}
  let outputs := [f.output, s.output, s.logFile].flatMap (pathsTo cwd)
  let saved := Demo.builtin.map fun d => cwd ++ [d.name ++ ".qasm"]
  snapshot (first ++ outputs ++ saved).eraseDups

def commit (t old : FileTree) : IO Unit := do
  for (p, c) in t.changedFiles old do
    match c with
    | .text s => IO.FS.writeFile p.render s
    | .bytes bs => IO.FS.writeBinFile p.render ⟨bs.toArray⟩

def entropy (builds : Nat) : IO (Nat → List UInt8) := do
  let bytes := (← IO.getRandomBytes (16 * builds).toUSize).toList
  return fun i => (bytes.drop (16 * i)).take 16

def tell (s : String) : IO Unit := if s = "" then pure () else IO.eprintln s

def finish (old : FileTree) (o : Cli.Outcome) : IO UInt32 := do
  commit o.files old
  let stdout ← IO.getStdout
  match o.output with
  | .text s => stdout.putStr s
  | .bytes bs => stdout.write ⟨bs.toArray⟩
  stdout.flush
  tell o.notice
  tell o.report
  return o.exit.toUInt32

def halted : IO UInt32 := do
  IO.eprintln "the command cannot go on"
  return 2

def environment (name : String) (default : Int) : IO Int := do
  return ((← IO.getEnv name).bind fun s => Word.read? s.toList).getD default

/-- Shows the model, takes a key, and goes on until the previewer is to end. -/
partial def interact (m : Model) (t : FileTree) (cwd : Path) : IO UInt32 := do
  match m.view with
  | .error _ => halted
  | .ok screen =>
    IO.println (String.ofList screen)
    let line ← (← IO.getStdin).getLine
    if line.isEmpty then return 0
    let key := Key.named (String.ofList (line.toList.filter (· ≠ '\n')))
    match m.update t cwd (.key key) with
    | .error _ => halted
    | .ok (m, t', quit) =>
      commit t' t
      if quit then return 0 else interact m t' cwd

def preview (demos : List Demo) (config : BuildConfig) (t : FileTree) (cwd : Path) : IO UInt32 := do
  let width ← environment "COLUMNS" 100
  let height ← environment "LINES" 40
  match Model.start demos config (← entropy demos.length) with
  | .error _ => halted
  | .ok m => interact { m with width := width, height := height } t cwd

def run (args : List String) : IO UInt32 := do
  let cwd := Path.clean [] (← IO.currentDir).toString
  let t ← survey cwd ((Cli.Flags.read {} args).toOption.getD {})
  match Cli.run t cwd (← entropy Demo.builtin.length) args with
  | .error _ => halted
  | .ok (.finished o) => finish t o
  | .ok (.preview demos config t') => do
    if ← (← IO.getStdin).isTty then
      commit t' t
      preview demos config t' cwd
    else finish t (Cli.noTerminal t')

end QasmStudio.Shell

def main (args : List String) : IO UInt32 := QasmStudio.Shell.run args

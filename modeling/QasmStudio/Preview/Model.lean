import QasmStudio.Demo.Builtin
import QasmStudio.Preview.Editor

/-!
# The previewer

The previewer lists programs and shows the source and the circuit of the selected one. The source
can be edited by hand, in whatever text area there is, and the circuit follows it. Every key first
clears the status.
-/

namespace QasmStudio

inductive Focus where
  | list
  | source
  deriving DecidableEq, Repr, Inhabited

inductive Key where
  | up
  | down
  | left
  | right
  | tab
  | escape
  | enter
  | backspace
  | save
  | rebuild
  | quit
  /-- Characters that are typed, or the name of another key. -/
  | text (s : String)
  deriving DecidableEq, Repr, Inhabited

def Key.named : String → Key
  | "up" => .up
  | "down" => .down
  | "left" => .left
  | "right" => .right
  | "tab" => .tab
  | "esc" => .escape
  | "enter" => .enter
  | "backspace" => .backspace
  | "ctrl+s" => .save
  | "ctrl+r" => .rebuild
  | "ctrl+c" => .quit
  | s => .text s

inductive Message where
  | key (k : Key)
  | resize (width height : Int)

/-- What the previewer asks of the widget that holds the source. -/
class TextArea (σ : Type) where
  text : σ → List Char
  load : List Char → σ → σ
  press : Key → σ → σ
  resize : Nat → σ → σ
  text_resize : ∀ w a, text (resize w a) = text a

namespace Editor

def key (e : Editor) : Key → Editor
  | .up => e.up
  | .down => e.down
  | .left => e.left
  | .right => e.right
  | .enter => e.enter
  | .backspace => e.backspace
  | .text s => e.press s
  | _ => e

instance : TextArea Editor where
  text := text
  load := load
  press k e := e.key k
  resize w e := { e with width := w }
  text_resize _ _ := rfl

end Editor

/-- The previewer, with a text area of type `σ` for the source. -/
structure Model (σ : Type := Editor) where
  demos : List Demo
  config : BuildConfig
  entropy : Nat → List UInt8
  results : List BuildResult
  selected : Nat := 0
  focus : Focus := .list
  editor : σ
  /-- The source that the circuit was read from. -/
  shown : List Char := []
  width : Int := 0
  height : Int := 0
  status : String := ""

namespace Model
variable {σ : Type} [TextArea σ]

def listWidth : Int := 28

def current (m : Model σ) : BuildResult :=
  m.results.getD m.selected { outcome := .error .noPrograms }

def setCircuit (m : Model σ) (c : Circuit) : Model σ :=
  { m with results := m.results.modify m.selected (·.withCircuit c) }

/-- Loads the source of the selected program; edits by hand are dropped. -/
def sync (m : Model σ) : Except Fault (Model σ) := do
  let source := m.current.source.toList
  let m ← if m.current.failed then pure m else m.setCircuit <$> Circuit.read source
  return { m with editor := TextArea.load source m.editor, shown := source }

/-- Reads the circuit again once the source was edited. -/
def refresh (m : Model σ) : Except Fault (Model σ) := do
  let source := TextArea.text m.editor
  if source = m.shown || m.current.failed then return m
  else
    let m := m.setCircuit (← Circuit.read source)
    return { m with shown := source }

/-- The previewer with a text area that has just been made. -/
def startWith (area : σ) (demos : List Demo) (config : BuildConfig) (entropy : Nat → List UInt8) :
    Except Fault (Model σ) := do
  let results ← BuildResult.ofDemos config entropy demos
  sync { demos := demos, config := config, entropy := entropy, results := results, editor := area }

def start (demos : List Demo) (config : BuildConfig) (entropy : Nat → List UInt8) :
    Except Fault Model := startWith {} demos config entropy

def rebuild (m : Model σ) : Except Fault (Model σ) := do
  let results ← BuildResult.ofDemos m.config m.entropy m.demos
  let m ← sync { m with results := results }
  let failed := (results.filter (·.failed)).length
  let status := "Rebuilt " ++ Word.render results.length ++ " programs, " ++
    Word.render failed ++ " failed"
  return { m with status := status }

/-- Writes the source in the editor to a file in the directory `cwd`. -/
def save (m : Model σ) (t : FileTree) (cwd : Path) : Model σ × FileTree :=
  if m.current.failed then
    ({ m with status := "Nothing to save: the program failed to build" }, t)
  else
    let name := m.current.name ++ ".qasm"
    match t.creatable cwd name with
    | .error e => ({ m with status := "Save error: open " ++ name ++ ": " ++ e.message }, t)
    | .ok p =>
      ({ m with status := "Saved " ++ name }, t.write p (.text (String.ofList (TextArea.text m.editor))))

def previous (m : Model σ) : Except Fault (Model σ) :=
  if 0 < m.selected then sync { m with selected := m.selected - 1 } else return m

def next (m : Model σ) : Except Fault (Model σ) :=
  if m.selected + 1 < m.results.length then sync { m with selected := m.selected + 1 }
  else return m

/-- A key that goes to the list; the flag says that the previewer is to end. -/
def listKey (m : Model σ) : Key → Except Fault (Model σ × Bool)
  | .text "q" => return (m, true)
  | .tab => return ({ m with focus := .source }, false)
  | .up | .text "k" => do return (← m.previous, false)
  | .down | .text "j" => do return (← m.next, false)
  | _ => return (m, false)

def sourceKey (m : Model σ) (k : Key) : Except Fault (Model σ) :=
  match k with
  | .tab | .escape => return { m with focus := .list }
  | k => refresh { m with editor := TextArea.press k m.editor }

/-- A key press: the model, the files and whether the previewer is to end. -/
def press (m : Model σ) (t : FileTree) (cwd : Path) (k : Key) :
    Except Fault (Model σ × FileTree × Bool) := do
  let m := { m with status := "" }
  match k with
  | .quit => return (m, t, true)
  | .save =>
    let (m, t) := m.save t cwd
    return (m, t, false)
  | .rebuild => return (← m.rebuild, t, false)
  | k => match m.focus with
    | .list => do
      let (m, quit) ← m.listKey k
      return (m, t, quit)
    | .source => return (← m.sourceKey k, t, false)

/-- The columns that the editor's rows have in a window: the rest beside the list, less the frame,
the mark of a row and the line numbers. -/
def rowWidth (w : Int) : Nat :=
  (min (max (Word.sub (Word.sub w listWidth) 8) 20) 500 - 6).toNat

def resize (m : Model σ) (w h : Int) : Model σ :=
  { m with width := w, height := h, editor := TextArea.resize (rowWidth w) m.editor }

def update (m : Model σ) (t : FileTree) (cwd : Path) :
    Message → Except Fault (Model σ × FileTree × Bool)
  | .key k => m.press t cwd k
  | .resize w h => return (m.resize w h, t, false)

def replace (m : Model σ) (cs : List Char) : Except Fault (Model σ) :=
  refresh { m with editor := TextArea.load cs m.editor }

end Model

end QasmStudio

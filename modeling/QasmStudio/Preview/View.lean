import QasmStudio.Preview.Model
import QasmStudio.Preview.Panel
import QasmStudio.StateVector.Histogram

/-!
# The view of the previewer

The list of programs and the source stand side by side, above the circuit and the help on keys.
-/

namespace QasmStudio.Model

def controlsHeight : Int := 4

/-- The heights of the top row and of the circuit, with their borders. -/
def layout (m : Model) : Int × Int :=
  let room := m.height - controlsHeight
  let top := max (room.tdiv 2) 8
  (top, max (room - top) 6)

def title (s : String) (active : Bool) : List Char :=
  (if active then s ++ " [ACTIVE]" else s).toList ++ ['\n', '\n']

def listEntry (m : Model) (r : BuildResult) (i : Nat) : String :=
  (if i = m.selected then " ▸ " else "   ") ++ r.name ++ (if r.failed then " ✗" else "") ++ "\n"

def listText (m : Model) : List Char :=
  let entries := m.results.zipIdx.map fun (r, i) => m.listEntry r i
  let facts := m.current.summary.map fun line => "· " ++ line ++ "\n"
  title "Programs" (m.focus = .list) ++
    (String.join entries ++ "\n" ++ m.current.description ++ "\n" ++ String.join facts).toList

/-- The probabilities of the circuit, or why there are none. -/
def simulationText (c : Circuit) : Except Fault (List Char) := do
  match ← c.simulate with
  | .error e => return ("  no simulation: " ++ e.message).toList
  | .ok s => return "Probabilities\n".toList ++ (← s.histogram)

def circuitText (m : Model) (width : Int) : Except Fault (List Char) := do
  let head := title "Circuit" false
  match m.current.outcome with
  | .error _ => return head ++ "no circuit: the program failed to build".toList
  | .ok b =>
    let c := b.circuit
    if c.numQubits = 0 then return head ++ "no qubits used".toList
    else
      let note := if c.classical
        then "  control flow and subroutine calls are not drawn\n" else ""
      return head ++ (← c.text (width - 4)) ++ (note ++ "\n").toList ++ (← simulationText c)

def failureText (m : Model) (e : BuildFailure) : List Char :=
  title "OpenQASM 3" (m.focus = .source) ++ ("build failed\n" ++ e.message).toList

def sourceText (m : Model) : List Char :=
  match m.current.failure? with
  | some e => m.failureText e
  | none => title "OpenQASM 3" (m.focus = .source) ++ m.editor.text

def controlsText (m : Model) : List Char :=
  let status := if m.status = "" then "" else "  │  " ++ m.status
  ("Navigate: ↑↓/jk Select program  Tab Switch focus\n" ++
    "Actions:  ^R Rebuild  ^S Save .qasm  q/^C Quit" ++ status).toList

def listPanel (m : Model) : List (List Char) :=
  Panel.render listWidth (m.layout.1 - 2) m.listText

def sourcePanel (m : Model) : List (List Char) :=
  Panel.render (m.width - listWidth - 4) (m.layout.1 - 2) m.sourceText

def circuitPanel (m : Model) : Except Fault (List (List Char)) := do
  return Panel.render (m.width - 2) (m.layout.2 - 2) (← m.circuitText (m.width - 2))

def controlsPanel (m : Model) : List (List Char) :=
  Panel.render (m.width - 2) (controlsHeight - 2) m.controlsText

/-- All panels. Before the size is known there is nothing to see. -/
def view (m : Model) : Except Fault (List Char) := do
  if m.width = 0 then return "Loading...".toList
  else
    let top := Panel.beside m.listPanel m.sourcePanel
    return Panel.text (Panel.stack [top, ← m.circuitPanel, m.controlsPanel])

end QasmStudio.Model

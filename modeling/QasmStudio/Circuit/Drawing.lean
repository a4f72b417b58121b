import QasmStudio.Circuit.Cell
import QasmStudio.Fault
import QasmStudio.Number.Word

/-!
# Drawing circuits

Every cell is three lines high and as wide as its column, so the lines of the grid align. Columns
are drawn from the left, as many as fit. The lengths of the runs that a cell is drawn with are
differences, and a negative one is a fault.
-/

namespace QasmStudio

namespace Text

def spaces (n : Nat) : List Char := List.replicate n ' '

/-- The text in the middle of `width` characters, the odd space on the right. What does not fit is
cut off. -/
def center (cs : List Char) (width : Nat) : List Char :=
  let total := width - cs.length
  spaces (total / 2) ++ cs.take width ++ spaces (total - total / 2)

/-- A run of one character. -/
def run? (c : Char) (n : Int) : Except Fault (List Char) :=
  if n < 0 then .error .negativeLength else .ok (List.replicate n.toNat c)

def center? (cs : List Char) (width : Int) : Except Fault (List Char) :=
  if width < 0 then .error .negativeLength else .ok (center cs width.toNat)

def padRight (cs : List Char) (width : Nat) : List Char := cs ++ spaces (width - cs.length)

def padLeft (cs : List Char) (width : Nat) : List Char := spaces (width - cs.length) ++ cs

end Text

open Text (spaces run?)

def dashes (n : Nat) : List Char := List.replicate n '─'

/-- The symbol on the target of a controlled gate, for the gates that have no box there. -/
def Op.targetSymbol? (op : Op) : Option Char :=
  match op.name with
  | "CNOT" | "CCNOT" => some '⊕'
  | "CZ" => some '●'
  | _ => none

structure Picture where
  top : List Char
  mid : List Char
  bot : List Char

namespace Cell

/-- `w` characters: a symbol, with `left` characters of a run before it and the others after it. -/
def around? (c : Char) (left : Int) (symbol : Char) (w : Int) : Except Fault (List Char) := do
  let before ← run? c left
  let after ← run? c (w - left - 1)
  return before ++ symbol :: after

def vertical? (w : Int) : Except Fault (List Char) := around? ' ' (w.tdiv 2) '│' w

def wire? (w : Int) (symbol : Char) : Except Fault (List Char) :=
  around? '─' ((w - 1).tdiv 2) symbol w

/-- A horizontal side of a box; `join` is where a vertical line meets it. The plain side is drawn in
any case. -/
def side? (inner : Int) (left right : Char) (join : Option Char) : Except Fault (List Char) := do
  let plain ← run? '─' inner
  let middle ← join.elim (pure plain) (wire? inner)
  return ' ' :: left :: middle ++ [right, ' ']

def box? (cell : Cell) (label : List Char) (w : Int) : Except Fault Picture := do
  let name ← Text.center? label (w - 4)
  let top ← side? (w - 4) '┌' '┐' (if cell.above then some '┴' else none)
  let bot ← side? (w - 4) '└' '┘' (if cell.below then some '┬' else none)
  return ⟨top, '─' :: '┤' :: name ++ ['├', '─'], bot⟩

def symbol? (cell : Cell) : Option Char :=
  match cell.role with
  | .control => some '●'
  | .swap => some '×'
  | .target => cell.op.bind Op.targetSymbol?
  | _ => none

/-- The lines of an empty cell and of a vertical line are drawn in any case. -/
def picture? (cell : Cell) (w : Int) : Except Fault Picture := do
  let empty ← run? ' ' w
  let line ← vertical? w
  let top := if cell.above then line else empty
  let bot := if cell.below then line else empty
  if cell.barrier then return ⟨line, ← wire? w '│', line⟩
  else match cell.symbol? with
    | some c => return ⟨top, ← wire? w c, bot⟩
    | none => match cell.op with
      | some op => cell.box? op.label w
      | none =>
        if cell.through then return ⟨line, ← wire? w '┼', line⟩
        else return ⟨top, ← run? '─' w, bot⟩

end Cell

def nameWidth : Nat := 7

def leastWidth : Nat := 7

def Op.width (op : Op) : Nat := if op.label.length ≤ 1 then 5 else op.label.length + 4

namespace Circuit

/-- The width of a column: barriers need no more than the least. -/
def columnWidth (c : Circuit) (step : Nat) : Nat :=
  ((c.opsAt step).filter (!·.isBarrier)).foldl (fun w op => max w op.width) leastWidth

def columnWidths (c : Circuit) : List Nat := (List.range c.steps).map c.columnWidth

def fitting (room : Int) : List Nat → Nat
  | [] => 0
  | w :: ws => if (w : Int) ≤ room then fitting (room - w) ws + 1 else 0

/-- The columns that are drawn in `width` characters, with their widths. -/
def shown (c : Circuit) (width : Int) : List (Nat × Nat) :=
  let widths := c.columnWidths
  let count := fitting (width - nameWidth) widths
  ((List.range c.steps).zip widths).take count

def wireName (c : Circuit) (qubit : Nat) : List Char :=
  if c.physical then '$' :: Word.digits qubit
  else 'q' :: '[' :: Word.digits qubit ++ [']']

def header (columns : List (Nat × Nat)) : List Char :=
  spaces nameWidth ++ columns.flatMap fun (step, w) => Text.center (Word.digits step) w

def wireLines (c : Circuit) (columns : List (Nat × Nat)) (qubit : Nat) :
    Except Fault (List (List Char)) := do
  let pictures ← columns.mapM fun (step, w) => (c.cell step qubit).picture? w
  return [spaces nameWidth ++ pictures.flatMap (·.top),
    Text.padRight (c.wireName qubit) (nameWidth - 2) ++ dashes 2 ++ pictures.flatMap (·.mid),
    spaces nameWidth ++ pictures.flatMap (·.bot)]

/-- The lines of the grid: the column numbers and three lines for each wire. -/
def grid (c : Circuit) (columns : List (Nat × Nat)) : Except Fault (List (List Char)) := do
  let wires ← (List.range c.numQubits).mapM (c.wireLines columns)
  return header columns :: wires.flatten

def remainder (c : Circuit) (count : Nat) : List (List Char) :=
  if count < c.steps then
    ["  ▶ ".toList ++ Word.digits (c.steps - count) ++ " more steps".toList]
  else []

def drawing (c : Circuit) (width : Int) : Except Fault (List (List Char)) := do
  let columns := c.shown width
  return (← c.grid columns) ++ c.remainder columns.length

def text (c : Circuit) (width : Int) : Except Fault (List Char) :=
  return (← c.drawing width).flatMap (· ++ ['\n'])

end Circuit

end QasmStudio

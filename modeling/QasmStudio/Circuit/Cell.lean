import QasmStudio.Circuit.Op

/-!
# Cells

A cell is what one wire shows in one column: an operation or a part of one, the vertical lines that
join the parts, or nothing.
-/

namespace QasmStudio

inductive Role where
  | none
  | box
  | control
  | target
  | swap
  deriving DecidableEq, Repr, Inhabited

structure Cell where
  op : Option Op := none
  role : Role := .none
  above : Bool := false
  below : Bool := false
  /-- A line of an operation on other wires passes. -/
  through : Bool := false
  barrier : Bool := false

def Op.role (op : Op) (qubit : Nat) : Role :=
  if op.name = "SWAP" then .swap
  else if op.isControlled then if op.qubits.getLast? = some qubit then .target else .control
  else .box

namespace Cell

/-- The cell of a wire once an operation of its column has been drawn over it. -/
def draw (qubit : Nat) (cell : Cell) (op : Op) : Cell :=
  if op.isBarrier && (op.qubits.isEmpty || op.qubits.contains qubit) then
    { cell with barrier := true, op := some op }
  else if op.qubits.length < 2 then cell
  else match op.bounds? with
    | none => cell
    | some (lo, hi) =>
      if qubit < lo || hi < qubit then cell
      else { cell with
        above := cell.above || lo < qubit
        below := cell.below || qubit < hi
        through := cell.through || cell.op.isNone }

end Cell

namespace Circuit

def opsAt (c : Circuit) (step : Nat) : List Op :=
  (c.ops.filter (·.step = step)).map (·.toOp)

def opAt? (c : Circuit) (step qubit : Nat) : Option Op :=
  (c.opsAt step).find? (·.qubits.contains qubit)

def cell (c : Circuit) (step qubit : Nat) : Cell :=
  let start : Cell := match c.opAt? step qubit with
    | some op => { op := some op, role := op.role qubit }
    | none => {}
  (c.opsAt step).foldl (Cell.draw qubit) start

end Circuit

end QasmStudio

import QasmStudio.Lang.Angle

/-!
# Operations of a circuit

An operation has a name in capitals and operands in the order of the call. A barrier without
operands reaches over all wires.
-/

namespace QasmStudio

structure Op where
  /-- `MEASURE`, `RESET`, `BARRIER` or the name of a gate. -/
  name : String
  /-- The wires it acts on, in the order of the call. -/
  qubits : List Nat
  params : List Float := []

namespace Op

def bounds? (op : Op) : Option (Nat × Nat) :=
  match op.qubits with
  | [] => none
  | q :: qs => some (qs.foldl min q, qs.foldl max q)

def isBarrier (op : Op) : Bool := op.name = "BARRIER"

/-- Gates that are drawn with a control on every operand but the last. -/
def isControlled (op : Op) : Bool :=
  ["CNOT", "CY", "CZ", "CPHASESHIFT", "CCNOT"].contains op.name

def label (op : Op) : List Char :=
  match op.name with
  | "MEASURE" => ['M']
  | "RESET" => ['|', '0', '⟩']
  | "CY" => ['Y']
  | "CPHASESHIFT" => ['P']
  | name =>
    if op.params = [] then name.toList
    else name.toList ++ '(' :: [','].intercalate (op.params.map Angle.text) ++ [')']

end Op

structure Placed extends Op where
  step : Nat

/-- The operations of a program that can be drawn. -/
structure Circuit where
  numQubits : Nat
  ops : List Placed
  /-- The program has control flow or subroutine calls, which are not drawn. -/
  classical : Bool
  physical : Bool

def columns (ops : List Placed) : Nat := (ops.map (·.step + 1)).foldl max 0

def Circuit.steps (c : Circuit) : Nat := columns c.ops

end QasmStudio

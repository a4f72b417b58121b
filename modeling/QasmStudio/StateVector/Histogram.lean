import QasmStudio.Circuit.Drawing
import QasmStudio.Number.Fixed
import QasmStudio.StateVector.Simulate

/-!
# Histograms

One bar for each basis state that can be observed.
-/

namespace QasmStudio

def barWidth : Nat := 20

namespace BasisState

/-- The qubits of a basis state, the highest first. -/
def bits (numQubits index : Nat) : List Char :=
  let ds := Nat.toDigits 2 index
  List.replicate (numQubits - ds.length) '0' ++ ds

/-- The bar of a probability: a part in dark and the rest in light. -/
def bar (prob : Float) : Except Fault (List Char) :=
  let n := (prob * barWidth.toFloat + 0.5).floor.toUInt64.toNat
  if barWidth < n then .error .negativeLength
  else .ok (List.replicate n '█' ++ List.replicate (barWidth - n) '░')

/-- The line of a basis state: its ket, its bar and its probability in per cent. -/
def line (numQubits : Nat) (b : BasisState) : Except Fault (List Char) := do
  let bar ← bar b.prob
  return '|' :: bits numQubits b.index ++ '⟩' :: ' ' :: bar ++ ' ' ::
    Text.padLeft (Number.fixed 1 (b.prob * 100)) 5 ++ ['%']

end BasisState

def StateVector.histogram (s : StateVector) : Except Fault (List Char) := do
  let lines ← s.basisStates.mapM (BasisState.line s.numQubits)
  return lines.flatMap (· ++ ['\n'])

end QasmStudio

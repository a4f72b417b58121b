import QasmStudio.Circuit.Op
import QasmStudio.Number.Word
import QasmStudio.StateVector.Gate

/-!
# Simulation

The state of a register is a vector of amplitudes, one for each basis state. Bit `q` of an index is
the value of qubit `q`. Measurements do nothing, so the final state is the distribution that they
sample from.
-/

namespace QasmStudio

structure StateVector where
  amplitudes : Array Amplitude
  numQubits : Nat

structure BasisState where
  index : Nat
  prob : Float
  phase : Float

namespace StateVector

def zero (numQubits : Int) : Except Fault StateVector :=
  if numQubits < 0 then .error .negativeShift
  else if 45 ≤ numQubits then .error .lengthOverflow
  else
    let n := numQubits.toNat
    .ok ⟨(Array.replicate (1 <<< n) 0).setIfInBounds 0 1, n⟩

def lift (s : StateVector) (f : Array Amplitude → Except Fault (Array Amplitude)) :
    Except Fault StateVector := do
  return { s with amplitudes := ← f s.amplitudes }

def applyMatrix (s : StateVector) (u : Matrix2 Amplitude) (target : Int) (controls : List Int) :
    Except Fault StateVector := do
  let t ← qubitBit target
  let mask ← qubitMask controls
  s.lift (Kernel.apply u t mask)

def applySwap (s : StateVector) (q1 q2 : Int) : Except Fault StateVector := do
  let b1 ← qubitBit q1
  let b2 ← qubitBit q2
  s.lift (Kernel.swap b1 b2)

inductive Coupling where
  | xx
  | yy
  | zz
  deriving DecidableEq, Repr

def applyCoupling (s : StateVector) (coupling : Coupling) (q1 q2 : Int) (theta : Float) :
    Except Fault StateVector := do
  let b1 ← qubitBit q1
  let b2 ← qubitBit q2
  let c := Amplitude.ofReal (theta / 2).cos
  let sn := Amplitude.ofReal (theta / 2).sin
  let minus := -Amplitude.i * sn
  match coupling with
  | .zz =>
    let same := Amplitude.phase (-theta / 2)
    let different := Amplitude.phase (theta / 2)
    let factor (i : Nat) : Amplitude :=
      if (i &&& b1 = 0) ↔ (i &&& b2 = 0) then same else different
    return { s with amplitudes := Kernel.scale factor s.amplitudes }
  | .xx => s.lift (Kernel.couple c (fun _ => minus) b1 b2)
  | .yy =>
    let plus := Amplitude.i * sn
    s.lift (Kernel.couple c (fun i => if i &&& b2 = 0 then plus else minus) b1 b2)

def probWhere (s : StateVector) (p : Nat → Bool) : Float :=
  (s.amplitudes.toList.zipIdx).foldl (fun sum (a, i) => if p i then sum + a.prob else sum) 0

/-- A probability below this counts as zero when a qubit is reset. -/
def resetTolerance : Float := 1e-12

/-- Puts a qubit to zero: the part in which it is zero is kept and scaled back, or the qubit is
flipped if there is no such part. -/
def applyReset (s : StateVector) (q : Int) : Except Fault StateVector := do
  let bit ← qubitBit q
  let prob := s.probWhere (· &&& bit = 0)
  if prob < resetTolerance then s.lift (Kernel.apply Matrix2.pauliX bit 0)
  else
    let norm := prob.sqrt
    let project (i : Nat) (a : Amplitude) : Amplitude :=
      if i &&& bit = 0 then a.divReal norm else 0
    return { s with amplitudes := s.amplitudes.mapIdx project }

def operand (qs : List Int) (i : Nat) : Except Fault Int :=
  match qs[i]? with
  | some q => .ok q
  | none => .error .indexOutOfRange

def apply (s : StateVector) (name : String) (qs : List Int) (params : List Float) :
    Except Fault (Option StateVector) :=
  match name with
  | "BARRIER" | "MEASURE" => return some s
  | "RESET" => do return some (← s.applyReset (← operand qs 0))
  | "SWAP" => do return some (← s.applySwap (← operand qs 0) (← operand qs 1))
  | "XX" => coupled .xx
  | "YY" => coupled .yy
  | "ZZ" => coupled .zz
  | "CNOT" | "CCNOT" => do
    let target ← operand qs.reverse 0
    return some (← s.applyMatrix Matrix2.pauliX target qs.dropLast)
  | "CY" => controlled Matrix2.pauliY
  | "CZ" => controlled (Matrix2.diagonal 1 (-1))
  | "CPHASESHIFT" => controlled (Matrix2.diagonal 1 (Amplitude.phase (params.headD 0)))
  | name =>
    match Matrix2.named? name params, qs with
    | some u, [q] => do return some (← s.applyMatrix u q [])
    | _, _ => return none
where
  coupled (c : Coupling) : Except Fault (Option StateVector) := do
    return some (← s.applyCoupling c (← operand qs 0) (← operand qs 1) (params.headD 0))
  controlled (u : Matrix2 Amplitude) : Except Fault (Option StateVector) := do
    let target ← operand qs 1
    return some (← s.applyMatrix u target [← operand qs 0])

/-- Probabilities up to this are not reported. -/
def reportTolerance : Float := 1e-10

/-- The basis states with a probability worth reporting, in the order of their indices. -/
def basisStates (s : StateVector) : List BasisState :=
  s.amplitudes.toList.zipIdx.filterMap fun (a, i) =>
    if a.prob > reportTolerance then some ⟨i, a.prob, a.arg⟩ else none

def qubitProbs (s : StateVector) : List (Float × Float) :=
  (List.range s.numQubits).map fun q =>
    (s.probWhere (!·.testBit q), s.probWhere (·.testBit q))

end StateVector

inductive SimulationError where
  | classical
  | tooLarge (numQubits : Nat)
  | unknownGate (name : String)
  deriving DecidableEq, Repr

def maxSimulated : Nat := 12

def SimulationError.message : SimulationError → String
  | classical => "program has classical control flow"
  | tooLarge n =>
    Word.render n ++ " qubits exceed the simulator limit of " ++ Word.render maxSimulated
  | unknownGate name => "gate " ++ name ++ " cannot be simulated"

namespace Circuit

/-- The operations column by column; within a column they keep their order. -/
def byStep (c : Circuit) : List Placed := c.ops.mergeSort fun a b => a.step ≤ b.step

def runOps (s : StateVector) : List Op → Except Fault (Except SimulationError StateVector)
  | [] => return .ok s
  | op :: ops => do
    match ← s.apply op.name (op.qubits.map Int.ofNat) op.params with
    | some s => runOps s ops
    | none => return .error (.unknownGate op.name)

/-- Runs the circuit on the state in which every qubit is zero. -/
def simulate (c : Circuit) : Except Fault (Except SimulationError StateVector) := do
  if c.classical then return .error .classical
  else if maxSimulated < c.numQubits then return .error (.tooLarge c.numQubits)
  else runOps (← StateVector.zero c.numQubits) (c.byStep.map (·.toOp))

end Circuit

end QasmStudio

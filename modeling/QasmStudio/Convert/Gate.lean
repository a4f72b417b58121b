import QasmStudio.Convert.Qubit

/-!
# Gates and instructions

The native gates with their operand counts, and the operations that emit gates, measurements,
resets and barriers.
-/

namespace QasmStudio

structure NativeGate where
  name : String
  qubits : Nat
  angles : Nat
  deriving DecidableEq, Repr, Inhabited

namespace NativeGate

def all : List NativeGate :=
  [⟨"h", 1, 0⟩, ⟨"x", 1, 0⟩, ⟨"y", 1, 0⟩, ⟨"z", 1, 0⟩, ⟨"i", 1, 0⟩,
   ⟨"s", 1, 0⟩, ⟨"si", 1, 0⟩, ⟨"t", 1, 0⟩, ⟨"ti", 1, 0⟩, ⟨"v", 1, 0⟩, ⟨"vi", 1, 0⟩,
   ⟨"rx", 1, 1⟩, ⟨"ry", 1, 1⟩, ⟨"rz", 1, 1⟩, ⟨"phaseshift", 1, 1⟩,
   ⟨"cnot", 2, 0⟩, ⟨"cy", 2, 0⟩, ⟨"cz", 2, 0⟩, ⟨"swap", 2, 0⟩,
   ⟨"cphaseshift", 2, 1⟩, ⟨"xx", 2, 1⟩, ⟨"yy", 2, 1⟩, ⟨"zz", 2, 1⟩,
   ⟨"ccnot", 3, 0⟩]

def named? (name : String) : Option NativeGate := all.find? (·.name == name)

end NativeGate

namespace Convert

/-- Emits a gate call. All operands are checked before anything changes. -/
def applyGate (h : Handle) (name : String) (qubits angles : List Value) : Convert Unit := do
  requireActive h ("gate " ++ Text.quote name)
  allow .unitary
  let targets ← resolveAll qubits
  let args ← angles.mapM angleOperand
  match (← context).foreign? (targets.map (·.expr)) args with
  | some e => refuse e
  | none => pure ()
  registerTargets targets
  emit (.gate name args (targets.map (·.expr)))

def applyNative (h : Handle) (g : NativeGate) (operands : List Value) : Convert Unit :=
  let operand (i : Nat) : Value := operands.getD i .none
  applyGate h g.name ((List.range g.qubits).map operand)
    ((List.range g.angles).map fun i => operand (g.qubits + i))

/-- Stores one measurement per element of a register, counted from `i`. -/
def measureInto (v : Var) (i : Nat) : List Expr → Convert Unit
  | [] => pure ()
  | q :: qs => do
    emit (.assign (.index v.expr (.int i)) (.measure q))
    measureInto v (i + 1) qs

/-- Measures qubits into a new variable: one qubit into a bit, several into a register. -/
def measure (h : Handle) (qubits : List Value) : Convert Var := do
  requireClassical h "measure"
  if qubits.isEmpty then refuse (.invalidArguments "measure" .nothingToMeasure)
  let targets ← resolveAll qubits
  registerTargets targets
  let name ← freshName .bit
  match targets.map (·.expr) with
  | [q] =>
    let v : Var := ⟨name, some (Ty.bit 0), some (.measure q)⟩
    declare v
    return v
  | qs =>
    let zeros := String.ofList (List.replicate qs.length '0')
    let v : Var := ⟨name, some (Ty.bit qs.length), some (.bits zeros)⟩
    declare v
    measureInto v 0 qs
    return v

def reset (h : Handle) (qubit : Value) : Convert Unit := do
  requireClassical h "reset"
  let q ← qubitOperand qubit
  emit (.reset q)

def barrier (h : Handle) (qubits : List Value) : Convert Unit := do
  requireClassical h "barrier"
  let targets ← resolveAll qubits
  registerTargets targets
  emit (.barrier (targets.map (·.expr)))

end Convert

end QasmStudio

import QasmStudio.Lang.Angle
import QasmStudio.StateVector.Amplitude
import QasmStudio.StateVector.Kernel

/-!
# Gate matrices

The matrices of the gates on one qubit, by the name of the gate in capitals.
-/

namespace QasmStudio

namespace Matrix2

def invSqrt2 : Float := 0.70710678118654752440084436210484903928483593768847403658833987

def diagonal (a b : Amplitude) : Matrix2 Amplitude := ⟨a, 0, 0, b⟩

def hadamard : Matrix2 Amplitude :=
  let h := Amplitude.ofReal invSqrt2
  ⟨h, h, h, -h⟩

def pauliX : Matrix2 Amplitude := ⟨0, 1, 1, 0⟩

def pauliY : Matrix2 Amplitude := ⟨0, -Amplitude.i, Amplitude.i, 0⟩

def rootX : Matrix2 Amplitude := ⟨⟨0.5, 0.5⟩, ⟨0.5, -0.5⟩, ⟨0.5, -0.5⟩, ⟨0.5, 0.5⟩⟩

def rootXInv : Matrix2 Amplitude := ⟨⟨0.5, -0.5⟩, ⟨0.5, 0.5⟩, ⟨0.5, 0.5⟩, ⟨0.5, -0.5⟩⟩

def rotationX (theta : Float) : Matrix2 Amplitude :=
  let c := Amplitude.ofReal (theta / 2).cos
  let s := -Amplitude.i * Amplitude.ofReal (theta / 2).sin
  ⟨c, s, s, c⟩

def rotationY (theta : Float) : Matrix2 Amplitude :=
  let c := Amplitude.ofReal (theta / 2).cos
  let s := Amplitude.ofReal (theta / 2).sin
  ⟨c, -s, s, c⟩

def rotationZ (theta : Float) : Matrix2 Amplitude :=
  diagonal (Amplitude.phase (-theta / 2)) (Amplitude.phase (theta / 2))

/-- The matrix of a gate on one qubit. A missing angle is zero. -/
def named? (name : String) (params : List Float) : Option (Matrix2 Amplitude) :=
  let theta := params.headD 0
  match name with
  | "I" => some (diagonal 1 1)
  | "H" => some hadamard
  | "X" => some pauliX
  | "Y" => some pauliY
  | "Z" => some (diagonal 1 (-1))
  | "S" => some (diagonal 1 Amplitude.i)
  | "SI" => some (diagonal 1 (-Amplitude.i))
  | "T" => some (diagonal 1 (Amplitude.phase (Angle.pi / 4)))
  | "TI" => some (diagonal 1 (Amplitude.phase (-Angle.pi / 4)))
  | "V" => some rootX
  | "VI" => some rootXInv
  | "RX" => some (rotationX theta)
  | "RY" => some (rotationY theta)
  | "RZ" => some (rotationZ theta)
  | "PHASESHIFT" => some (diagonal 1 (Amplitude.phase theta))
  | _ => none

end Matrix2

end QasmStudio

/-!
# Amplitudes

Complex numbers with floating-point parts.
-/

namespace QasmStudio

structure Amplitude where
  re : Float
  im : Float

namespace Amplitude

instance : Add Amplitude := ⟨fun a b => ⟨a.re + b.re, a.im + b.im⟩⟩

instance : Mul Amplitude :=
  ⟨fun a b => ⟨a.re * b.re - a.im * b.im, a.re * b.im + a.im * b.re⟩⟩

instance : Neg Amplitude := ⟨fun a => ⟨-a.re, -a.im⟩⟩

instance : Zero Amplitude := ⟨⟨0, 0⟩⟩

instance : One Amplitude := ⟨⟨1, 0⟩⟩

def i : Amplitude := ⟨0, 1⟩

def ofReal (x : Float) : Amplitude := ⟨x, 0⟩

/-- The number of length one at the angle `theta`. -/
def phase (theta : Float) : Amplitude := ⟨theta.cos, theta.sin⟩

/-- The square of the length, which is a probability. -/
def prob (a : Amplitude) : Float := a.re * a.re + a.im * a.im

def arg (a : Amplitude) : Float := Float.atan2 a.im a.re

def divReal (a : Amplitude) (x : Float) : Amplitude := ⟨a.re / x, a.im / x⟩

end Amplitude

end QasmStudio

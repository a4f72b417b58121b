/-!
# Build configuration

What is fixed when the build of a program starts: the size of the qubit register and the device.
-/

namespace QasmStudio

structure Device where
  name : String := ""
  pragmas : List String := []
  deriving DecidableEq, Repr, Inhabited

/-- A device without a name accepts every pragma. -/
def Device.supports (d : Device) (pragma : String) : Bool :=
  d.name = "" || d.pragmas.contains pragma

structure BuildConfig where
  /-- The size of the register; 0 leaves it to the qubits that are used. -/
  numQubits : Int := 0
  device : Device := {}
  deriving DecidableEq, Repr, Inhabited

def BuildConfig.declared? (c : BuildConfig) : Option Int :=
  if 0 < c.numQubits then some c.numQubits else none

inductive Setting where
  | numQubits (n : Int)
  | device (d : Device)
  | config (c : BuildConfig)

def Setting.apply (c : BuildConfig) : Setting → BuildConfig
  | numQubits n => { c with numQubits := n }
  | device d => { c with device := d }
  | config c' => c'

def BuildConfig.with (c : BuildConfig) (settings : List Setting) : BuildConfig :=
  settings.foldl Setting.apply c

end QasmStudio

import QasmStudio.Demo.Basic

/-!
# The bundled programs
-/

namespace QasmStudio.Demo

def step (a : Action) : Step := .mk a none false .own

def bind (name : String) (a : Action) : Step := .mk a (some name) false .own

def qubit (n : Int) : Operand := .const (.int .word n)

def physical (s : String) : Operand := .const (.string s)

def angle (x : Float) : Operand := .const (.float x)

def gate (name : String) (operands : List Operand) : Step :=
  match NativeGate.named? name with
  | some g => step (.gate g operands)
  | none => step (.fail ("unknown gate " ++ name))

def measure (qs : List Int) : Action := .measure (qs.map qubit)

def bell : Routine := Routine.main "bell"
  [gate "h" [qubit 0], gate "cnot" [qubit 0, qubit 1], step (measure [0, 1])] []

def ghz : Routine := Routine.main "ghz"
  [gate "h" [qubit 0],
   step (.unroll (some "i") (qubit 2)
     [bind "next" (.arithmetic .add (.named "i") (qubit 1)),
      gate "cnot" [.named "i", .named "next"]]),
   step (.barrier []),
   step (measure [0, 1, 2])] []

def superposition : Routine := Routine.main "superposition"
  [step (.loopOver (some "i") (qubit 0) (qubit 4) none [gate "h" [.named "i"]])]
  [.numQubits 4]

def measureAndCorrect : Routine := Routine.main "measure_and_correct"
  [gate "h" [qubit 0], gate "cnot" [qubit 0, qubit 1], bind "b" (measure [0]),
   step (.branch (.named "b") (some [gate "x" [qubit 1]]) none)] []

def coin : Routine := Routine.subroutine "coin" [⟨"q", some (Ty.qubit 0)⟩] (some (Ty.bit 0))
  [gate "h" [.arg 0], bind "b" (.measure [.arg 0])] (.named "b")

def coinFlips : Routine := Routine.main "coin_flips"
  [bind "first" (.call "coin" [qubit 0]), bind "second" (.call "coin" [qubit 1]),
   bind "same" (.compare .eq (.named "first") (.named "second")),
   step (.branch (.named "same") (some [gate "x" [qubit 2]]) none)] []

/-- The sum of the numbers up to its argument; it calls itself. -/
def triangle : Routine := Routine.subroutine "triangle" [⟨"n", some Ty.int⟩] (some Ty.int)
  [bind "done" (.compare .le (.arg 0) (qubit 1)),
   step (.branch (.named "done") (some [step (.leaveRoutine (.arg 0))]) none),
   bind "prev" (.arithmetic .sub (.arg 0) (qubit 1)),
   bind "rest" (.call "triangle" [.named "prev"]),
   bind "sum" (.arithmetic .add (.named "rest") (.arg 0))] (.named "sum")

def recursion : Routine := Routine.main "recursion" [step (.call "triangle" [qubit 4])] []

def entangle : Routine := Routine.gate "entangle"
  [⟨"a", some (Ty.qubit 0)⟩, ⟨"b", some (Ty.qubit 0)⟩, ⟨"theta", some Ty.angle⟩]
  [gate "ry" [.arg 0, .arg 2], gate "cnot" [.arg 0, .arg 1]]

def customGate : Routine := Routine.main "custom_gate"
  [step (.call "entangle" [qubit 0, qubit 1, angle (Angle.pi / 2)]),
   step (.call "entangle" [qubit 1, qubit 2, angle (Angle.pi / 4)])] []

def nativeDevice : Device := ⟨"Garnet", ["verbatim"]⟩

def verbatim : Routine := Routine.main "verbatim"
  [step (.verbatim
    [gate "rx" [physical "$0", angle (Angle.pi / 2)],
     gate "cz" [physical "$0", physical "$1"]])]
  [.device nativeDevice]

def pulseRx : Routine := Routine.main "pulse_rx"
  [gate "rx" [physical "$0", angle (Angle.pi / 2)], gate "rx" [physical "$0", angle Angle.pi]] []

/-- A rotation on the first physical qubit as a phase shift and a pulse. -/
def rxCalibration : Convert.CalibrationSpec :=
  { gate := "rx"
    qubits := [physical "$0"]
    angles := [.const (.expr (.var "theta" (some Ty.angle) none))]
    body := [step (.frameCall .shiftPhase "q0_rf_frame" (.arg 0)),
      step (.play "q0_rf_frame" "drag_gauss")] }

def builtin : List Demo :=
  [⟨"bell", "Bell pair, measured", .ofRoutines [bell], "bell", []⟩,
   ⟨"ghz", "3-qubit GHZ state from an unrolled loop", .ofRoutines [ghz], "ghz", []⟩,
   ⟨"superposition", "OpenQASM for loop over a 4-qubit register", .ofRoutines [superposition],
    "superposition", []⟩,
   ⟨"measure_and_correct", "if on a measured bit", .ofRoutines [measureAndCorrect],
    "measure_and_correct", []⟩,
   ⟨"coin_flips", "subroutine returning a bit, called twice", .ofRoutines [coin, coinFlips],
    "coin_flips", []⟩,
   ⟨"recursion", "recursive subroutine", .ofRoutines [triangle, recursion], "recursion", []⟩,
   ⟨"custom_gate", "user-defined gate", .ofRoutines [entangle, customGate], "custom_gate", []⟩,
   ⟨"verbatim", "verbatim box on physical qubits", .ofRoutines [verbatim], "verbatim", []⟩,
   ⟨"pulse_rx", "rx bound to a pulse calibration", .ofRoutines [pulseRx], "pulse_rx",
    [rxCalibration]⟩]

end QasmStudio.Demo

import QasmStudio.Convert.Qubit

/-!
# Pulse operations

Operations on the frames of a device. Using one marks the build as using pulse control, whether or
not its operands are accepted.
-/

namespace QasmStudio

inductive FrameOp where
  | shiftPhase
  | setPhase
  | setFrequency
  | shiftFrequency
  deriving DecidableEq, Repr, Inhabited

def FrameOp.name : FrameOp → String
  | shiftPhase => "shift_phase"
  | setPhase => "set_phase"
  | setFrequency => "set_frequency"
  | shiftFrequency => "shift_frequency"

namespace Convert

def requirePulse (h : Handle) (operation : String) : Convert Unit := do
  requireActive h operation
  allow .pulse
  updateContext fun c => { c with pulse := true }

def play (h : Handle) (frame waveform : String) : Convert Unit := do
  requirePulse h "play"
  emit (.eval (.call "play" [.frame frame, .waveform waveform] none))

def frameCall (h : Handle) (op : FrameOp) (frame : String) (arg : Value) : Convert Unit := do
  requirePulse h op.name
  let e ← expression arg
  emit (.eval (.call op.name [.frame frame, e] none))

/-- A target of a delay: a frame as it is, or a qubit. -/
def delayTarget : Value → Convert Expr
  | .expr (.frame name) => return .frame name
  | v => qubitOperand v

def delay (h : Handle) (ns : Int) (targets : List Value) : Convert Unit := do
  requirePulse h "delay"
  let ts ← targets.mapM delayTarget
  emit (.delay (.duration ns) ts)

end Convert

end QasmStudio

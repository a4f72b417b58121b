import QasmStudio.Convert.BuildId
import QasmStudio.Convert.Config
import QasmStudio.Error
import QasmStudio.Lang.Register

/-!
# Conversion contexts

The state of one build: the stack of programs being written, the definitions in progress, the
qubits seen and the names given out. The root program is at the bottom of the stack and
never leaves it; statements go to the program on top.
-/

namespace QasmStudio

inductive GateParam where
  | qubit (name : String)
  | angle (name : String)
  deriving DecidableEq, Repr, Inhabited

namespace GateParam

def var : GateParam → Var
  | qubit name => ⟨name, some (Ty.qubit 0), none⟩
  | angle name => ⟨name, some Ty.angle, none⟩

def isQubit : GateParam → Bool
  | qubit _ => true
  | angle _ => false

def name : GateParam → String
  | qubit name => name
  | angle name => name

def qubits (ps : List GateParam) : List Var := (ps.filter (·.isQubit)).map var

def angles (ps : List GateParam) : List Var := (ps.filter (!·.isQubit)).map var

def positions (p : GateParam → Bool) (i : Nat) : List GateParam → List Nat
  | [] => []
  | q :: qs => if p q then i :: positions p (i + 1) qs else positions p (i + 1) qs

end GateParam

structure GateRecord where
  name : String
  params : List GateParam

/-- Is the expression a variable named like one of the qubit parameters? -/
def GateRecord.hasQubit (r : GateRecord) : Expr → Bool
  | .var name _ _ => (GateParam.qubits r.params).any (·.name == name)
  | _ => false

def GateRecord.hasAngle (r : GateRecord) (name : String) : Bool :=
  (GateParam.angles r.params).any (·.name == name)

structure CalibrationRecord where
  gate : String
  qubits : List Expr
  angles : List Expr

/-- Stands in for a subroutine that is called again while its body is being converted. -/
structure Stub where
  name : String
  params : List Var
  returns : Option Ty
  /-- What it returns: the zero of its type. -/
  result : Zero

def Stub.definition (s : Stub) : SubroutineDef :=
  match s.result with
  | .absent => ⟨s.name, s.params, s.returns, [.return none], false⟩
  | .value e => ⟨s.name, s.params, s.returns, [.return (some e)], false⟩
  | .hollow => ⟨s.name, s.params, s.returns, [.return none], true⟩

structure Context where
  build : Nat := 0
  config : BuildConfig := {}
  /-- The variable that holds the result of the latest subroutine call. -/
  returned : Option Var := none
  converting : List (Nat × Stub) := []
  root : Program := {}
  /-- The programs on top of the root, innermost first. -/
  inner : List Program := []
  /-- The gate definitions in progress, innermost first. -/
  gates : List GateRecord := []
  /-- The calibration definitions in progress, innermost first. -/
  calibrations : List CalibrationRecord := []
  /-- The register indices in use, ascending. -/
  qubits : List Int := []
  /-- The generated names that were given out, the latest one first. -/
  given : List String := []
  pulse : Bool := false
  verbatim : Bool := false
  active : Bool := false
  buildId : String := BuildId.ofBytes []

def insertAscending (n : Int) : List Int → List Int
  | [] => [n]
  | m :: ms => if n < m then n :: m :: ms else if n = m then m :: ms else m :: insertAscending n ms

inductive Mode where
  | classical
  | unitary
  | pulse
  deriving DecidableEq, Repr, Inhabited

namespace Context

def start (build : Nat) (config : BuildConfig) (buildId : String) : Context :=
  { build := build, config := config, active := true, buildId := buildId }

/-- What is left of a context when its build returns. -/
def close (c : Context) : Context := { c with active := false }

/-- A context of a build that is over; it has number 0. -/
def finished : Context := (start 0 {} (BuildId.ofBytes [])).close

def current (c : Context) : Program := c.inner.headD c.root

def updateRoot (c : Context) (f : Program → Program) : Context := { c with root := f c.root }

def updateCurrent (c : Context) (f : Program → Program) : Context :=
  { c with
    root := match c.inner with
      | [] => f c.root
      | _ :: _ => c.root
    inner := c.inner.modifyHead f }

def stackSize (c : Context) : Nat := c.inner.length + 1

/-- The number of the next generated name, a word that counts those before it. -/
def nextVar (c : Context) : Int := Word.wrap c.given.length

def register (c : Context) (index : Int) : Context :=
  { c with qubits := insertAscending index c.qubits }

/-- The error of an operation that is not allowed where the conversion is. A gate definition
allows unitary operations only, a calibration pulse operations only. -/
def refusal? (c : Context) (mode : Mode) : Option DomainError :=
  match c.gates, c.calibrations with
  | g :: _, cals =>
    if mode ≠ .unitary then some (.invalidGate g.name "" .notUnitary)
    else match cals with
      | cal :: _ => some (.invalidCalibration cal.gate .notPulse)
      | [] => none
  | [], cal :: _ =>
    if mode ≠ .pulse then some (.invalidCalibration cal.gate .notPulse) else none
  | [], [] => none

/-- The first operand that is foreign to the gate definition in progress. Angles matter only when
they are variables. -/
def foreign? (c : Context) (qubits angles : List Expr) : Option DomainError :=
  match c.gates with
  | [] => none
  | r :: _ =>
    match qubits.find? (!r.hasQubit ·) with
    | some q => some (.invalidGate r.name q.render (.foreignQubit q.render))
    | none => angles.findSome? fun
      | .var name _ _ =>
        if r.hasAngle name then none else some (.invalidGate r.name name (.foreignVariable name))
      | _ => none

/-- The size of the register: the declared one, or one more than the highest index in use. -/
def registerSize (c : Context) : Int :=
  match c.config.declared?, c.qubits.getLast? with
  | some n, _ => n
  | none, some q => Word.add q 1
  | none, none => c.config.numQubits

/-- The program of the build so far, the pulse grammar announced if it is needed. -/
def result (c : Context) : BuiltProgram :=
  ⟨if c.pulse then c.root.enablePulse else c.root, c.pulse, c.registerSize, c.buildId⟩

end Context

/-- The text around the number of a generated name, for the kinds that have such names. -/
def nameStem? : Kind → Option String
  | .array => some "__array_"
  | .bit => some "__bit_"
  | .bool => some "__bool_"
  | .float => some "__float_"
  | .int => some "__int_"
  | _ => none

def generatedName (stem : String) (n : Int) : String := stem ++ Word.render n ++ "__"

/-- The name with the next number is given out. -/
def Context.giveOut (c : Context) (stem : String) : Context :=
  { c with given := generatedName stem c.nextVar :: c.given }

end QasmStudio

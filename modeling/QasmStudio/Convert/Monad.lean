import QasmStudio.Convert.Context
import QasmStudio.Script.Operand

/-!
# Conversions

`Convert α` is a step of a conversion: it reads and changes the state, and ends with a value or
stops. The state survives a stop, so whoever catches an error goes on where it left off; every
operation that opens a block, a definition or a program closes it on every exit.
-/

namespace QasmStudio

inductive Report where
  | done
  | value (v : Value)
  | flag (b : Bool)
  | text (s : String)
  | numbers (ns : List Int)
  | qubitCount (n : Int) (known : Bool)
  | config (c : BuildConfig) (supports : Bool)
  /-- The depth and the source of a program under construction. -/
  | draft (depth : Nat) (source : String)
  /-- How many parameters a gate has, and the positions of its qubits and angles. -/
  | parameters (count : Nat) (qubits angles : List Nat)

structure Event where
  word : String
  outcome : Except Error Report

/-- Why a conversion stops. Only errors can be caught. -/
inductive Stop where
  | error (e : Error)
  | fault (f : Fault)
  /-- An operand of the script is no expression. -/
  | operand (e : ExprError)
  /-- The conversion ran longer than it was allowed to. -/
  | exhausted

structure State where
  ctx : Context := Context.finished
  /-- A context whose build is over. What is done to it stays done. -/
  finished : Context := Context.finished
  builds : Nat := 0
  /-- The root programs of the builds that wait or are over, by number, the latest first. -/
  roots : List (Nat × Program) := []
  bindings : Bindings := {}
  log : List Event := []
  /-- Random bytes for build identifiers; zeros follow when they are used up. -/
  entropy : List UInt8 := []

def State.rootOf (s : State) (build : Nat) : Program :=
  if build = s.finished.build then s.finished.root
  else if build = s.ctx.build then s.ctx.root
  else (s.roots.lookup build).getD {}

abbrev Convert := ExceptT Stop (StateM State)

namespace Convert

def raise {α : Type} (e : Error) : Convert α := throw (.error e)

def refuse {α : Type} (e : DomainError) : Convert α := raise (.domain e)

def liftFault {α : Type} : Except Fault α → Convert α
  | .ok a => pure a
  | .error f => throw (.fault f)

def liftOperand {α : Type} : Except ExprError α → Convert α
  | .ok a => pure a
  | .error e => throw (.operand e)

def context : Convert Context := return (← get).ctx

def updateContext (f : Context → Context) : Convert Unit := modify fun s => { s with ctx := f s.ctx }

def updateCurrent (f : Program → Program) : Convert Unit := updateContext (·.updateCurrent f)

def updateRoot (f : Program → Program) : Convert Unit := updateContext (·.updateRoot f)

def emit (s : Stmt) : Convert Unit := updateCurrent (·.add s)

def expression (v : Value) : Convert Expr :=
  match v.toExpr with
  | .ok e => pure e
  | .error e => raise (.value e)

/-- Which context an operation is handed: the one of its body, none at all, or one whose build is
over. -/
inductive Handle where
  | own
  | absent
  | finished
  deriving DecidableEq, Repr, Inhabited

/-- The context that is handed over. -/
def handed? (h : Handle) (s : State) : Option Context :=
  match h with
  | .own => some s.ctx
  | .finished => some s.finished
  | .absent => none

/-- The build of the context that is handed over goes on. Whatever is done then is done in the
context of the body, so that one has to be active, too. -/
def isActive (h : Handle) : Convert Bool := do
  let s ← get
  return (handed? h s).any (·.active) && s.ctx.active

def requireActive (h : Handle) (operation : String) : Convert Unit := do
  if !(← isActive h) then refuse (.outsideProgram operation)

def allow (mode : Mode) : Convert Unit := do
  match (← context).refusal? mode with
  | some e => refuse e
  | none => pure ()

/-- What every classical operation checks first. -/
def requireClassical (h : Handle) (operation : String) : Convert Unit := do
  requireActive h operation
  allow .classical

def freshName (kind : Kind) : Convert String := do
  match nameStem? kind with
  | none => raise (.noName kind)
  | some stem =>
    let n := (← context).nextVar
    updateContext (·.giveOut stem)
    return generatedName stem n

def declare (v : Var) : Convert Unit := do
  match (← context).current.declare? v with
  | none => raise (.alreadyDeclared v.name)
  | some p => updateCurrent fun _ => p

def register (indices : List Int) : Convert Unit :=
  updateContext fun c => indices.foldl Context.register c

/-- Runs `m` between two changes of the state; the second one happens on every exit. -/
def bracket {α : Type} (enter leave : State → State) (m : Convert α) : Convert α := fun s =>
  let (r, s) := m (enter s)
  (r, leave s)

def bracketContext {α : Type} (enter leave : Context → Context) (m : Convert α) : Convert α :=
  bracket (fun s => { s with ctx := enter s.ctx }) (fun s => { s with ctx := leave s.ctx }) m

def block (m : Convert Unit) : Convert (List Stmt) :=
  bracketContext (·.updateCurrent Program.openBlock) (·.updateCurrent Program.closeBlock) do
    m
    return (← context).current.innermost

def withProgram {α : Type} (p : Program) (m : Convert α) : Convert α :=
  bracketContext (fun c => { c with inner := p :: c.inner })
    (fun c => { c with inner := c.inner.tail }) m

def withGate {α : Type} (r : GateRecord) (m : Convert α) : Convert α :=
  bracketContext (fun c => { c with gates := r :: c.gates })
    (fun c => { c with gates := c.gates.tail }) m

def withCalibration {α : Type} (r : CalibrationRecord) (m : Convert α) : Convert α :=
  bracketContext (fun c => { c with calibrations := r :: c.calibrations })
    (fun c => { c with calibrations := c.calibrations.tail }) m

def withStub {α : Type} (key : Nat) (stub : Stub) (m : Convert α) : Convert α :=
  bracketContext (fun c => { c with converting := (key, stub) :: c.converting })
    (fun c => { c with converting := c.converting.filter (·.1 != key) }) m

/-- Runs `m` with other bindings; the old ones come back on every exit. -/
def withBindings {α : Type} (b : Bindings) (m : Convert α) : Convert α := fun s =>
  let (r, s') := m { s with bindings := b }
  (r, { s' with bindings := s.bindings })

/-- Runs `m` in a new context of its own; the old one comes back on every exit. The one that is left
is closed, and its root goes to the others. -/
def inNewContext {α : Type} (config : BuildConfig) (m : Convert α) : Convert α := fun s =>
  let n := s.builds + 1
  let ctx := Context.start n config (BuildId.ofBytes (s.entropy.take 16))
  let roots := (s.ctx.build, s.ctx.root) :: s.roots
  let (r, s') := m { s with ctx := ctx, builds := n, roots := roots, entropy := s.entropy.drop 16 }
  (r, { s' with ctx := s.ctx, roots := (n, s'.ctx.close.root) :: s'.roots })

/-- Makes the finished context the one that is worked in, and puts the other in its place. -/
def exchange (s : State) : State := { s with ctx := s.finished, finished := s.ctx }

/-- Runs `m` with the two contexts exchanged; inside of another exchange it is back in its own. -/
def exchanging {α : Type} (m : Convert α) : Convert α := bracket exchange exchange m

def mapError {α : Type} (f : Error → Error) (m : Convert α) : Convert α := fun s =>
  match m s with
  | (.error (.error e), s) => (.error (.error (f e)), s)
  | r => r

def tagging {α : Type} (m : Convert α) : Convert α := mapError Error.tag m

def settling {α : Type} (m : Convert α) : Convert α := mapError Error.settle m

end Convert

end QasmStudio

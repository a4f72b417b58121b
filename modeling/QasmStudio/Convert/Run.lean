import QasmStudio.Convert.Call

/-!
# Running bodies

`Convert.perform` carries out one operation, given how bodies are run; `Convert.run` ties the
knot. Bodies run other routines, so a run is given a bound on how deep it may nest and how often a
loop may turn while converting.
-/

namespace QasmStudio.Convert

def value (o : Operand) : Convert Value := do liftOperand (o.eval (← get).bindings)

def values (os : List Operand) : Convert (List Value) := do
  liftOperand (Operand.evals (← get).bindings os)

def exprs (os : List Operand) : Convert (List Expr) := do
  liftOperand (Operand.exprs (← get).bindings os)

def bindName (name : Option String) (v : Value) : Convert Unit :=
  match name with
  | none => pure ()
  | some n => modify fun s => { s with bindings := s.bindings.bind n v }

def inspect (h : Handle) (f : Context → Report) : Convert Report := do
  match handed? h (← get) with
  | some c => return f c
  | none => liftFault (.error .missingPart)

/-- Runs an operation in the context that was handed over. It is given the way in which the bodies
in it are run: they are in their own context still. -/
def onHandle {α : Type} (h : Handle) (m : (Convert Unit → Convert Unit) → Convert α) : Convert α :=
  match h with
  | .own => m id
  | .finished => exchanging (m exchanging)
  | .absent => liftFault (.error .missingPart)

def calibrationSource (d : CalibrationDef) : String := (Program.empty.addCalibration d).render

def defineCalibration (gate : String) (qubits angles : List Expr) (body : Convert Unit) :
    Convert CalibrationDef :=
  withCalibration ⟨gate, qubits, angles⟩ do
    allow .pulse
    let stmts ← block body
    return ⟨gate, angles, qubits, stmts⟩

def routine (lib : Library) (id : String) : Convert (Nat × Routine) :=
  match lib.find? id with
  | some r => pure r
  | none => liftFault (.error .missingPart)

def stacksOf (c : Context) : Report :=
  .numbers [c.stackSize, c.gates.length, c.calibrations.length, c.converting.length, c.nextVar]

def configOf (pragma : String) (c : Context) : Report :=
  .config c.config (c.config.device.supports pragma)

def parametersOf (params : List GateParam) : Report :=
  .parameters params.length (GateParam.positions GateParam.isQubit 0 params)
    (GateParam.positions (!·.isQubit) 0 params)

def bindParams (b : Bindings) (params : List GateParam) : Bindings :=
  params.foldl (fun b p => b.bind p.name (.expr p.var.expr)) b

def draftOf (main : Bool) (mode : Mode) : Convert Report := do
  allow mode
  let c ← context
  let p := if main then c.root else c.current
  if p.isHollow then liftFault (.error .missingPart)
  return .draft p.depth p.render

/-- A generated name. A kind without names is told even without a context. -/
def nextName (h : Handle) (kind : Kind) : Convert String :=
  if (nameStem? kind).isNone then raise (.noName kind) else onHandle h fun _ => freshName kind

/-- Carries out an operation; `again` runs the bodies in it. -/
def perform (again : Runner) (lib : Library) (fuel : Nat) (h : Handle) : Action → Convert Report
  | .gate g operands => do
    applyNative h g (← values operands)
    return .done
  | .measure qubits => return .value (.expr (← measure h (← values qubits)).expr)
  | .reset q => do
    reset h (← value q)
    return .done
  | .barrier qubits => do
    barrier h (← values qubits)
    return .done
  | .compare c l r => do
    let a ← value l
    return .value (← compare h c a (← value r))
  | .logical c l r => do
    let a ← value l
    return .value (← logical h c a (← value r))
  | .not x => return .value (← negate h (← value x))
  | .arithmetic op l r => do
    let a ← value l
    return .value (← arithmetic op a (← value r))
  | .newVar kind init => do
    let v ← newVar h kind.ty (initial? (← value init))
    return .value (.expr v.expr)
  | .newArray elem dims init => do
    let v ← newArray h elem dims (← value init)
    return .value (.expr v.expr)
  | .assign name v => return .value (← assign h name (← value v))
  | .call id args => do
    let (key, r) ← routine lib id
    return .value (← call again h key r (← values args))
  | .build id settings => do
    let (_, r) ← routine lib id
    return .value (.program (← build again r settings))
  | .name v => return .value (← value v)
  | .branch cond thn els => do
    branch h (← value cond) (again (thn.getD [])) (els.map again)
    return .done
  | .unroll name iter body => do
    unroll (← value iter) fun v => do
      bindName name v
      again body
    return .done
  | .loopOver name start stop step body => do
    let a ← value start
    let b ← value stop
    let c ← match step with
      | none => pure none
      | some s => initial? <$> value s
    loopOver h ⟨a, b, c⟩ fun v => do
      bindName name v
      again body
    return .done
  | .whileLoop cond test body => do
    whileLoop h fuel (do again cond; value test) (again body)
    return .done
  | .leaveLoop => do
    leaveLoop h
    return .done
  | .nextTurn => do
    nextTurn h
    return .done
  | .leaveRoutine v => do
    leaveRoutine h (← value v)
    return .done
  | .verbatim body => do
    verbatim h (again body)
    return .done
  | .play frame waveform => do
    play h frame waveform
    return .done
  | .frameCall op frame arg => do
    frameCall h op frame (← value arg)
    return .done
  | .delay ns targets => do
    delay h ns (← values targets)
    return .done
  | .fail message => raise (.user message)
  | .isActive => return .flag (← isActive h)
  | .stacks => inspect h stacksOf
  | .nextName kind => .text <$> nextName h kind
  | .registerQubit n => onHandle h fun _ => do
    register [n]
    return .numbers (← context).qubits
  | .qubits => inspect h fun c => .numbers c.qubits
  | .isVarUsed name => inspect h fun c => .flag (c.current.isUsed name)
  | .declaredQubits =>
    inspect h fun c => .qubitCount c.config.numQubits c.config.declared?.isSome
  | .config pragma => inspect h (configOf pragma)
  | .buildId => inspect h fun c => .text c.buildId
  | .returned => inspect h fun c => match c.returned with
    | some v => .value (.expr v.expr)
    | none => .done
  | .draft main mode => onHandle h fun _ => draftOf main mode
  | .result => onHandle h fun _ => do
    let p ← makeProgram
    return .value (.draft (← context).build p)
  | .inProgram body => do
    onHandle h fun run => withProgram {} (run (again body))
    return .done
  | .gateDef name params body => do
    let body := withBindings (bindParams (← get).bindings params) (again body)
    onHandle h fun run => defineGate name params (run body)
    return parametersOf params
  | .calibrationDef gate qubits angles body => do
    let qs ← exprs qubits
    let as ← exprs angles
    let d ← onHandle h fun run => defineCalibration gate qs as (run (again body))
    return .text (calibrationSource d)
  | .validateTargets qubits angles => do
    let qs ← exprs qubits
    let as ← exprs angles
    onHandle h fun _ => do
      match (← context).foreign? qs as with
      | some e => refuse e
      | none => return .done
  | .nestedBuild config body => do
    if ← isActive h then again body else inNewContext config (again body)
    return .done

/-- A report with the drafts in it as they stand. -/
def settledReport (s : State) : Report → Report
  | .value v => .value (v.settled s.rootOf)
  | report => report

def note (word : String) (outcome : Except Error Report) (s : State) : State :=
  { s with log := ⟨word, outcome.map (settledReport s)⟩ :: s.log }

def step (again : Runner) (lib : Library) (fuel : Nat) : Step → Convert Unit
  | .mk action target guarded h => fun s =>
    match perform again lib fuel h action s with
    | (.ok report, s) =>
      let s := note action.word (.ok report) s
      match report with
      | .value v => bindName target v s
      | _ => (.ok (), s)
    | (.error (.error e), s) =>
      (if guarded then .ok () else .error (.error e), note action.word (.error e) s)
    | (.error stop, s) => (.error stop, s)

/-- Runs the steps of a body, up to the first that fails unguarded. -/
def run (lib : Library) : Nat → Runner
  | 0, _ => throw .exhausted
  | fuel + 1, steps => steps.forM (step (run lib fuel) lib fuel)

/-- A bound on nesting and on turns that no sensible library reaches. -/
def ampleFuel : Nat := 100000

structure CalibrationSpec where
  gate : String
  qubits : List Operand
  angles : List Operand
  body : List Step

def calibrationQubit (gate : String) (q : Value) : Convert Expr := do
  let t ← liftDomain ((← context).resolve q)
  if t.index.isSome then refuse (.invalidCalibration gate (.virtualQubit t.expr.render))
  return t.expr

def calibrateWith (again : Runner) (spec : CalibrationSpec) : Convert CalibrationDef := do
  let qubits ← values spec.qubits
  let angles ← values spec.angles
  match NativeGate.named? spec.gate with
  | none => refuse (.invalidCalibration spec.gate .notNative)
  | some g =>
    if qubits.length ≠ g.qubits ∨ angles.length ≠ g.angles then
      refuse (.invalidCalibration spec.gate
        (.shape g.qubits g.angles qubits.length angles.length))
    settling <| inNewContext {} do
      let qs ← qubits.mapM (calibrationQubit spec.gate)
      let as ← angles.mapM angleOperand
      defineCalibration spec.gate qs as (withBindings { args := as.map .expr } (again spec.body))

def calibrate (lib : Library) (spec : CalibrationSpec) : Convert CalibrationDef :=
  calibrateWith (run lib ampleFuel) spec

def buildRoutine (lib : Library) (id : String) (settings : List Setting) :
    Convert BuiltProgram := do
  let (_, r) ← routine lib id
  build (run lib ampleFuel) r settings

def callRoutine (lib : Library) (id : String) (args : List Operand) : Convert Value := do
  let (key, r) ← routine lib id
  call (run lib ampleFuel) .absent key r (← values args)

/-- Runs a conversion from the start with a finished context that others have left behind. Gives
its events in order, and that context. -/
def startWith {α : Type} (finished : Context) (m : Convert α) (entropy : List UInt8) :
    Except Stop α × List Event × Context :=
  let (r, s) := m { finished := finished, entropy := entropy }
  (r, s.log.reverse, s.finished)

def start {α : Type} (m : Convert α) (entropy : List UInt8) : Except Stop α × List Event :=
  let (r, events, _) := startWith Context.finished m entropy
  (r, events)

/-- The result of a conversion, or its error. An operand that is no expression is an error too. -/
def outcome {α : Type} : Except Stop α → Except Fault (Except Error α)
  | .ok a => .ok (.ok a)
  | .error (.error e) => .ok (.error e)
  | .error (.operand e) => .ok (.error (.value e))
  | .error (.fault f) => .error f
  | .error .exhausted => .error .unfinished

end QasmStudio.Convert

namespace QasmStudio

def BuiltProgram.bind (p : BuiltProgram) (calibrations : List CalibrationDef) : BuiltProgram :=
  { p with
    program := (calibrations.foldl Program.addCalibration p.program.copy).enablePulse
    pulse := true }

end QasmStudio

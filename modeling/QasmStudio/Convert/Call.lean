import QasmStudio.Convert.Routine

/-!
# Calls

What calling a routine does. Outside of a build it starts one. During a build a subroutine is
defined once, at the root, and a call is emitted; a gate is defined once and applied. A subroutine
that is called again while its body is being converted is represented by a stub.
-/

namespace QasmStudio.Convert

abbrev Runner := List Step → Convert Unit

/-- Runs the body of a routine on its arguments, with names of its own, and returns its result. -/
def runBody (again : Runner) (r : Routine) (args : List Value) : Convert Value :=
  let args := if r.kind = .main then [] else args
  withBindings { args := args } do
    again r.body
    if r.kind = .subroutine then liftOperand (r.result.eval (← get).bindings) else return .none

/-- Puts the declaration of the qubit register in front of the root program, if there are qubits. -/
def declareRegister : Convert Unit := do
  let c ← context
  match c.config.declared?, c.qubits.getLast? with
  | none, none => pure ()
  | some n, some q =>
    if n ≤ q then refuse (.insufficientQubits n (Word.add q 1)) else declareSize n
  | some n, none => declareSize n
  | none, some q => declareSize (Word.add q 1)
where
  declareSize (n : Int) : Convert Unit := do
    allow .classical
    let v : Var := ⟨registerName, some (Ty.qubit n), none⟩
    updateRoot fun p => (p.markDeclared v).prepend (.declare v)

def makeProgram : Convert BuiltProgram := do
  let c ← context
  if c.pulse then updateRoot (·.enablePulse)
  return c.result

def buildProgram (again : Runner) (r : Routine) (config : BuildConfig) (args : List Value) :
    Convert BuiltProgram :=
  inNewContext config do
    let _ ← runBody again r args
    declareRegister
    makeProgram

def bindArgument (routine : String) (p : Param) (arg : Value) : Convert Expr := do
  match p.ty with
  | none => liftFault (.error .missingPart)
  | some t =>
    if t.kind = .qubit then qubitOperand arg
    else match arg.toExpr with
      | .error e =>
        refuse (.invalidArguments routine (.parameterValue p.name (Error.value e).message))
      | .ok e =>
        if ← liftFault (assignable t e.ty) then return e
        else refuse (.invalidArguments routine (.parameterType p.name (some t) e.ty))

def bindArguments (routine : String) : List Param → List Value → Convert (List Expr)
  | p :: ps, v :: vs => do
    let e ← bindArgument routine p v
    return e :: (← bindArguments routine ps vs)
  | _, _ => return []

def checkTypes (r : Routine) : Convert Unit :=
  match r.untyped? with
  | some p => refuse (.missingType r.name p.name)
  | none => pure ()

def checkCount (r : Routine) (args : List Value) : Convert Unit :=
  if args.length ≠ r.params.length then
    refuse (.invalidArguments r.name (.count r.params.length args.length))
  else pure ()

/-- The stand-in for a routine in conversion. It returns the zero of the result type. -/
def makeStub (r : Routine) (params : List Var) : Convert Stub := do
  let result ← match r.returns with
    | none => pure .absent
    | some t => liftFault t.zero
  return ⟨r.name, params, r.returns, result⟩

def emitResult (r : Routine) (value : Value) : Convert Unit := do
  match r.returns, value with
  | none, _ => pure ()
  | some t, .none => refuse (.invalidArguments r.name (.noResult (some t)))
  | some _, v => match v.toExpr with
    | .ok e => emit (.return (some e))
    | .error e => raise (.inResult r.name (.value e))

/-- Converts the body of a subroutine in a program of its own and defines it at the root, unless
its name has been defined meanwhile. -/
def defineSubroutine (again : Runner) (key : Nat) (r : Routine) : Convert Unit := do
  let params := r.params.map fun p => (⟨p.name, p.ty, none⟩ : Var)
  let stub ← makeStub r params
  let body ← withStub key stub <| withProgram (params.foldl Program.markDeclared {}) do
    let value ← runBody again r (params.map fun v => .expr v.expr)
    emitResult r value
    return (← context).current.body
  if !(← context).root.hasSubroutine r.name then
    updateRoot (·.addSubroutine ⟨r.name, params, r.returns, body, false⟩)

/-- Emits the call of a subroutine; what it returns goes to a new variable. -/
def emitCall (r : Routine) (args : List Expr) : Convert (Option Var) := do
  let call : Expr := .call r.name args r.returns
  match r.returns with
  | none =>
    emit (.eval call)
    updateContext fun c => { c with returned := none }
    return none
  | some t =>
    let v : Var := ⟨← freshName t.kind, some t, some call⟩
    declare v
    updateContext fun c => { c with returned := some v }
    return some v

/-- Calls a subroutine: the definition is made if it is missing, and the call is emitted. -/
def callSubroutine (again : Runner) (key : Nat) (r : Routine) (args : List Value) :
    Convert (Option Var) := do
  allow .classical
  checkTypes r
  checkCount r args
  let exprs ← bindArguments r.name r.params args
  match (← context).converting.lookup key with
  | some stub => updateCurrent (·.addSubroutine stub.definition)
  | none =>
    if !(← context).root.hasSubroutine r.name then defineSubroutine again key r
  emitCall r exprs

/-- Runs the body of a gate definition in a block of the current program and defines the gate at
the root, unless its name has been defined meanwhile. -/
def defineGate (name : String) (params : List GateParam) (body : Convert Unit) : Convert Unit :=
  withGate ⟨name, params⟩ do
    allow .unitary
    let stmts ← block body
    if !(← context).root.hasGate name then
      updateRoot (·.addGate ⟨name, GateParam.angles params, GateParam.qubits params, stmts⟩)

def gateParam (r : Routine) (p : Param) : Except DomainError GateParam :=
  match p.ty with
  | some t => match t.kind with
    | .qubit => .ok (.qubit p.name)
    | .angle | .float => .ok (.angle p.name)
    | _ => .error (.invalidGate r.name p.name (.parameterType p.name p.ty))
  | none => .error (.invalidGate r.name p.name (.parameterType p.name p.ty))

/-- Defines a gate routine. A gate that is being defined cannot be defined again. -/
def defineGateRoutine (again : Runner) (r : Routine) : Convert Unit := do
  if (← context).gates.any (·.name == r.name) then refuse (.invalidGate r.name "" .recursive)
  let params ← liftDomain (r.params.mapM (gateParam r))
  defineGate r.name params do
    let _ ← runBody again r (params.map fun p => .expr p.var.expr)

def argumentsFor (p : Param → Bool) (ps : List Param) (args : List Value) : List Value :=
  ((ps.zip args).filter fun x => p x.1).map (·.2)

def Param.isQubit (p : Param) : Bool := p.ty.any (·.kind = .qubit)

def callGate (again : Runner) (h : Handle) (r : Routine) (args : List Value) : Convert Unit := do
  requireActive h ("gate " ++ Text.quote r.name)
  checkTypes r
  checkCount r args
  allow .unitary
  if !(← context).root.hasGate r.name then defineGateRoutine again r
  applyGate h r.name (argumentsFor Param.isQubit r.params args)
    (argumentsFor (fun p => !Param.isQubit p) r.params args)

/-- Stops a routine whose configuration asks for a negative number of qubits. -/
def checkQubits (r : Routine) (config : BuildConfig) : Convert Unit :=
  if config.numQubits < 0 then
    refuse (.invalidArguments r.name (.negativeQubits config.numQubits))
  else pure ()

/-- Stops a nested main program that asks for another register size than the build has. -/
def checkRegister (r : Routine) : Convert Unit := do
  match r.config with
  | none => pure ()
  | some asked =>
    let declared := (← context).config.numQubits
    if asked.numQubits ≠ 0 ∧ asked.numQubits ≠ declared then
      refuse (.inconsistentQubits declared asked.numQubits)

/-- Calls a routine. The result is a program outside of a build, and otherwise the variable that
holds what the routine returns, if it returns anything. -/
def call (again : Runner) (h : Handle) (key : Nat) (r : Routine) (args : List Value) :
    Convert Value := settling do
  if r.kind = .gate then
    callGate again h r args
    return .none
  let config := r.config.getD {}
  checkQubits r config
  if ← isActive h then
    checkRegister r
    match ← callSubroutine again key r args with
    | some v => return .expr v.expr
    | none => return .none
  else return .program (← buildProgram again r config args)

/-- Builds a routine as a program; the settings override what the routine asks for. -/
def build (again : Runner) (r : Routine) (settings : List Setting) : Convert BuiltProgram := do
  if r.kind = .gate then refuse (.invalidArguments r.name .gateAsProgram)
  let config := (r.config.getD {}).with settings
  checkQubits r config
  settling (buildProgram again r config [])

end QasmStudio.Convert

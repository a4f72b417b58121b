import QasmStudio.Error
import QasmStudio.Fault
import QasmStudio.Script.Operand

/-!
# The workbench

A list of programs, one of them current, and a script of operations on them. A failed operation
ends its list and the error goes up, unless the operation is guarded. A block is closed on the
program it was opened on, whichever program is current by then.
-/

namespace QasmStudio.Workbench

structure VarSpec where
  name : String
  ty : Option Ty
  init : Option Operand := none
  deriving Inhabited

mutual
inductive Action where
  | declare (v : VarSpec)
  | markDeclared (v : VarSpec)
  | addPending (v : VarSpec)
  | set (v : VarSpec) (value : Operand)
  | isUsed (name : String)
  | lookup (name : String)
  | declaredNames
  | gate (name : String) (qubits args : List Operand)
  | reset (qubit : Operand)
  | barrier (qubits : List Operand)
  | delay (duration : Operand) (targets : List Operand)
  | pragma (text : String)
  | leave
  | next
  | result (value : Option Operand)
  | assign (target value : Operand)
  | eval (value : Operand)
  | prepend (body : List Step)
  | block (body : List Step)
  | branch (cond : Operand) (thn : List Step) (els : Option (List Step))
  | forIn (v : VarSpec) (iter : Operand) (body : List Step)
  | loop (cond : Operand) (body : List Step)
  | box (body : List Step)
  | addGate (name : String) (angles qubits : List VarSpec) (body : List Step)
  | hasGate (name : String)
  | gates
  | addSubroutine (name : String) (params : List VarSpec) (returns : Option Ty) (body : List Step)
  | hasSubroutine (name : String)
  | subroutine (name : String)
  | subroutines
  | addCalibration (gate : String) (angles qubits : List Operand) (body : List Step)
  | calibrations
  | enablePulse
  /-- Appends a copy of the current program and makes it current. -/
  | copy
  | use (n : Int)
  | bodyCount
  | fail (message : String)
  | source

/-- An operation. A guarded one does not end its list when it fails. -/
inductive Step where
  | mk (action : Action) (guarded : Bool)
end

instance : Inhabited Action := ⟨.source⟩

def Action.word : Action → String
  | .declare .. => "declare"
  | .markDeclared .. => "mark_declared"
  | .addPending .. => "add_undeclared"
  | .set .. => "set"
  | .isUsed .. => "is_used"
  | .lookup .. => "lookup"
  | .declaredNames => "declared_vars"
  | .gate .. => "gate"
  | .reset .. => "reset"
  | .barrier .. => "barrier"
  | .delay .. => "delay"
  | .pragma .. => "pragma"
  | .leave => "break"
  | .next => "continue"
  | .result .. => "return"
  | .assign .. => "assign"
  | .eval .. => "do"
  | .prepend .. => "prepend"
  | .block .. => "block"
  | .branch .. => "if"
  | .forIn .. => "for"
  | .loop .. => "while"
  | .box .. => "box"
  | .addGate .. => "add_gate"
  | .hasGate .. => "has_gate"
  | .gates => "gates"
  | .addSubroutine .. => "add_subroutine"
  | .hasSubroutine .. => "has_subroutine"
  | .subroutine .. => "subroutine"
  | .subroutines => "subroutines"
  | .addCalibration .. => "add_defcal"
  | .calibrations => "defcals"
  | .enablePulse => "enable_pulse"
  | .copy => "clone"
  | .use .. => "use"
  | .bodyCount => "body_count"
  | .fail .. => "fail"
  | .source => "ir"

inductive Report where
  | nothing
  | flag (b : Bool)
  | count (n : Nat)
  | text (s : String)
  | names (ns : List String)
  | variable (v : Option Var)
  /-- How many parameters a subroutine has, its result type, and how many statements. -/
  | signature (params : Nat) (returns : Option Ty) (statements : Nat)

/-- What is known after an operation: its report and error, and the current program's depth,
number of top-level statements and pending names. -/
structure Entry where
  word : String
  report : Report
  error : Option Error
  depth : Nat
  top : Nat
  pending : List String

structure State where
  programs : List Program := [Program.empty]
  current : Nat := 0
  bindings : Bindings := {}
  /-- The entries so far, the latest first. -/
  entries : List Entry := []

inductive Stop where
  | error (e : Error)
  | fault (f : Fault)
  /-- An operand of the script is no expression. -/
  | operand (e : ExprError)

/-- Runs over a state; the state survives an error. -/
abbrev Work := ExceptT Stop (StateM State)

namespace State

def program (s : State) (i : Nat) : Program := s.programs.getD i Program.empty

def update (s : State) (i : Nat) (f : Program → Program) : State :=
  { s with programs := s.programs.modify i f }

end State

def raise {α : Type} (e : Error) : Work α := throw (.error e)

def current : Work Program := do
  let s ← get
  return s.program s.current

def update (f : Program → Program) : Work Unit := modify fun s => s.update s.current f

def add (stmt : Stmt) : Work Unit := update (·.add stmt)

def liftOperand {α : Type} : Except ExprError α → Work α
  | .ok a => pure a
  | .error e => throw (.operand e)

def expr (o : Operand) : Work Expr := do liftOperand (o.toExpr (← get).bindings)

def exprs (os : List Operand) : Work (List Expr) := do
  liftOperand (Operand.exprs (← get).bindings os)

def newVar (v : VarSpec) : Work Var := do
  let init ← match v.init with
    | none => pure none
    | some o => some <$> expr o
  let var : Var := ⟨v.name, v.ty, init⟩
  modify fun s => { s with bindings := s.bindings.bind v.name (.expr var.expr) }
  return var

/-- The variable bound to a name, or else a new one. -/
def boundVar (v : VarSpec) : Work Var := do
  match (← get).bindings.get v.name with
  | .expr (.var name ty init) => return ⟨name, ty, init⟩
  | _ => newVar v

/-- Runs `body` in a new block of program `i` and returns its statements. The block is closed on
every exit. -/
def block (i : Nat) (body : Work Unit) : Work (List Stmt) := fun s =>
  let (r, s) := body (s.update i (·.openBlock))
  (r.map fun _ => (s.program i).innermost, s.update i (·.closeBlock))

/-- Runs `body` on an empty program of its own and returns that program's body, whichever program
is current by then. -/
def aside (body : Work Unit) : Work (List Stmt) := fun s =>
  let (r, s') := body { s with programs := [Program.empty], current := 0, entries := [] }
  (r.map fun _ => (s'.program 0).body, { s with bindings := s'.bindings })

def addTo (i : Nat) (stmt : Stmt) : Work Unit := modify (·.update i (·.add stmt))

def perform (again : List Step → Work Unit) : Action → Work Report
  | .declare v => do
    let var ← newVar v
    match (← current).declare? var with
    | none => raise (.alreadyDeclared var.name)
    | some p => update fun _ => p
    return .nothing
  | .markDeclared v => do
    let var ← newVar v
    update (·.markDeclared var)
    return .nothing
  | .addPending v => do
    let var ← newVar v
    update (·.addPending var)
    return .nothing
  | .set v value => do
    let var ← boundVar v
    let e ← expr value
    update (·.set var e)
    return .nothing
  | .isUsed name => return .flag ((← current).isUsed name)
  | .lookup name => return .variable ((← current).lookup? name)
  | .declaredNames => return .names (← current).declaredNames
  | .gate name qubits args => do
    let qs ← exprs qubits
    let as ← exprs args
    add (.gate name as qs)
    return .nothing
  | .reset q => do
    add (.reset (← expr q))
    return .nothing
  | .barrier qs => do
    add (.barrier (← exprs qs))
    return .nothing
  | .delay d targets => do
    let e ← expr d
    add (.delay e (← exprs targets))
    return .nothing
  | .pragma t => do
    add (.pragma t)
    return .nothing
  | .leave => do
    add .break
    return .nothing
  | .next => do
    add .continue
    return .nothing
  | .result none => do
    add (.return none)
    return .nothing
  | .result (some v) => do
    add (.return (some (← expr v)))
    return .nothing
  | .assign t v => do
    let target ← expr t
    add (.assign target (← expr v))
    return .nothing
  | .eval v => do
    add (.eval (← expr v))
    return .nothing
  | .prepend body => do
    let stmts ← aside (again body)
    update fun p => stmts.foldl Program.prepend p
    return .nothing
  | .block body => do
    return .count (← block (← get).current (again body)).length
  | .branch cond thn els => do
    let c ← expr cond
    let i := (← get).current
    let t ← block i (again thn)
    let e ← match els with
      | none => pure []
      | some body => block i (again body)
    addTo i (.branch c t e)
    return .nothing
  | .forIn v iter body => do
    let var ← newVar v
    let it ← expr iter
    let i := (← get).current
    update (·.markDeclared var)
    let b ← block i (again body)
    addTo i (.forIn var it b)
    return .nothing
  | .loop cond body => do
    let c ← expr cond
    let i := (← get).current
    let b ← block i (again body)
    addTo i (.while c b)
    return .nothing
  | .box body => do
    let i := (← get).current
    let b ← block i (again body)
    addTo i (.box b)
    return .nothing
  | .addGate name angles qubits body => do
    let as ← angles.mapM newVar
    let qs ← qubits.mapM newVar
    let b ← aside (again body)
    update (·.addGate ⟨name, as, qs, b⟩)
    return .nothing
  | .hasGate name => return .flag ((← current).hasGate name)
  | .gates => return .names ((← current).gates.map (·.name))
  | .addSubroutine name params returns body => do
    let ps ← params.mapM newVar
    let b ← aside (again body)
    update (·.addSubroutine ⟨name, ps, returns, b, false⟩)
    return .nothing
  | .hasSubroutine name => return .flag ((← current).hasSubroutine name)
  | .subroutine name => do
    match (← current).subroutine? name with
    | none => return .flag false
    | some d => return .signature d.params.length d.returns d.body.length
  | .subroutines => return .names ((← current).subroutines.map (·.name))
  | .addCalibration gate angles qubits body => do
    let as ← exprs angles
    let qs ← exprs qubits
    let b ← aside (again body)
    update (·.addCalibration ⟨gate, as, qs, b⟩)
    return .nothing
  | .calibrations => return .names ((← current).calibrations.map (·.gate))
  | .enablePulse => do
    update (·.enablePulse)
    return .nothing
  | .copy => do
    let p ← current
    modify fun s => { s with programs := s.programs ++ [p.copy], current := s.programs.length }
    return .nothing
  | .use n => do
    if n < 0 ∨ n ≥ (← get).programs.length then throw (.fault .indexOutOfRange)
    modify fun s => { s with current := n.toNat }
    return .nothing
  | .bodyCount => return .count (← current).body.length
  | .fail message => raise (.user message)
  | .source => return .text (← current).render

/-- What a failed action reports: a block that failed has no statements. -/
def Action.failureReport : Action → Report
  | .block _ => .count 0
  | _ => .nothing

def State.note (s : State) (word : String) (report : Report) (error : Option Error) : State :=
  let p := s.program s.current
  let entry := ⟨word, report, error, p.depth, p.top.length, p.pending.map (·.name)⟩
  { s with entries := entry :: s.entries }

def step (again : List Step → Work Unit) : Step → Work Unit
  | .mk action guarded => fun s =>
    match perform again action s with
    | (.ok report, s) => (.ok (), s.note action.word report none)
    | (.error (.error e), s) =>
      (if guarded then .ok () else .error (.error e),
        s.note action.word action.failureReport (some e))
    | (.error stop, s) => (.error stop, s)

/-- Runs a list of steps whose bodies nest at most `height` deep. -/
def runWithin : Nat → List Step → Work Unit
  | 0, _ => pure ()
  | height + 1, steps => steps.forM (step (runWithin height))

mutual
/-- How deep the bodies of an action nest. -/
def Action.height : Action → Nat
  | .prepend body | .block body | .forIn _ _ body | .loop _ body | .box body
  | .addGate _ _ _ body | .addSubroutine _ _ _ body | .addCalibration _ _ _ body => heights body
  | .branch _ thn none => heights thn
  | .branch _ thn (some els) => max (heights thn) (heights els)
  | _ => 0

/-- How deep a list of steps nests, the list itself included. -/
def heights : List Step → Nat
  | [] => 1
  | .mk action _ :: steps => max (action.height + 1) (heights steps)
end

def run (steps : List Step) : Work Unit := runWithin (heights steps) steps

def start (steps : List Step) : Except Stop Unit × State := run steps {}

end QasmStudio.Workbench

import QasmStudio.Convert.Flow
import QasmStudio.Convert.Gate
import QasmStudio.Convert.Pulse
import QasmStudio.Convert.Variable

/-!
# Routines

A routine is a main program, a subroutine or a gate whose body is a list of steps. Routines are
told apart by their place in a library, not by name. This file holds the data; what a body does is
`Convert.run`.
-/

namespace QasmStudio

inductive VarKind where
  | int
  | float
  | bool
  | bit
  deriving DecidableEq, Repr, Inhabited

def VarKind.ty : VarKind → Ty
  | int => Ty.int
  | float => Ty.float
  | bool => Ty.bool
  | bit => Ty.bit 0

mutual
inductive Action where
  | gate (g : NativeGate) (operands : List Operand)
  | measure (qubits : List Operand)
  | reset (qubit : Operand)
  | barrier (qubits : List Operand)
  | compare (c : Comparison) (l r : Operand)
  | logical (c : Connective) (l r : Operand)
  | not (x : Operand)
  | arithmetic (op : Arithmetic) (l r : Operand)
  | newVar (kind : VarKind) (init : Operand)
  | newArray (elem : Option Ty) (dims : List Int) (init : Operand)
  | assign (name : String) (value : Operand)
  | call (routine : String) (args : List Operand)
  /-- Builds a routine of the library as a program of its own. -/
  | build (routine : String) (settings : List Setting)
  | name (value : Operand)
  | branch (cond : Operand) (thn els : Option (List Step))
  /-- A loop over data; the loop value goes by `name`. -/
  | unroll (name : Option String) (iter : Operand) (body : List Step)
  | loopOver (name : Option String) (start stop : Operand) (step : Option Operand)
      (body : List Step)
  /-- Before each turn the steps of the condition run, and then the test decides. -/
  | whileLoop (cond : List Step) (test : Operand) (body : List Step)
  | leaveLoop
  | nextTurn
  | leaveRoutine (value : Operand)
  | verbatim (body : List Step)
  | play (frame waveform : String)
  | frameCall (op : FrameOp) (frame : String) (arg : Operand)
  | delay (ns : Int) (targets : List Operand)
  | fail (message : String)
  -- questions about the context
  | isActive
  | stacks
  | nextName (kind : Kind)
  | registerQubit (n : Int)
  | qubits
  | isVarUsed (name : String)
  | declaredQubits
  | config (pragma : String)
  | buildId
  | returned
  | draft (main : Bool) (mode : Mode)
  | result
  -- scopes of a context
  | inProgram (body : List Step)
  | gateDef (name : String) (params : List GateParam) (body : List Step)
  | calibrationDef (gate : String) (qubits angles : List Operand) (body : List Step)
  | validateTargets (qubits angles : List Operand)
  | nestedBuild (config : BuildConfig) (body : List Step)

/-- An operation with the name its result goes by, and the context it is handed. A guarded one
does not end its body when it fails. -/
inductive Step where
  | mk (action : Action) (target : Option String) (guarded : Bool) (handle : Convert.Handle)
end

instance : Inhabited Action := ⟨.qubits⟩

def Action.word : Action → String
  | .gate g _ => g.name
  | .measure .. => "measure"
  | .reset .. => "reset"
  | .barrier .. => "barrier"
  | .compare .eq .. => "eq"
  | .compare .ne .. => "ne"
  | .compare .lt .. => "lt"
  | .compare .le .. => "le"
  | .compare .gt .. => "gt"
  | .compare .ge .. => "ge"
  | .logical .and .. => "and"
  | .logical .or .. => "or"
  | .not .. => "not"
  | .arithmetic .add .. => "add"
  | .arithmetic .sub .. => "sub"
  | .arithmetic .mul .. => "mul"
  | .arithmetic .div .. => "div"
  | .newVar .int _ => "int_var"
  | .newVar .float _ => "float_var"
  | .newVar .bool _ => "bool_var"
  | .newVar .bit _ => "bit_var"
  | .newArray .. => "array_var"
  | .assign .. => "assign"
  | .call .. => "call"
  | .build .. => "build"
  | .name .. => "let"
  | .branch .. => "if"
  | .unroll .. => "for"
  | .loopOver .. => "for"
  | .whileLoop .. => "while"
  | .leaveLoop => "break"
  | .nextTurn => "continue"
  | .leaveRoutine .. => "return"
  | .verbatim .. => "verbatim"
  | .play .. => "play"
  | .frameCall op .. => op.name
  | .delay .. => "delay"
  | .fail .. => "fail"
  | .isActive => "active"
  | .stacks => "stacks"
  | .nextName .. => "next_var_name"
  | .registerQubit .. => "register_qubit"
  | .qubits => "qubits"
  | .isVarUsed .. => "is_var_used"
  | .declaredQubits => "declared_qubits"
  | .config .. => "user_config"
  | .buildId => "build_id"
  | .returned => "return_variable"
  | .draft .. => "program"
  | .result => "make_program"
  | .inProgram .. => "push"
  | .gateDef .. => "gate_def"
  | .calibrationDef .. => "cal_def"
  | .validateTargets .. => "validate_targets"
  | .nestedBuild .. => "nested_build"

inductive RoutineKind where
  | main
  | subroutine
  | gate
  deriving DecidableEq, Repr, Inhabited

structure Param where
  name : String
  ty : Option Ty

structure Routine where
  kind : RoutineKind
  name : String
  params : List Param := []
  returns : Option Ty := none
  body : List Step
  /-- What a subroutine returns, evaluated after its body. -/
  result : Operand := .const .none
  config : Option BuildConfig := none

namespace Routine

/-- A main program. Without settings it asks for no configuration. -/
def main (name : String) (body : List Step) (settings : List Setting) : Routine :=
  { kind := .main, name := name, body := body
    config := if settings.isEmpty then none else some (BuildConfig.with {} settings) }

def subroutine (name : String) (params : List Param) (returns : Option Ty) (body : List Step)
    (result : Operand) : Routine :=
  { kind := .subroutine, name := name, params := params, returns := returns, body := body,
    result := result }

/-- A gate; its parameters must be qubits or angles. -/
def gate (name : String) (params : List Param) (body : List Step) : Routine :=
  { kind := .gate, name := name, params := params, body := body }

def untyped? (r : Routine) : Option Param := r.params.find? (·.ty.isNone)

end Routine

structure Library where
  routines : List (String × Routine)

def Library.ofRoutines (routines : List Routine) : Library := ⟨routines.map fun r => (r.name, r)⟩

def Library.find? (lib : Library) (id : String) : Option (Nat × Routine) :=
  go 0 lib.routines
where
  go (i : Nat) : List (String × Routine) → Option (Nat × Routine)
    | [] => none
    | (name, r) :: rest => if name = id then some (i, r) else go (i + 1) rest

end QasmStudio

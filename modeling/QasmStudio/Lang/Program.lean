import QasmStudio.Lang.Stmt

/-!
# Programs

A program under construction. Statements go to the innermost open block; closing a block hands its
statements to whoever opened it. Variables are declared where they stand, or registered as pending
and declared at the top of the program.
-/

namespace QasmStudio

structure Program where
  top : List Stmt := []
  /-- The open blocks inside the top level, innermost first. -/
  nested : List (List Stmt) := []
  declared : List Var := []
  /-- The variables to be declared at the top, in order. -/
  pending : List Var := []
  gates : List GateDef := []
  subroutines : List SubroutineDef := []
  calibrations : List CalibrationDef := []
  pulse : Bool := false

namespace Program

def empty : Program := {}

def depth (p : Program) : Nat := p.nested.length + 1

def add (p : Program) (s : Stmt) : Program :=
  { p with
    top := match p.nested with
      | [] => p.top ++ [s]
      | _ :: _ => p.top
    nested := p.nested.modifyHead (· ++ [s]) }

def prepend (p : Program) (s : Stmt) : Program := { p with top := s :: p.top }

def openBlock (p : Program) : Program := { p with nested := [] :: p.nested }

def closeBlock (p : Program) : Program := { p with nested := p.nested.tail }

def innermost (p : Program) : List Stmt := p.nested.headD p.top

def isDeclared (p : Program) (name : String) : Bool := p.declared.any (·.name == name)

def isPending (p : Program) (name : String) : Bool := p.pending.any (·.name == name)

def isUsed (p : Program) (name : String) : Bool := p.isDeclared name || p.isPending name

/-- Records a variable as declared without a statement. It is no longer pending. -/
def markDeclared (p : Program) (v : Var) : Program :=
  { p with
    declared := v :: p.declared.filter (·.name != v.name)
    pending := p.pending.filter (·.name != v.name) }

/-- Declares a variable at the current position, unless its name is declared. -/
def declare? (p : Program) (v : Var) : Option Program :=
  if p.isDeclared v.name then none else some ((p.markDeclared v).add (.declare v))

/-- Registers a variable for declaration at the top, unless its name is used. -/
def addPending (p : Program) (v : Var) : Program :=
  if p.isUsed v.name then p else { p with pending := p.pending ++ [v] }

/-- Assigns to a variable, registering it as pending if needed. -/
def set (p : Program) (v : Var) (value : Expr) : Program :=
  (p.addPending v).add (.assign v.expr value)

def lookup? (p : Program) (name : String) : Option Var :=
  match p.declared.find? (·.name == name) with
  | some v => some v
  | none => p.pending.find? (·.name == name)

def declaredNames (p : Program) : List String :=
  (p.declared.map (·.name)).mergeSort fun a b => !(b < a)

/-- Replaces the first element that satisfies `same`, or appends. -/
def put {α : Type} (same : α → Bool) (x : α) : List α → List α
  | [] => [x]
  | y :: ys => if same y then x :: ys else y :: put same x ys

def addGate (p : Program) (d : GateDef) : Program :=
  { p with gates := put (·.name == d.name) d p.gates }

def hasGate (p : Program) (name : String) : Bool := p.gates.any (·.name == name)

def addSubroutine (p : Program) (d : SubroutineDef) : Program :=
  { p with subroutines := put (·.name == d.name) d p.subroutines }

def subroutine? (p : Program) (name : String) : Option SubroutineDef :=
  p.subroutines.find? (·.name == name)

def hasSubroutine (p : Program) (name : String) : Bool := (p.subroutine? name).isSome

def addCalibration (p : Program) (d : CalibrationDef) : Program :=
  { p with calibrations := p.calibrations ++ [d] }

def enablePulse (p : Program) : Program := { p with pulse := true }

/-- The statements of the top level after the declarations of the pending variables. -/
def body (p : Program) : List Stmt := p.pending.map .declare ++ p.top

/-- A program that starts with what `p` has at the top level; its blocks are closed. -/
def copy (p : Program) : Program := { p with nested := [] }

/-- Does the program hold a definition that cannot be written? -/
def isHollow (p : Program) : Bool := p.subroutines.any (·.hollow)

/-- The program as OpenQASM 3 source: gates, calibrations and subroutines come before the body. -/
def text (p : Program) : List Char :=
  indented 0 "OPENQASM 3.0;".toList ++
  (if p.pulse || !p.calibrations.isEmpty
    then indented 0 "defcalgrammar \"openpulse\";".toList else []) ++
  p.gates.flatMap GateDef.text ++
  p.calibrations.flatMap CalibrationDef.text ++
  p.subroutines.flatMap SubroutineDef.text ++
  Stmt.texts 0 p.body

def render (p : Program) : String := String.ofList p.text

end Program

end QasmStudio

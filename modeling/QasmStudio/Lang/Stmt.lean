import QasmStudio.Lang.Expr

/-!
# Statements and definitions

OpenQASM statements and the definitions of gates, subroutines and calibrations, with their text.
A body is indented by four blanks under its header and closed by a brace on a line of its own.
-/

namespace QasmStudio

inductive Stmt where
  | declare (v : Var)
  | assign (target value : Expr)
  | eval (e : Expr)
  | gate (name : String) (args qubits : List Expr)
  | reset (qubit : Expr)
  | barrier (qubits : List Expr)
  | delay (duration : Expr) (targets : List Expr)
  | branch (cond : Expr) (thn els : List Stmt)
  | forIn (v : Var) (iter : Expr) (body : List Stmt)
  | while (cond : Expr) (body : List Stmt)
  | break
  | continue
  | return (value : Option Expr)
  | pragma (text : String)
  | box (body : List Stmt)
  deriving Inhabited

structure GateDef where
  name : String
  angles : List Var
  qubits : List Var
  body : List Stmt

structure SubroutineDef where
  name : String
  params : List Var
  returns : Option Ty
  body : List Stmt
  /-- Does it return an array with elements missing? Such a definition cannot be written. -/
  hollow : Bool := false

/-- The pulses of a gate on given physical qubits. The angles are literals or free variables. -/
structure CalibrationDef where
  gate : String
  angles : List Expr
  qubits : List Expr
  body : List Stmt

def indented (depth : Nat) (cs : List Char) : List Char :=
  List.replicate (4 * depth) ' ' ++ (cs ++ ['\n'])

def Var.declaration (v : Var) : List Char :=
  tyText v.ty ++ ' ' :: (v.name.toList ++ match v.init with
    | none => []
    | some e => " = ".toList ++ e.text)

/-- `type name`, as a parameter list writes it. -/
def Var.parameter (v : Var) : List Char := tyText v.ty ++ ' ' :: v.name.toList

namespace Stmt

def block (depth : Nat) (header body : List Char) : List Char :=
  indented depth (header ++ [' ', '{']) ++ (body ++ indented depth ['}'])

mutual
def text (depth : Nat) : Stmt → List Char
  | declare v => indented depth (v.declaration ++ [';'])
  | assign target value => indented depth (target.text ++ " = ".toList ++ value.text ++ [';'])
  | eval e => indented depth (e.text ++ [';'])
  | gate name args qubits =>
    let args := if args.isEmpty then [] else '(' :: (Expr.listText args ++ [')'])
    indented depth (name.toList ++ args ++ ' ' :: (Expr.listText qubits ++ [';']))
  | reset q => indented depth ("reset ".toList ++ q.text ++ [';'])
  | barrier qubits =>
    if qubits.isEmpty then indented depth "barrier;".toList
    else indented depth ("barrier ".toList ++ Expr.listText qubits ++ [';'])
  | delay d targets =>
    indented depth ("delay[".toList ++ d.text ++ ']' :: ' ' :: (Expr.listText targets ++ [';']))
  | branch cond thn els =>
    indented depth ("if (".toList ++ cond.text ++ [')', ' ', '{']) ++ (texts (depth + 1) thn ++
      (if els.isEmpty then [] else indented depth "\x7d else \x7b".toList ++ texts (depth + 1) els) ++
      indented depth ['}'])
  | forIn v iter body =>
    block depth ("for ".toList ++ v.parameter ++ " in ".toList ++ iter.text)
      (texts (depth + 1) body)
  | .while cond body =>
    block depth ("while (".toList ++ cond.text ++ [')']) (texts (depth + 1) body)
  | .break => indented depth "break;".toList
  | .continue => indented depth "continue;".toList
  | .return none => indented depth "return;".toList
  | .return (some e) => indented depth ("return ".toList ++ e.text ++ [';'])
  | pragma t => indented depth ("#pragma ".toList ++ t.toList)
  | box body => block depth "box".toList (texts (depth + 1) body)

def texts (depth : Nat) : List Stmt → List Char
  | [] => []
  | s :: ss => s.text depth ++ texts depth ss
end

end Stmt

def GateDef.text (d : GateDef) : List Char :=
  let angles := if d.angles.isEmpty then []
    else '(' :: (commaSep (d.angles.map (·.name.toList)) ++ [')'])
  Stmt.block 0 ("gate ".toList ++ d.name.toList ++ angles ++
    ' ' :: commaSep (d.qubits.map (·.name.toList))) (Stmt.texts 1 d.body)

def SubroutineDef.text (d : SubroutineDef) : List Char :=
  let returns := match d.returns with
    | none => []
    | some t => " -> ".toList ++ t.text
  Stmt.block 0 ("def ".toList ++ d.name.toList ++ '(' ::
    (commaSep (d.params.map Var.parameter) ++ ')' :: returns)) (Stmt.texts 1 d.body)

/-- An angle of a calibration: a free variable is shown with its type. -/
def CalibrationDef.angleText : Expr → List Char
  | .var name ty init => Var.parameter ⟨name, ty, init⟩
  | e => e.text

def CalibrationDef.text (d : CalibrationDef) : List Char :=
  let angles := if d.angles.isEmpty then []
    else '(' :: (commaSep (d.angles.map CalibrationDef.angleText) ++ [')'])
  Stmt.block 0 ("defcal ".toList ++ d.gate.toList ++ angles ++ ' ' :: Expr.listText d.qubits)
    (Stmt.texts 1 d.body)

end QasmStudio

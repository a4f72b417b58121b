import QasmStudio.Convert.Monad

/-!
# Operators

Comparisons, logic and arithmetic. Operands known while converting are computed on the spot; as
soon as one of them is an expression the operation becomes part of the program.
-/

namespace QasmStudio

inductive Comparison where
  | eq
  | ne
  | lt
  | le
  | gt
  | ge
  deriving DecidableEq, Repr, Inhabited

inductive Connective where
  | and
  | or
  deriving DecidableEq, Repr, Inhabited

inductive Arithmetic where
  | add
  | sub
  | mul
  | div
  deriving DecidableEq, Repr, Inhabited

namespace Comparison

def symbol : Comparison → String
  | eq => "=="
  | ne => "!="
  | lt => "<"
  | le => "<="
  | gt => ">"
  | ge => ">="

def floats (c : Comparison) (x y : Float) : Bool :=
  match c with
  | eq => x == y
  | ne => x != y
  | lt => x < y
  | le => x ≤ y
  | gt => y < x
  | ge => y ≤ x

/-- Compares data. Truth values can be equal or not and nothing else; all numbers are compared as
64-bit floating-point numbers. -/
def data (c : Comparison) (a b : Value) : Except DomainError Bool :=
  let incomparable : DomainError :=
    .invalidArguments c.symbol (.incomparable a.formName b.formName)
  match a, b with
  | .bool x, .bool y =>
    match c with
    | eq => .ok (x == y)
    | ne => .ok (x != y)
    | _ => .error incomparable
  | _, _ => match a.toFloat?, b.toFloat? with
    | some x, some y => .ok (c.floats x y)
    | _, _ => .error incomparable

end Comparison

def Connective.symbol : Connective → String
  | and => "&&"
  | or => "||"

def Connective.apply : Connective → Bool → Bool → Bool
  | and, a, b => a && b
  | or, a, b => a || b

namespace Arithmetic

def symbol : Arithmetic → String
  | add => "+"
  | sub => "-"
  | mul => "*"
  | div => "/"

def words (op : Arithmetic) (a b : Int) : Except ArgumentFlaw Int :=
  match op with
  | add => .ok (Word.add a b)
  | sub => .ok (Word.sub a b)
  | mul => .ok (Word.mul a b)
  | div => if b = 0 then .error .divisionByZero else .ok (Word.div a b)

def floats : Arithmetic → Float → Float → Float
  | add, x, y => x + y
  | sub, x, y => x - y
  | mul, x, y => x * y
  | div, x, y => x / y

/-- Computes with data: words among themselves, all other numbers in floating point. -/
def data (op : Arithmetic) (a b : Value) : Except ArgumentFlaw Value :=
  match a, b with
  | .int .word m, .int .word n => (op.words m n).map (.int .word)
  | _, _ => match a.toFloat?, b.toFloat? with
    | some x, some y => .ok (.float (op.floats x y))
    | _, _ => .error (.operandForms a.formName b.formName)

end Arithmetic

namespace Convert

/-- A condition: data that is a truth value, or an expression of a type that conditions may have. -/
def conditionExpr : Value → Convert Expr
  | .bool b => return .bool b
  | .expr e =>
    if tyIsCondition e.ty then return e else refuse (.unsupportedCondition (tyRender e.ty))
  | v => refuse (.unsupportedCondition v.formName)

def truthResult (h : Handle) (e : Expr) : Convert Value := do
  requireClassical h "comparison"
  let name ← freshName .bool
  let v : Var := ⟨name, some Ty.bool, none⟩
  updateCurrent (·.set v e)
  return .expr v.expr

def compare (h : Handle) (c : Comparison) (a b : Value) : Convert Value := do
  if a.isExpr || b.isExpr then
    let l ← expression a
    let r ← expression b
    truthResult h (.binary c.symbol l r)
  else match c.data a b with
    | .ok t => return .bool t
    | .error e => refuse e

def logical (h : Handle) (c : Connective) (a b : Value) : Convert Value := do
  match a, b with
  | .bool x, .bool y => return .bool (c.apply x y)
  | _, _ =>
    let l ← conditionExpr a
    let r ← conditionExpr b
    truthResult h (.binary c.symbol l r)

def negate (h : Handle) (a : Value) : Convert Value := do
  match a with
  | .bool b => return .bool (!b)
  | _ =>
    let e ← conditionExpr a
    truthResult h (.unary "!" e)

/-- May an expression of that type be an operand of arithmetic? One of unknown type may. -/
def isArithmetic (t : Option Ty) : Bool := t.all Ty.isNumeric

def arithmetic (op : Arithmetic) (a b : Value) : Convert Value := do
  if a.isExpr || b.isExpr then
    let l ← expression a
    let r ← expression b
    if isArithmetic l.ty && isArithmetic r.ty then return .expr (.binary op.symbol l r)
    else refuse (.invalidArguments op.symbol (.operandTypes l.ty r.ty))
  else match op.data a b with
    | .ok v => return v
    | .error flaw => refuse (.invalidArguments op.symbol flaw)

end Convert

end QasmStudio

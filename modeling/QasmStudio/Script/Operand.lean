import QasmStudio.Value

/-!
# Operands

The operands of scripted operations. An operand is a constant, a name, an argument, or an
expression built from operands; `Operand.eval` gives its value among the bindings of a script.
-/

namespace QasmStudio

inductive Operand where
  | const (v : Value)
  | named (name : String)
  /-- An argument of the enclosing body, counted from 0. -/
  | arg (i : Int)
  | list (items : List Operand)
  | newVar (name : String) (ty : Option Ty) (init : Option Operand)
  | index (base idx : Operand)
  | binary (op : String) (l r : Operand)
  | unary (op : String) (x : Operand)
  | call (name : String) (args : List Operand) (returns : Option Ty)
  | measure (qubit : Operand)
  | range (start stop : Operand) (step : Option Operand)
  | array (elems : List Operand) (ty : Option Ty)
  deriving Inhabited

structure Bindings where
  names : List (String × Value) := []
  args : List Value := []

namespace Bindings

def empty : Bindings := {}

def get (b : Bindings) (name : String) : Value := (b.names.lookup name).getD .none

def bind (b : Bindings) (name : String) (v : Value) : Bindings :=
  { b with names := (name, v) :: b.names }

/-- The value of an argument, nothing if there are not as many. -/
def argument (b : Bindings) (i : Int) : Value :=
  if i < 0 then .none else (b.args[i.toNat]?).getD .none

end Bindings

namespace Operand

mutual
/-- The value of an operand. The parts of an expression must themselves be expressions. -/
def eval (b : Bindings) : Operand → Except ExprError Value
  | const v => .ok v
  | named name => .ok (b.get name)
  | arg i => .ok (b.argument i)
  | list items => do return .list .mixed (← evals b items)
  | newVar name ty none => .ok (.expr (.var name ty none))
  | newVar name ty (some init) => do
    return .expr (.var name ty (some (← (← init.eval b).toExpr)))
  | index base idx => do
    return .expr (.index (← (← base.eval b).toExpr) (← (← idx.eval b).toExpr))
  | binary op l r => do
    return .expr (.binary op (← (← l.eval b).toExpr) (← (← r.eval b).toExpr))
  | unary op x => do return .expr (.unary op (← (← x.eval b).toExpr))
  | call name args returns => do return .expr (.call name (← exprs b args) returns)
  | measure q => do return .expr (.measure (← (← q.eval b).toExpr))
  | range start stop none => do
    return .expr (.range (← (← start.eval b).toExpr) (← (← stop.eval b).toExpr) none)
  | range start stop (some step) => do
    return .expr (.range (← (← start.eval b).toExpr) (← (← stop.eval b).toExpr)
      (some (← (← step.eval b).toExpr)))
  | array elems ty => do return .expr (.array (← exprs b elems) ty)

def evals (b : Bindings) : List Operand → Except ExprError (List Value)
  | [] => .ok []
  | o :: os => do return (← o.eval b) :: (← evals b os)

def exprs (b : Bindings) : List Operand → Except ExprError (List Expr)
  | [] => .ok []
  | o :: os => do return (← (← o.eval b).toExpr) :: (← exprs b os)
end

def toExpr (b : Bindings) (o : Operand) : Except ExprError Expr := do (← o.eval b).toExpr

end Operand

end QasmStudio

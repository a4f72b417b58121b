import QasmStudio.Convert.Monad

/-!
# Qubit and angle operands

A number addresses an element of the register, or a physical qubit inside a verbatim block; a text
such as `$0` a physical qubit; a qubit expression is used as it is; an integer expression indexes
the register when the program runs, which needs a declared size. Fixed elements of the register
are registered by whoever emits them.
-/

namespace QasmStudio

/-- An operand that has been resolved, and the register index it fixes, if any. -/
structure Target where
  expr : Expr
  index : Option Int

/-- The number of a physical qubit written as `$n`. -/
def physicalNumber? (s : String) : Option Int :=
  match s.toList with
  | '$' :: cs => (Word.read? cs).filter (0 ≤ ·)
  | _ => none

namespace Context

def badQubit (flaw : ArgumentFlaw) : DomainError := .invalidArguments "qubit" flaw

def resolve (c : Context) : Value → Except DomainError Target
  | .int .word n =>
    if n < 0 then .error (badQubit (.negativeIndex n))
    else if c.verbatim then .ok ⟨.physical n, none⟩
    else .ok ⟨.index registerExpr (.int n), some n⟩
  | .string s =>
    match physicalNumber? s with
    | some n => .ok ⟨.physical n, none⟩
    | none => .error (badQubit (.notPhysical s))
  | .expr (.physical n) => .ok ⟨.physical n, none⟩
  | .expr e =>
    match e.ty with
    | some t =>
      if t.kind = .qubit then .ok ⟨e, none⟩
      else if t.kind = .int then
        match c.config.declared? with
        | some _ => .ok ⟨.index registerExpr e, none⟩
        | none => .error .unknownQubitCount
      else .error (badQubit (.notQubitExpr (some t) e.render))
    | none => .error (badQubit (.notQubitExpr none e.render))
  | v => .error (badQubit (.notQubit v.formName))

def resolveAll (c : Context) (qs : List Value) : Except DomainError (List Target) :=
  qs.mapM c.resolve

end Context

namespace Convert

def liftDomain {α : Type} : Except DomainError α → Convert α
  | .ok a => pure a
  | .error e => refuse e

def resolveAll (qs : List Value) : Convert (List Target) := do
  liftDomain ((← context).resolveAll qs)

def registerTargets (ts : List Target) : Convert Unit := register (ts.filterMap (·.index))

def qubitOperand (q : Value) : Convert Expr := do
  let t ← liftDomain ((← context).resolve q)
  registerTargets [t]
  return t.expr

/-- An angle operand. Numbers become literals written in terms of pi. -/
def angleOperand (v : Value) : Convert Expr := do
  match v.toFloat? with
  | some x => return .angle x
  | none =>
    let e ← expression v
    match e.ty with
    | some t =>
      if t.isNumeric then return e
      else refuse (.invalidArguments "gate" (.notAngle (some t) e.render))
    | none => return e

end Convert

end QasmStudio

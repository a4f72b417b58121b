import QasmStudio.Convert.Monad

/-!
# Variables

New variables are registered for declaration at the top of the current program. An assignment
declares its variable where it stands, the first time the name is used.
-/

namespace QasmStudio.Convert

/-- A new variable of type `t`. The generated name is taken before the initial value is checked. -/
def newVar (h : Handle) (t : Ty) (init : Option Value) : Convert Var := do
  requireClassical h ("declaring a " ++ String.ofList t.text ++ " variable")
  let name ← freshName t.kind
  let init ← match init with
    | none => pure none
    | some value => do
      let e ← expression value
      if ← liftFault (assignable t e.ty) then pure (some e)
      else refuse (.invalidArguments name (.initialType (some t) e.ty))
  let v : Var := ⟨name, some t, init⟩
  updateCurrent (·.addPending v)
  return v

/-- An initial value, nothing standing for no initial value. -/
def initial? : Value → Option Value
  | .none => none
  | v => some v

/-- A new array variable. Without an initial value it starts with zeros. -/
def newArray (h : Handle) (elem : Option Ty) (dims : List Int) (init : Value) : Convert Var := do
  let t := Ty.array elem dims
  match initial? init with
  | some v => newVar h t (some v)
  | none => match ← liftFault t.zero with
    | .absent => newVar h t none
    | .value e => newVar h t (some (.expr e))
    | .hollow => do
      let _ ← newVar h t none
      liftFault (.error .missingPart)

def variableType (v : Var) : Convert Ty :=
  match v.ty with
  | some t => pure t
  | none => liftFault (.error .missingPart)

/-- Stores a value under a name. Data known while converting is handed back untouched; an
expression goes to the variable of that name, which is declared on first use. -/
def assign (h : Handle) (name : String) : Value → Convert Value
  | .expr e => do
    requireClassical h "assignment"
    match (← context).current.lookup? name with
    | some v =>
      let t ← variableType v
      if ← liftFault (assignable t e.ty) then
        emit (.assign v.expr e)
        return .expr v.expr
      else refuse (.invalidArguments "assignment" (.assignType e.ty (some t) name))
    | none =>
      if e.ty.any (·.kind ≠ .qubit) then
        let v : Var := ⟨name, e.ty, some e⟩
        declare v
        return .expr v.expr
      else refuse (.invalidArguments "assignment" (.noDeclaration name e.render))
  | v => return v

end QasmStudio.Convert

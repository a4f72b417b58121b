import QasmStudio.Convert.Operator

/-!
# Control flow

A branch or loop over data is decided while converting: one branch runs, a loop is unrolled. Over
an expression it becomes a statement of the program. Errors of the bodies are tagged.
-/

namespace QasmStudio

/-- The half-open range from `start` to `stop`, for a loop of the program. -/
structure RangeSpec where
  start : Value
  stop : Value
  step : Option Value

def RangeSpec.descending (r : RangeSpec) : Bool :=
  match r.step with
  | some (.int .word n) => n < 0
  | _ => false

namespace Convert

/-- The range with its end included, as the program writes it. -/
def RangeSpec.expr (r : RangeSpec) : Convert Expr := do
  let start ← expression r.start
  let step ← match r.step with
    | none => pure none
    | some v => some <$> expression v
  match r.stop with
  | .int .word n =>
    let last := if r.descending then Word.add n 1 else Word.sub n 1
    return .range start (.int last) step
  | v =>
    let e ← expression v
    return .range start (.binary (if r.descending then "+" else "-") e (.int 1)) step

def branch (h : Handle) (cond : Value) (thn : Convert Unit) (els : Option (Convert Unit)) :
    Convert Unit := do
  match cond with
  | .bool true => tagging thn
  | .bool false => match els with
    | some body => tagging body
    | none => pure ()
  | v =>
    let e ← conditionExpr v
    requireClassical h "if"
    tagging do
      let a ← block thn
      let b ← match els with
        | some body => block body
        | none => pure []
      emit (.branch e a b)

def repeatFrom (body : Value → Convert Unit) (i : Int) : Nat → Convert Unit
  | 0 => pure ()
  | n + 1 => do
    body (.int .word i)
    repeatFrom body (i + 1) n

def forEach (body : Value → Convert Unit) : List Value → Convert Unit
  | [] => pure ()
  | v :: vs => do
    body v
    forEach body vs

/-- Unrolls a loop over a number, which counts from 0, or over a list. -/
def unroll (iter : Value) (body : Value → Convert Unit) : Convert Unit :=
  match iter with
  | .int .word n => tagging (repeatFrom body 0 n.toNat)
  | .list _ items => tagging (forEach body items)
  | v => refuse (.invalidArguments "for" (.notIterable v.formName))

/-- Emits a loop over a range; the body runs once, with the loop variable. -/
def loopOver (h : Handle) (r : RangeSpec) (body : Value → Convert Unit) : Convert Unit := do
  let range ← RangeSpec.expr r
  requireClassical h "for"
  let name ← freshName .int
  let v : Var := ⟨name, some Ty.int, none⟩
  tagging do
    updateCurrent (·.markDeclared v)
    let stmts ← block (body (.expr v.expr))
    emit (.forIn v range stmts)

/-- Goes on with a loop that is decided while converting, at most `fuel` times. -/
def repeatWhile (cond : Convert Value) (body : Convert Unit) : Nat → Convert Unit
  | 0 => throw .exhausted
  | fuel + 1 => do
    tagging body
    match ← tagging cond with
    | .bool true => repeatWhile cond body fuel
    | .bool false => pure ()
    | v => refuse (.unsupportedCondition (v.formName ++ " (condition changed from bool)"))

/-- Runs `body` as long as `cond` holds, or emits a loop if the first condition is an expression. -/
def whileLoop (h : Handle) (fuel : Nat) (cond : Convert Value) (body : Convert Unit) :
    Convert Unit := do
  match ← tagging cond with
  | .bool true => repeatWhile cond body fuel
  | .bool false => pure ()
  | v =>
    let e ← conditionExpr v
    requireClassical h "while"
    tagging do
      let stmts ← block body
      emit (.while e stmts)

def leaveLoop (h : Handle) : Convert Unit := do
  requireClassical h "break"
  emit .break

def nextTurn (h : Handle) : Convert Unit := do
  requireClassical h "continue"
  emit .continue

/-- Leaves the subroutine being converted, with a value unless it is nothing. -/
def leaveRoutine (h : Handle) (value : Value) : Convert Unit := do
  requireClassical h "return"
  match value with
  | .none => emit (.return none)
  | v =>
    let e ← expression v
    emit (.return (some e))

def verbatimPragma : String := "verbatim"

def verbatimRefusal? (c : Context) : Option VerbatimRefusal :=
  if c.verbatim then some .nested
  else if c.inner ≠ [] then some .inSubroutine
  else if c.config.device.supports verbatimPragma then none
  else some (.unsupported c.config.device.name)

/-- Runs `body` as a block that the compiler must leave untouched. -/
def verbatim (h : Handle) (body : Convert Unit) : Convert Unit := do
  requireClassical h "verbatim"
  match verbatimRefusal? (← context) with
  | some why => refuse (.verbatimRefused why)
  | none => pure ()
  bracketContext (fun c => { c with verbatim := true }) (fun c => { c with verbatim := false }) do
    let stmts ← tagging (block body)
    emit (.pragma "braket verbatim")
    emit (.box stmts)

end Convert

end QasmStudio

import QasmStudio.Circuit.Reader
import QasmStudio.Convert.Gate
import QasmStudio.Proofs.Lang.GeneratedNames
import QasmStudio.Proofs.Lang.Occurrences

/-!
# Legible programs

The programs that a circuit is taken from: calls of native gates, measurements, resets and barriers of
fixed qubits, classical declarations and assignments of generated variables, boxes with their pragmas,
and control flow of any depth. `Stmt.drawn` lists what a circuit shows of a statement, and
`Stmt.hasControl` says whether it leaves something out.
-/

namespace QasmStudio

/-! ### Operands and data -/

namespace Expr

def wire? : Expr → Option Wire
  | .index base (.int (.ofNat n)) => if base.isRegister then some (.register n) else none
  | .physical (.ofNat n) => some (.physical n)
  | _ => none

def angle? : Expr → Option Float
  | .angle x => some x
  | _ => none

/-- Literals, generated variables and their elements, and operations on these. -/
inductive IsData : Expr → Prop
  | int (n : Int) : IsData (.int n)
  | float (x : Float) : IsData (.float x)
  | angle (x : Float) : IsData (.angle x)
  | bool (b : Bool) : IsData (.bool b)
  | bits (s : String) : IsData (.bits s)
  | duration (ns : Int) : IsData (.duration ns)
  | array {elems : List Expr} {ty : Option Ty} : (∀ e ∈ elems, IsData e) → IsData (.array elems ty)
  | var {name : String} {ty : Option Ty} {init : Option Expr} :
      IsGenerated name → IsData (.var name ty init)
  | index {base idx : Expr} : IsData base → IsData idx → IsData (.index base idx)
  | binary {op : String} {l r : Expr} :
      '\n' ∉ op.toList → IsData l → IsData r → IsData (.binary op l r)
  | unary {op : String} {x : Expr} : op ∈ ["!", "-", "~"] → IsData x → IsData (.unary op x)
  | range {start stop : Expr} : IsData start → IsData stop → IsData (.range start stop none)
  | steps {start stop step : Expr} :
      IsData start → IsData stop → IsData step → IsData (.range start stop (some step))

/-- A generated variable, or an element of one. -/
inductive IsTarget : Expr → Prop
  | var {name : String} {ty : Option Ty} {init : Option Expr} :
      IsGenerated name → IsTarget (.var name ty init)
  | element {name : String} {ty : Option Ty} {init : Option Expr} (i : Nat) :
      IsGenerated name → IsTarget (.index (.var name ty init) (.int i))

end Expr

def Ty.IsClassical (t : Ty) : Prop := t.kind ∈ [.bit, .bool, .int, .float, .angle, .array, .duration]

/-! ### Texts without line breaks -/

namespace Stmt

/-- Each name and each expression of the statement stays on its line. -/
inductive Unbroken : Stmt → Prop
  | declare {v : Var} : '\n' ∉ v.declaration → Unbroken (.declare v)
  | assign {target value : Expr} :
      '\n' ∉ target.text → '\n' ∉ value.text → Unbroken (.assign target value)
  | eval {e : Expr} : '\n' ∉ e.text → Unbroken (.eval e)
  | gate {name : String} {args qubits : List Expr} : '\n' ∉ name.toList →
      (∀ e ∈ args ++ qubits, '\n' ∉ e.text) → Unbroken (.gate name args qubits)
  | reset {q : Expr} : '\n' ∉ q.text → Unbroken (.reset q)
  | barrier {qubits : List Expr} : (∀ q ∈ qubits, '\n' ∉ q.text) → Unbroken (.barrier qubits)
  | delay {duration : Expr} {targets : List Expr} : '\n' ∉ duration.text →
      (∀ e ∈ targets, '\n' ∉ e.text) → Unbroken (.delay duration targets)
  | branch {cond : Expr} {thn els : List Stmt} : '\n' ∉ cond.text → (∀ st ∈ thn, Unbroken st) →
      (∀ st ∈ els, Unbroken st) → Unbroken (.branch cond thn els)
  | forIn {v : Var} {iter : Expr} {body : List Stmt} : '\n' ∉ v.parameter → '\n' ∉ iter.text →
      (∀ st ∈ body, Unbroken st) → Unbroken (.forIn v iter body)
  | while {cond : Expr} {body : List Stmt} : '\n' ∉ cond.text → (∀ st ∈ body, Unbroken st) →
      Unbroken (.while cond body)
  | break : Unbroken .break
  | continue : Unbroken .continue
  | return {value : Option Expr} : (∀ e, value = some e → '\n' ∉ e.text) → Unbroken (.return value)
  | pragma {text : String} : '\n' ∉ text.toList → Unbroken (.pragma text)
  | box {body : List Stmt} : (∀ st ∈ body, Unbroken st) → Unbroken (.box body)

end Stmt

structure GateDef.Unbroken (d : GateDef) : Prop where
  name : '\n' ∉ d.name.toList
  params : ∀ v ∈ d.angles ++ d.qubits, '\n' ∉ v.name.toList
  body : ∀ st ∈ d.body, st.Unbroken

structure CalibrationDef.Unbroken (d : CalibrationDef) : Prop where
  gate : '\n' ∉ d.gate.toList
  angles : ∀ e ∈ d.angles, '\n' ∉ CalibrationDef.angleText e
  qubits : ∀ e ∈ d.qubits, '\n' ∉ e.text
  body : ∀ st ∈ d.body, st.Unbroken

structure SubroutineDef.Unbroken (d : SubroutineDef) : Prop where
  name : '\n' ∉ d.name.toList
  params : ∀ v ∈ d.params, '\n' ∉ v.parameter
  body : ∀ st ∈ d.body, st.Unbroken

/-- Each name and each expression of the program stays on its line. -/
structure Program.Unbroken (p : Program) : Prop where
  gates : ∀ d ∈ p.gates, d.Unbroken
  calibrations : ∀ d ∈ p.calibrations, d.Unbroken
  subroutines : ∀ d ∈ p.subroutines, d.Unbroken
  body : ∀ st ∈ p.body, st.Unbroken

/-! ### Legible statements and programs -/

namespace Stmt

inductive Legible : Stmt → Prop
  | gate {name : String} {angles : List Float} {qubits : List Expr} :
      name ∈ NativeGate.all.map (·.name) → qubits ≠ [] → (∀ q ∈ qubits, q.wire?.isSome) →
      Legible (.gate name (angles.map .angle) qubits)
  | reset {q : Expr} : q.wire?.isSome → Legible (.reset q)
  | barrier {qubits : List Expr} : (∀ q ∈ qubits, q.wire?.isSome) → Legible (.barrier qubits)
  | declare {name : String} {ty : Ty} {init : Option Expr} : IsGenerated name → ty.IsClassical →
      (∀ e, init = some e → e.IsData) → Legible (.declare ⟨name, some ty, init⟩)
  | measure {name : String} {q : Expr} : IsGenerated name → q.wire?.isSome →
      Legible (.declare ⟨name, some (Ty.bit 0), some (.measure q)⟩)
  | assign {target value : Expr} : target.IsTarget → value.IsData → Legible (.assign target value)
  | measureInto {target q : Expr} : target.IsTarget → q.wire?.isSome →
      Legible (.assign target (.measure q))
  | pragma {text : String} : '\n' ∉ text.toList → Legible (.pragma text)
  | box {body : List Stmt} : (∀ st ∈ body, Legible st) → Legible (.box body)
  | branch {cond : Expr} {thn els : List Stmt} : cond.IsData → (∀ st ∈ thn, Legible st) →
      (∀ st ∈ els, Legible st) → Legible (.branch cond thn els)
  | forIn {v : Var} {iter : Expr} {body : List Stmt} : IsGenerated v.name → iter.IsData →
      (∀ st ∈ body, Legible st) → Legible (.forIn v iter body)
  | while {cond : Expr} {body : List Stmt} : cond.IsData → (∀ st ∈ body, Legible st) →
      Legible (.while cond body)

end Stmt

/-- A program without subroutines that declares a register at most once. -/
structure Program.Legible (p : Program) (size : Option Int) : Prop where
  subroutines : p.subroutines = []
  gates : ∀ d ∈ p.gates, d.Unbroken
  calibrations : ∀ d ∈ p.calibrations, d.Unbroken
  pending : ∀ v ∈ p.pending, (Stmt.declare v).Legible
  top : ∃ before after, p.top = before ++
    ((size.map fun n => Stmt.declare ⟨registerName, some (.qubit n), none⟩).toList ++ after) ∧
    ∀ st ∈ before ++ after, st.Legible

/-! ### What is drawn -/

/-- An operation of the program: its name in the circuit, its qubits and its angles. -/
structure Drawn where
  name : String
  wires : List Wire
  angles : List Float := []

namespace Stmt

mutual
/-- The operations outside of control flow, in order. -/
def drawn : Stmt → List Drawn
  | .gate name args qubits =>
    [⟨String.ofList (name.toList.map Text.upperAscii), qubits.filterMap Expr.wire?, args.filterMap Expr.angle?⟩]
  | .declare ⟨_, _, some (.measure q)⟩ => [⟨"MEASURE", q.wire?.toList, []⟩]
  | .assign _ (.measure q) => [⟨"MEASURE", q.wire?.toList, []⟩]
  | .reset q => [⟨"RESET", q.wire?.toList, []⟩]
  | .barrier qubits => [⟨"BARRIER", qubits.filterMap Expr.wire?, []⟩]
  | .box body => allDrawn body
  | _ => []

def allDrawn : List Stmt → List Drawn
  | [] => []
  | st :: sts => st.drawn ++ allDrawn sts
end

mutual
def hasControl : Stmt → Bool
  | .branch .. | .forIn .. | .while .. => true
  | .box body => anyControl body
  | _ => false

def anyControl : List Stmt → Bool
  | [] => false
  | st :: sts => st.hasControl || anyControl sts
end

end Stmt

end QasmStudio

import Mathlib.Logic.Relation
import QasmStudio.Proofs.Convert.Names

/-!
# What a build does to its context

`Acts d c c'`: operations without bodies take the context `c` to `c'`. Its constructors are the changes
that operations make one at a time, each with the checks it has passed.

`Writes d c c'`: a stretch of a build takes the context `c` to `c'`. On top of single changes it has
blocks and definitions with a stretch of their own inside. A stretch that stops inside a block, a
definition or a program leaves it on the way out, so `drop` and its kin need no success.

`Passes d c c'` is a stretch that may still be inside of blocks and definitions.

A `Discipline` says what the bodies may name and address, and its `Policy` what else they may do.
`Discipline.free` allows everything.
-/

namespace QasmStudio

/-- What happens during a build, besides what its bodies name and address. -/
structure Policy where
  /-- The routines that are called, by number. -/
  routine : Nat → Routine → Prop := fun _ _ => True
  /-- Are programs and gate definitions opened by hand? -/
  byHand : Prop := True
  number : Int → Prop := fun _ => True
  /-- The names that bodies choose for variables and parameters, by the number of the next generated name. -/
  chosen : Int → String → Prop := fun _ _ => True
  /-- The subroutines in calls that are made by hand. -/
  callee : String → Prop := fun _ => True
  /-- The subroutines whose calls may fail. -/
  fails : String → Prop := fun _ => True
  /-- The subroutines that are defined, by the number of the build. -/
  defines : Nat → SubroutineDef → Prop := fun _ _ => True
  /-- The gates that are applied without a definition. -/
  native : String → Prop := fun _ => True
  definesGate : GateDef → Prop := fun _ => True
  /-- The jumps that are written wherever they stand. -/
  stray : Stmt → Prop := fun _ => True
  /-- The stops after which nothing is known of the context. -/
  excuses : Stop → Prop := fun _ => False
  caught : ∀ e, ¬ excuses (.error e) := by exact fun _ h => h
  lost : (∀ name, fails name) ∨ ∀ e, (∀ x, e ≠ .error x) → excuses e := by exact .inl fun _ => trivial

theorem Policy.lost_default : (∀ _ : String, True) ∨ ∀ e : Stop, (∀ x, e ≠ .error x) → False :=
  .inl fun _ => trivial

/-- What the bodies of a build may name and address. -/
structure Discipline where
  name : String → Prop
  wire : Value → Prop
  index : Int → Prop
  generated : ∀ stem n, name (generatedName stem n)
  nothing : wire .none
  policy : Policy := {}

/-- Everything is named and addressed that the policy allows. -/
def Policy.discipline (π : Policy) : Discipline where
  name _ := True
  wire _ := True
  index _ := True
  generated _ _ := trivial
  nothing := trivial
  policy := π

/-- Everything is allowed, and the given stops are excused. -/
def Policy.cut (X : Stop → Prop) (hX : ∀ e, ¬ X (.error e)) : Policy where
  excuses := X
  caught := hX

/-- What the policy allows, and one stop is excused. -/
def Policy.excusing (π : Policy) (hf : ∀ name, π.fails name) (e : Stop) (he : ∀ x, Stop.error x ≠ e) :
    Policy :=
  { π with excuses := (· = e), caught := he, lost := .inl hf }

def Discipline.free : Discipline := Policy.discipline {}

namespace Context

@[simp] theorem current_updateCurrent (c : Context) (f : Program → Program) :
    (c.updateCurrent f).current = f c.current := by
  unfold updateCurrent current
  cases c.inner <;> rfl

/-- What blocks, programs and definitions leave to the changes inside of them. -/
def marks (c : Context) : List String × Option Var × Nat := (c.given, c.returned, c.build)

def emit (c : Context) (st : Stmt) : Context := c.updateCurrent (·.add st)

def openBlock (c : Context) : Context := c.updateCurrent Program.openBlock

def closeBlock (c : Context) : Context := c.updateCurrent Program.closeBlock

/-- The statements written to the innermost block. -/
def captured (c : Context) : List Stmt := c.current.innermost

def enterVerbatim (c : Context) : Context := { c with verbatim := true }

def leaveVerbatim (c : Context) : Context := { c with verbatim := false }

def enterProgram (p : Program) (c : Context) : Context := { c with inner := p :: c.inner }

def leaveProgram (c : Context) : Context := { c with inner := c.inner.tail }

def enterRoutine (key : Nat) (stub : Stub) (p : Program) (c : Context) : Context :=
  { c with converting := (key, stub) :: c.converting, inner := p :: c.inner }

def leaveRoutine (key : Nat) (c : Context) : Context :=
  { c with inner := c.inner.tail, converting := c.converting.filter (·.1 != key) }

def enterGate (r : GateRecord) (c : Context) : Context := { c with gates := r :: c.gates }

def leaveGate (c : Context) : Context := { c with gates := c.gates.tail }

def enterCalibration (r : CalibrationRecord) (c : Context) : Context :=
  { c with calibrations := r :: c.calibrations }

def leaveCalibration (c : Context) : Context := { c with calibrations := c.calibrations.tail }

/-- A build goes on, and operations of that mode are allowed. -/
def Permits (c : Context) (mode : Mode) : Prop := c.active = true ∧ c.refusal? mode = none

/-- A return with that value, or with none, fits the routine in conversion. -/
def Yields (c : Context) (e : Option Expr) : Prop :=
  ∃ x ∈ c.converting.head?, e.isSome = x.2.returns.isSome

/-- The name is the generated one that was given out last. -/
def Generated (c : Context) (name : String) : Prop :=
  ∃ kind stem names, nameStem? kind = some stem ∧ name = generatedName stem (Word.wrap names.length) ∧
    c.given = name :: names

/-- As `Generated`, with a number that may be given out. -/
def Numbered (c : Context) (π : Policy) (name : String) : Prop :=
  ∃ kind stem names, nameStem? kind = some stem ∧ name = generatedName stem (Word.wrap names.length) ∧
    c.given = name :: names ∧ π.number (Word.wrap names.length)

end Context

/-- The parameters of a routine, as the variables its body sees. -/
def Routine.locals (r : Routine) : List Var := r.params.map fun p => ⟨p.name, p.ty, none⟩

/-- The program a subroutine's body is written to, before anything is written. -/
def Routine.blank (r : Routine) : Program := r.locals.foldl Program.markDeclared {}

/-- The value is what a call of a routine in conversion stands for. -/
def Routine.IsZero (r : Routine) (z : Zero) : Prop :=
  match r.returns with
  | none => z = .absent
  | some t => t.zero = .ok z

namespace Discipline

/-- An operand that has been resolved; the register element it fixes is registered. -/
def Addressed (d : Discipline) (c : Context) (t : Target) : Prop :=
  (∃ v : Value, v.Over d.name ∧ d.wire v ∧ c.resolve v = .ok t) ∧ ∀ i, t.index = some i → i ∈ c.qubits

/-- An argument of a subroutine call. -/
def Argument (d : Discipline) (c : Context) (e : Expr) : Prop :=
  e.Over d.name ∨ ∃ t, d.Addressed c t ∧ t.expr = e

/-- An index that an operand fixes, or one that is registered by hand. -/
def Registers (d : Discipline) (c : Context) (i : Int) : Prop :=
  (∃ (v : Value) (t : Target), d.wire v ∧ c.resolve v = .ok t ∧ t.index = some i) ∨ d.index i

/-- The gate needs no definition, or has one. -/
def Applies (d : Discipline) (c : Context) (name : String) : Prop :=
  d.policy.native name ∨ c.root.hasGate name = true

def pulseCalls : List String := ["play", "shift_phase", "set_phase", "set_frequency", "shift_frequency"]

/-- The subroutine is defined or in conversion. -/
def Knows (d : Discipline) (c : Context) (name : String) : Prop :=
  c.root.hasSubroutine name = true ∨
    ∃ key stub r, (key, stub) ∈ c.converting ∧ d.policy.routine key r ∧ r.name = name

/-- If the expression is a call, then one that may be made by hand. -/
def Grants (d : Discipline) (e : Expr) : Prop := ∀ name, e.callee? = some name → d.policy.callee name

/-- The statements that are written one at a time. -/
inductive Emits (d : Discipline) (c : Context) : Stmt → Prop
  | gate {name args} {ts : List Target} (hp : c.Permits .unitary) (hn : d.Applies c name)
      (ht : ∀ t ∈ ts, d.Addressed c t) (ha : ∀ e ∈ args, e.Over d.name)
      (hf : c.foreign? (ts.map (·.expr)) args = none) :
      Emits d c (.gate name args (ts.map (·.expr)))
  | reset {t : Target} (hp : c.Permits .classical) (ht : d.Addressed c t) : Emits d c (.reset t.expr)
  | barrier {ts : List Target} (hp : c.Permits .classical) (ht : ∀ t ∈ ts, d.Addressed c t) :
      Emits d c (.barrier (ts.map (·.expr)))
  | measure {v : Var} {i : Nat} {t : Target} (hp : c.Permits .classical) (hv : c.Generated v.name)
      (ht : d.Addressed c t) : Emits d c (.assign (.index v.expr (.int i)) (.measure t.expr))
  | assign {v : Var} {e : Expr} (hp : c.Permits .classical) (he : e.Over d.name) :
      Emits d c (.assign v.expr e)
  | call {name args} (hp : c.Permits .classical) (hk : d.Knows c name)
      (ha : ∀ e ∈ args, d.Argument c e) :
      Emits d c (.eval (.call name args none))
  | break (hp : c.Permits .classical) (hs : d.policy.stray .break) : Emits d c .break
  | continue (hp : c.Permits .classical) (hs : d.policy.stray .continue) : Emits d c .continue
  | return {e : Option Expr} (hp : c.Permits .classical) (he : ∀ x, e = some x → x.Over d.name)
      (hs : d.policy.stray (.return e) ∨ c.Yields e) : Emits d c (.return e)
  | pulse {name frame} {e : Expr} (hp : c.Permits .pulse) (hn : name ∈ pulseCalls) (he : e.Over d.name) :
      Emits d c (.eval (.call name [.frame frame, e] none))
  | delay {ns targets} (hp : c.Permits .pulse)
      (ht : ∀ e ∈ targets, (∃ name, e = .frame name) ∨ ∃ t, d.Addressed c t ∧ t.expr = e) :
      Emits d c (.delay (.duration ns) targets)

/-- The variables that are declared where they stand. -/
inductive Declares (d : Discipline) (c : Context) : Var → Prop
  | measured {name} {t : Target} (hn : c.Numbered d.policy name) (ht : d.Addressed c t) :
      Declares d c ⟨name, some (Ty.bit 0), some (.measure t.expr)⟩
  | zeros {name n bits} (hn : c.Numbered d.policy name) :
      Declares d c ⟨name, some (Ty.bit n), some (.bits bits)⟩
  | result {name routine args t} (hn : c.Numbered d.policy name) (hk : d.Knows c routine)
      (ha : ∀ e ∈ args, d.Argument c e) :
      Declares d c ⟨name, some t, some (.call routine args (some t))⟩
  | assigned {name} {e : Expr} (hn : d.name name) (hc : d.policy.chosen c.nextVar name)
      (hl : c.current.lookup? name = none) (he : e.Over d.name) (hg : d.Grants e) :
      Declares d c ⟨name, e.ty, some e⟩

/-- The body of a subroutine may be converted. -/
structure Begins (d : Discipline) (c : Context) (key : Nat) (r : Routine) (stub : Stub) : Prop where
  permits : c.Permits .classical
  routine : d.policy.routine key r
  kind : r.kind ≠ .gate
  idle : c.converting.lookup key = none
  missing : c.root.hasSubroutine r.name = false
  names : ∀ v ∈ r.locals, d.name v.name
  chosen : ∀ p ∈ r.params, d.policy.chosen c.nextVar p.name
  stub : ∃ z, r.IsZero z ∧ stub = ⟨r.name, r.locals, r.returns, z⟩

/-- A gate definition may be opened: by hand, or for a routine that is not being defined. -/
def Opens (d : Discipline) (c : Context) (g : GateRecord) : Prop :=
  d.policy.byHand ∨
    (∃ key r, d.policy.routine key r ∧ r.kind = .gate ∧ r.name = g.name) ∧ ∀ x ∈ c.gates, x.name ≠ g.name

end Discipline

open Discipline Context

/-- Changes of operations without bodies, one after the other. -/
inductive Acts (d : Discipline) : Context → Context → Prop
  | refl {c} : Acts d c c
  | trans {c c₁ c₂} (h₁ : Acts d c c₁) (h₂ : Acts d c₁ c₂) : Acts d c c₂
  | register {c i} (h : d.Registers c i) : Acts d c (c.register i)
  | fresh {c : Context} {kind stem} (hs : nameStem? kind = some stem) (h : d.policy.number c.nextVar) :
      Acts d c (c.giveOut stem)
  | emit {c st} (h : d.Emits c st) : Acts d c (c.emit st)
  | declare {c : Context} {v p} (hp : c.Permits .classical) (hv : d.Declares c v)
      (h : c.current.declare? v = some p) : Acts d c (c.updateCurrent fun _ => p)
  | pend {c : Context} {v : Var} (hp : c.Permits .classical) (hn : c.Numbered d.policy v.name)
      (hi : ∀ e, v.init = some e → e.Over d.name ∧ d.Grants e) :
      Acts d c (c.updateCurrent (·.addPending v))
  | mark {c : Context} {v : Var} (hp : c.Permits .classical) (hn : c.Numbered d.policy v.name) :
      Acts d c (c.updateCurrent (·.markDeclared v))
  | returned {c : Context} {v : Option Var} (hv : ∀ w, v = some w → d.name w.name) :
      Acts d c { c with returned := v }
  | pulse {c : Context} (hp : c.Permits .pulse) : Acts d c { c with pulse := true }
  | announce {c : Context} (h : c.pulse = true) : Acts d c (c.updateRoot (·.enablePulse))
  | stub {c : Context} {key stub} (hp : c.Permits .classical) (h : (key, stub) ∈ c.converting) :
      Acts d c (c.updateCurrent (·.addSubroutine stub.definition))

/-- A stretch of a build that ends where it began. -/
inductive Writes (d : Discipline) : Context → Context → Prop
  | acts {c c'} (h : Acts d c c') : Writes d c c'
  | trans {c c₁ c₂} (h₁ : Writes d c c₁) (h₂ : Writes d c₁ c₂) : Writes d c c₂
  -- blocks
  | drop {c c₁} (h : Writes d c.openBlock c₁) : Writes d c c₁.closeBlock
  | branch {c c₁ c₂ : Context} {e : Expr} (hp : c.Permits .classical) (he : e.Over d.name)
      (h₁ : Writes d c.openBlock c₁) (h₂ : Writes d c₁.closeBlock.openBlock c₂) :
      Writes d c (c₂.closeBlock.emit (.branch e c₁.captured c₂.captured))
  | forIn {c c₁ : Context} {v : Var} {iter : Expr} (hp : c.Permits .classical) (hn : c.Generated v.name)
      (hv : v.init = none) (he : iter.Over d.name) (h : Writes d c.openBlock c₁) :
      Writes d c (c₁.closeBlock.emit (.forIn v iter c₁.captured))
  | while {c c₁ : Context} {e : Expr} (hp : c.Permits .classical) (he : e.Over d.name)
      (h : Writes d c.openBlock c₁) : Writes d c (c₁.closeBlock.emit (.while e c₁.captured))
  | abandon {c c₁} (hp : c.Permits .classical) (hv : Convert.verbatimRefusal? c = none)
      (h : Writes d c.enterVerbatim.openBlock c₁) : Writes d c c₁.closeBlock.leaveVerbatim
  | verbatim {c c₁} (hp : c.Permits .classical) (hv : Convert.verbatimRefusal? c = none)
      (h : Writes d c.enterVerbatim.openBlock c₁) :
      Writes d c ((c₁.closeBlock.emit (.pragma "braket verbatim")).emit (.box c₁.captured)).leaveVerbatim
  -- programs and definitions
  | program {c c₁} (hb : d.policy.byHand) (h : Writes d (c.enterProgram {}) c₁) :
      Writes d c c₁.leaveProgram
  | failed {c c₁ key r stub} (hb : d.Begins c key r stub) (hf : d.policy.fails r.name)
      (h : Writes d (c.enterRoutine key stub r.blank) c₁) : Writes d c (c₁.leaveRoutine key)
  | known {c c₁ key r stub} (hb : d.Begins c key r stub)
      (h : Writes d (c.enterRoutine key stub r.blank) c₁)
      (hm : (c₁.leaveRoutine key).root.hasSubroutine r.name = true) : Writes d c (c₁.leaveRoutine key)
  | subroutine {c c₁ key r stub} (hb : d.Begins c key r stub)
      (h : Writes d (c.enterRoutine key stub r.blank) c₁)
      (hd : d.policy.defines c.build ⟨r.name, r.locals, r.returns, c₁.current.body, false⟩)
      (hm : (c₁.leaveRoutine key).root.hasSubroutine r.name = false) :
      Writes d c ((c₁.leaveRoutine key).updateRoot
        (·.addSubroutine ⟨r.name, r.locals, r.returns, c₁.current.body, false⟩))
  | scope {c : Context} {c₁ r} (ho : d.Opens c r) (hr : (c.enterGate r).refusal? .unitary = none)
      (h : Writes d (c.enterGate r).openBlock c₁) : Writes d c c₁.closeBlock.leaveGate
  | gate {c : Context} {c₁ r} (ho : d.Opens c r) (hr : (c.enterGate r).refusal? .unitary = none)
      (h : Writes d (c.enterGate r).openBlock c₁)
      (hd : d.policy.definesGate ⟨r.name, GateParam.angles r.params, GateParam.qubits r.params, c₁.captured⟩)
      (hm : c₁.closeBlock.root.hasGate r.name = false) :
      Writes d c (c₁.closeBlock.updateRoot (·.addGate
        ⟨r.name, GateParam.angles r.params, GateParam.qubits r.params, c₁.captured⟩)).leaveGate
  | calibration {c : Context} {c₁ r} (hr : (c.enterCalibration r).refusal? .pulse = none)
      (h : Writes d (c.enterCalibration r).openBlock c₁) : Writes d c c₁.closeBlock.leaveCalibration

theorem Writes.refl {d : Discipline} {c : Context} : Writes d c c := .acts .refl

/-- A block, a program or a definition is entered. -/
inductive Enters (d : Discipline) : Context → Context → Prop
  | block {c} : Enters d c c.openBlock
  | verbatim {c} (hp : c.Permits .classical) (hv : Convert.verbatimRefusal? c = none) :
      Enters d c c.enterVerbatim
  | program {c} (hb : d.policy.byHand) : Enters d c (c.enterProgram {})
  | routine {c key r stub} (hb : d.Begins c key r stub) :
      Enters d c (c.enterRoutine key stub r.blank)
  | gate {c : Context} {r} (ho : d.Opens c r) (hr : (c.enterGate r).refusal? .unitary = none) :
      Enters d c (c.enterGate r)
  | calibration {c : Context} {r} (hr : (c.enterCalibration r).refusal? .pulse = none) :
      Enters d c (c.enterCalibration r)

/-- A stretch of a build that may be inside of something it has entered. -/
def Passes (d : Discipline) : Context → Context → Prop :=
  Relation.ReflTransGen fun c c' => Writes d c c' ∨ Enters d c c'

/-- Every context that a build can pass from `c` on satisfies `A`. -/
def Quiet (d : Discipline) (A : Context → Prop) (c : Context) : Prop := ∀ t, Passes d c t → A t

namespace Quiet
variable {d : Discipline} {A : Context → Prop} {c c' : Context}

theorem here (h : Quiet d A c) : A c := h c .refl

theorem writes (h : Quiet d A c) (hw : Writes d c c') : Quiet d A c' := fun t ht => h t (.head (.inl hw) ht)

theorem enters (h : Quiet d A c) (he : Enters d c c') : Quiet d A c' := fun t ht => h t (.head (.inr he) ht)

/-- What every stretch and every entrance preserves is so wherever a build passes. -/
theorem of_preserved (hw : ∀ {c c'}, A c → Writes d c c' → A c') (he : ∀ {c c'}, A c → Enters d c c' → A c')
    (h : A c) : Quiet d A c := by
  intro t hp
  induction hp with
  | refl => exact h
  | tail _ hstep ih => exact hstep.elim (hw ih) (he ih)

end Quiet

end QasmStudio

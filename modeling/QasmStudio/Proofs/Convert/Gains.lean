import QasmStudio.Proofs.Convert.Interpreter

/-!
# What a context gains

Some contexts are all but closed to the operations that are handed them: one whose build is over admits
no statement at all, and inside of a gate definition only calls of gates are written. `Context.Gains`
says what can happen to such a context nevertheless. Statements are appended to its innermost block and
gates to the table of its root; and the methods of the context itself ask for no permission, so they
register qubits, take names and announce the pulse grammar wherever they are called.

A gate definition and a program of its own drop what was written to them, so that all that is left of them
is a gate in the table, if their body came to its end.
-/

namespace QasmStudio

/-- What may happen to the context of a build. -/
structure Licence where
  build : Nat
  /-- Is it only inside of gate definitions that no more than this happens? -/
  inGate : Prop
  stmts : Stmt → Prop
  gates : GateDef → Prop
  /-- May its methods be called that register qubits, take names and announce the pulse grammar? -/
  methods : Prop

def Licence.silent (π : Licence) : Licence := { π with stmts := fun _ => False }

/-- The operation is a method that changes the context it is called on, whatever is allowed there. -/
def Action.meddles (c : Context) : Action → Bool
  | .registerQubit _ | .nextName _ => true
  | .result => c.pulse && !c.root.pulse
  | _ => false

namespace Context
variable {π : Licence} {c c' c₁ c₂ : Context}

/-- The context with some more gates at the root and with other marks of its methods. -/
def amended (c : Context) (new : List GateDef) (qubits : List Int) (given : List String) (pulse : Bool) : Context :=
  { c with
    root := { c.root with gates := c.root.gates ++ new, pulse := pulse }
    qubits := qubits
    given := given }

def written (c : Context) (sts : List Stmt) : Context := sts.foldl emit c

/-- The second context is the first one with what the licence allows. -/
def Gains (π : Licence) (c c' : Context) : Prop :=
  ∃ sts new qubits given pulse, c' = (c.written sts).amended new qubits given pulse ∧
    (∀ st ∈ sts, π.stmts st) ∧ (∀ x ∈ new, π.gates x) ∧ c.qubits ⊆ qubits ∧
    (π.methods ∨ qubits = c.qubits ∧ given = c.given ∧ pulse = c.root.pulse)

/-! ### Writing and amending -/

section written
variable (c : Context) (sts : List Stmt)

theorem written_append (sts' : List Stmt) : c.written (sts ++ sts') = (c.written sts).written sts' :=
  List.foldl_append

theorem written_eq_updateCurrent : c.written sts = c.updateCurrent (sts.foldl Program.add ·) := by
  induction sts generalizing c with
  | nil =>
    unfold updateCurrent
    cases hi : c.inner <;> cases c <;> simp_all [written]
  | cons st sts ih =>
    show (c.emit st).written sts = _
    rw [ih]
    unfold emit updateCurrent
    cases c.inner <;> rfl

theorem amended_self : c.amended [] c.qubits c.given c.root.pulse = c := by
  simp [amended]

end written

theorem emit_amended (st : Stmt) (new : List GateDef) (qs : List Int) (n : List String) (b : Bool) :
    (c.amended new qs n b).emit st = (c.emit st).amended new qs n b := by
  unfold emit updateCurrent amended
  cases c.inner <;> rfl

theorem written_amended (sts : List Stmt) (new : List GateDef) (qs : List Int) (n : List String) (b : Bool) :
    (c.amended new qs n b).written sts = (c.written sts).amended new qs n b := by
  induction sts generalizing c with
  | nil => rfl
  | cons st sts ih =>
    show ((c.amended new qs n b).emit st).written sts = ((c.emit st).written sts).amended new qs n b
    rw [emit_amended, ih]

theorem amended_amended (new new' : List GateDef) (qs qs' : List Int) (n n' : List String) (b b' : Bool) :
    (c.amended new qs n b).amended new' qs' n' b' = c.amended (new ++ new') qs' n' b' := by
  simp [amended]

theorem closeBlock_amended (new : List GateDef) (qs : List Int) (n : List String) (b : Bool) :
    (c.amended new qs n b).closeBlock = c.closeBlock.amended new qs n b := by
  unfold closeBlock updateCurrent amended
  cases c.inner <;> rfl

theorem closeBlock_written (sts : List Stmt) : (c.openBlock.written sts).closeBlock = c := by
  have hfold : ∀ (sts : List Stmt) (p : Program) (stmts : List Stmt),
      (sts.foldl Program.add { p with nested := stmts :: p.nested }).closeBlock = p := by
    intro sts
    induction sts with
    | nil => exact fun _ _ => rfl
    | cons st sts ih => exact fun p stmts => ih p (stmts ++ [st])
  rw [written_eq_updateCurrent]
  unfold closeBlock openBlock updateCurrent
  cases hi : c.inner with
  | nil =>
    have hroot := hfold sts c.root []
    cases c
    simp_all [Program.openBlock]
  | cons p ps =>
    have hprogram := hfold sts p []
    cases c
    simp_all [Program.openBlock]

/-! ### Marks that writing does not touch -/

section marks
variable (c : Context) (sts : List Stmt)

@[simp] theorem qubits_written : (c.written sts).qubits = c.qubits := by rw [written_eq_updateCurrent]; rfl

@[simp] theorem given_written : (c.written sts).given = c.given := by rw [written_eq_updateCurrent]; rfl

@[simp] theorem gates_written : (c.written sts).gates = c.gates := by rw [written_eq_updateCurrent]; rfl

@[simp] theorem build_written : (c.written sts).build = c.build := by rw [written_eq_updateCurrent]; rfl

@[simp] theorem active_written : (c.written sts).active = c.active := by rw [written_eq_updateCurrent]; rfl

theorem pulse_root_written : (c.written sts).root.pulse = c.root.pulse := by
  induction sts generalizing c with
  | nil => rfl
  | cons st sts ih =>
    refine (ih (c.emit st)).trans ?_
    unfold emit updateCurrent
    cases c.inner <;> rfl

end marks

/-! ### Gaining is lasting -/

namespace Gains

theorem refl (c : Context) : c.Gains π c :=
  ⟨[], [], c.qubits, c.given, c.root.pulse, c.amended_self.symm, by simp, by simp, List.Subset.refl _,
    .inr ⟨rfl, rfl, rfl⟩⟩

theorem trans (h₁ : c.Gains π c₁) (h₂ : c₁.Gains π c₂) : c.Gains π c₂ := by
  obtain ⟨sts, new, qs, n, b, rfl, hsts, hnew, hqs, hm⟩ := h₁
  obtain ⟨sts', new', qs', n', b', rfl, hsts', hnew', hqs', hm'⟩ := h₂
  refine ⟨sts ++ sts', new ++ new', qs', n', b', ?_, ?_, ?_, List.Subset.trans hqs hqs', ?_⟩
  · rw [written_amended, amended_amended, written_append]
  · exact fun st hst => (List.mem_append.1 hst).elim (hsts st) (hsts' st)
  · exact fun x hx => (List.mem_append.1 hx).elim (hnew x) (hnew' x)
  · rcases hm with hm | ⟨rfl, rfl, rfl⟩
    · exact .inl hm
    · exact hm'

theorem gates (h : c.Gains π c') : c'.gates = c.gates := by
  obtain ⟨sts, new, qs, n, b, rfl, -⟩ := h
  exact gates_written c sts

theorem build (h : c.Gains π c') : c'.build = c.build := by
  obtain ⟨sts, new, qs, n, b, rfl, -⟩ := h
  exact build_written c sts

theorem active (h : c.Gains π c') : c'.active = c.active := by
  obtain ⟨sts, new, qs, n, b, rfl, -⟩ := h
  exact active_written c sts

/-- Where nothing is written, all but a few marks of the context are as they were. -/
theorem of_silent (h : c.Gains π.silent c') :
    ∃ new qubits given pulse, c' = c.amended new qubits given pulse ∧ (∀ x ∈ new, π.gates x) ∧
      c.qubits ⊆ qubits ∧ (π.methods ∨ qubits = c.qubits ∧ given = c.given ∧ pulse = c.root.pulse) := by
  obtain ⟨sts, new, qs, n, b, rfl, hsts, hrest⟩ := h
  cases sts with
  | nil => exact ⟨new, qs, n, b, rfl, hrest⟩
  | cons st sts => exact (hsts st (List.mem_cons_self ..)).elim

theorem of_amended {new : List GateDef} {qs : List Int} {n : List String} {b : Bool} (hnew : ∀ x ∈ new, π.gates x)
    (hqs : c.qubits ⊆ qs) (hm : π.methods ∨ qs = c.qubits ∧ n = c.given ∧ b = c.root.pulse) :
    c.Gains π (c.amended new qs n b) := ⟨[], new, qs, n, b, rfl, by simp, hnew, hqs, hm⟩

theorem loud (h : c.Gains π.silent c') : c.Gains π c' := by
  obtain ⟨new, qs, n, b, rfl, hnew, hqs, hm⟩ := h.of_silent
  exact .of_amended hnew hqs hm

theorem emit {st : Stmt} (h : π.stmts st) : c.Gains π (c.emit st) := by
  refine ⟨[st], [], c.qubits, c.given, c.root.pulse, ?_, by simpa using h, by simp, List.Subset.refl _,
    .inr ⟨rfl, rfl, rfl⟩⟩
  show c.emit st = (c.written [st]).amended [] c.qubits c.given c.root.pulse
  rw [← qubits_written c [st], ← given_written c [st], ← pulse_root_written c [st], amended_self]
  rfl

theorem addGate {x : GateDef} (hx : π.gates x) (hm : c.root.hasGate x.name = false) :
    c.Gains π (c.updateRoot (·.addGate x)) := by
  have heq : c.updateRoot (·.addGate x) = c.amended [x] c.qubits c.given c.root.pulse := by
    unfold updateRoot amended
    dsimp only
    unfold Program.addGate
    rw [Program.put_of_all_not hm]
  rw [heq]
  exact .of_amended (by simpa using hx) (List.Subset.refl _) (.inr ⟨rfl, rfl, rfl⟩)

/-! ### Leaving what was entered -/

theorem leaveProgram {p : Program} (h : (c.enterProgram p).Gains π c₁) : c.Gains π.silent c₁.leaveProgram := by
  obtain ⟨sts, new, qs, n, b, rfl, -, hnew, hqs, hm⟩ := h
  rw [written_eq_updateCurrent]
  exact .of_amended hnew hqs hm

theorem closeBlock (h : c.openBlock.Gains π c₁) : c.Gains π.silent c₁.closeBlock := by
  obtain ⟨sts, new, qs, n, b, rfl, -, hnew, hqs, hm⟩ := h
  rw [closeBlock_amended, closeBlock_written]
  have hpulse : c.openBlock.root.pulse = c.root.pulse := by
    unfold openBlock updateCurrent
    cases c.inner <;> rfl
  rw [hpulse] at hm
  exact .of_amended hnew hqs hm

theorem leaveGate {r : GateRecord} (h : (c.enterGate r).Gains π c₁) : c.Gains π c₁.leaveGate := by
  obtain ⟨sts, new, qs, n, b, rfl, hsts, hnew, hqs, hm⟩ := h
  refine ⟨sts, new, qs, n, b, ?_, hsts, hnew, hqs, hm⟩
  rw [written_eq_updateCurrent, written_eq_updateCurrent]
  unfold Context.leaveGate enterGate updateCurrent amended
  cases c.inner <;> rfl

theorem leaveCalibration {r : CalibrationRecord} (h : (c.enterCalibration r).Gains π c₁) :
    c.Gains π c₁.leaveCalibration := by
  obtain ⟨sts, new, qs, n, b, rfl, hsts, hnew, hqs, hm⟩ := h
  refine ⟨sts, new, qs, n, b, ?_, hsts, hnew, hqs, hm⟩
  rw [written_eq_updateCurrent, written_eq_updateCurrent]
  unfold Context.leaveCalibration enterCalibration updateCurrent amended
  cases c.inner <;> rfl

end Gains

end Context

end QasmStudio

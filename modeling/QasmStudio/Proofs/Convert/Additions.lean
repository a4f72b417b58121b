import QasmStudio.Proofs.Convert.Advance

/-!
# Rules about what is written

A `Rule` says what may be added where the build is, and what it says may depend on the definition in
progress. If every statement that is written on its own conforms, and so does a statement around blocks
that conform, then so does whatever a stretch of a build adds where it stands, and so do the definitions
that it makes on the way (`Writes.adds`).
-/

namespace QasmStudio

open List

/-- A branch or a loop around the blocks. -/
inductive Stmt.Nests : Stmt → List (List Stmt) → Prop
  | branch {e thn els} : Nests (.branch e thn els) [thn, els]
  | forIn {v iter body} : Nests (.forIn v iter body) [body]
  | while {e body} : Nests (.while e body) [body]

/-- `q` is `p` with statements at the end of the innermost block that satisfy `P` together. -/
def Program.Appends (P : List Stmt → Prop) (p q : Program) : Prop :=
  ∃ new, P new ∧ q.blocks = (p.innermost ++ new) :: p.blocks.tail

namespace Program.Appends
variable {P : List Stmt → Prop} {p q r : Program}

theorem of_blocks (hn : P []) (h : q.blocks = p.blocks) : p.Appends P q :=
  ⟨[], hn, by rw [h, append_nil, ← blocks_eq]⟩

theorem trans (ha : ∀ {xs ys}, P xs → P ys → P (xs ++ ys)) (h₁ : p.Appends P q) (h₂ : q.Appends P r) :
    p.Appends P r := by
  obtain ⟨a, hpa, hqa⟩ := h₁
  obtain ⟨b, hpb, hrb⟩ := h₂
  refine ⟨a ++ b, ha hpa hpb, ?_⟩
  rw [hrb, innermost_of_blocks hqa, hqa, append_assoc, tail_cons]

theorem add {st : Stmt} (h : P [st]) : p.Appends P (p.add st) := ⟨[st], h, blocks_add p st⟩

theorem add_add {st st' : Stmt} (h : P [st, st']) : p.Appends P ((p.add st).add st') := by
  refine ⟨[st, st'], h, ?_⟩
  rw [blocks_add, innermost_of_blocks (blocks_add p st), blocks_add, append_assoc, tail_cons]
  rfl

theorem declare? {v : Var} (hv : P [.declare v]) (h : p.declare? v = some q) : p.Appends P q := by
  refine ⟨[.declare v], hv, ?_⟩
  unfold Program.declare? at h
  split at h
  · cases h
  · cases h
    exact blocks_add _ _

/-- A block that was opened in `p` is all that was added, and closing it gives back the blocks of `p`. -/
theorem closeBlock (h : p.openBlock.Appends P q) : q.closeBlock.blocks = p.blocks ∧ P q.innermost := by
  obtain ⟨new, hn, hq⟩ := h
  have hq' : q.blocks = new :: p.blocks := hq
  have hne : p.blocks ≠ [] := by
    rw [blocks_eq]
    exact cons_ne_nil _ _
  refine ⟨blocks_closeBlock hq' hne, ?_⟩
  rw [innermost_of_blocks hq']
  exact hn

theorem top (h : p.Appends P q) (hp : p.blocks = [[]]) : P q.top := by
  obtain ⟨new, hnew, hq⟩ := h
  rw [innermost_of_blocks hp, hp] at hq
  have hsplit : q.nested ++ [q.top] = [] ++ [new] := hq
  rw [singleton_inj.1 (append_inj_right' hsplit rfl)]
  exact hnew

end Program.Appends

/-- A rule about what is written, which is kept by every statement that is written on its own. -/
structure Rule (d : Discipline) where
  /-- What conforms to the rule, where the build is. -/
  admits : Context → List Stmt → Prop
  /-- The subroutines that conform. -/
  defines : SubroutineDef → Prop := fun _ => True
  congr : ∀ {c c' : Context}, c'.gates = c.gates → c'.calibrations = c.calibrations →
    c'.verbatim = c.verbatim → c'.config = c.config → c'.converting = c.converting →
    c'.stackSize = c.stackSize → admits c' = admits c
  nil : ∀ c, admits c []
  append : ∀ {c xs ys}, admits c xs → admits c ys → admits c (xs ++ ys)
  emits : ∀ {c st}, d.Emits c st → admits c [st]
  declares : ∀ {c}, c.Permits .classical → ∀ v, admits c [.declare v]
  nests : ∀ {c st bs}, c.Permits .classical → Stmt.Nests st bs → (∀ b ∈ bs, admits c b) → admits c [st]
  boxes : ∀ {c b}, c.Permits .classical → Convert.verbatimRefusal? c = none → admits c.enterVerbatim b →
    admits c [.pragma "braket verbatim", .box b]
  stub : ∀ stub : Stub, defines stub.definition := by exact fun _ => trivial
  routine : ∀ {c key r stub body}, d.Begins c key r stub → admits (c.enterRoutine key stub r.blank) body →
    defines ⟨r.name, r.locals, r.returns, body, false⟩ := by exact fun _ _ => trivial

namespace Rule
variable {d : Discipline} {R : Rule d} {c c' : Context}

theorem of_advance (R : Rule d) (h : c.Advance c') : R.admits c' = R.admits c :=
  R.congr h.gates h.calibrations h.verbatim h.config h.converting h.stackSize

theorem openBlock (R : Rule d) (c : Context) : R.admits c.openBlock = R.admits c := by
  refine R.congr rfl rfl rfl rfl rfl ?_
  unfold Context.stackSize Context.openBlock Context.updateCurrent
  cases c.inner <;> rfl

theorem declarations (R : Rule d) (h : c.Permits .classical) (vs : List Var) : R.admits c (vs.map .declare) := by
  induction vs with
  | nil => exact R.nil c
  | cons v vs ih => exact R.append (R.declares h v) ih

/-- The body of the gate conforms to the rule, where it was written. -/
def Defines (R : Rule d) (g : GateDef) : Prop :=
  ∃ (c : Context) (r : GateRecord) (rs : List GateRecord), c.gates = r :: rs ∧
    g.angles = GateParam.angles r.params ∧ g.qubits = GateParam.qubits r.params ∧ R.admits c g.body

/-- A rule about the statements of gates and calibrations, each by itself. -/
def inDefinitions (admits : Context → Stmt → Prop)
    (congr : ∀ {c c' : Context}, c'.gates = c.gates → c'.calibrations = c.calibrations →
      c'.verbatim = c.verbatim → c'.config = c.config → admits c' = admits c)
    (emits : ∀ {c : Context} {st : Stmt}, d.Emits c st → admits c st)
    (outside : ∀ {c : Context}, c.gates = [] → c.calibrations = [] → ∀ st, admits c st) : Rule d :=
  have all {c : Context} (h : c.Permits .classical) (sts : List Stmt) : ∀ st ∈ sts, admits c st :=
    fun st _ => outside (Context.outside_of_permits h).1 (Context.outside_of_permits h).2 st
  { admits := fun c sts => ∀ st ∈ sts, admits c st
    congr := fun hg hc hv hf _ _ => by rw [congr hg hc hv hf]
    nil := fun _ _ h => absurd h not_mem_nil
    append := fun hx hy st h => (mem_append.1 h).elim (hx st) (hy st)
    emits := fun h st hst => mem_singleton.1 hst ▸ emits h
    declares := fun h _ => all h _
    nests := fun h _ _ => all h _
    boxes := fun h _ _ => all h _ }

end Rule

namespace Context
variable {P : SubroutineDef → Prop} {c c' c₁ c₂ : Context} {f : Program → Program} {st : Stmt}

theorem gates_root_emit (c : Context) (st : Stmt) : (c.emit st).root.gates = c.root.gates :=
  gates_root_updateCurrent rfl

/-- The subroutines of all programs that are being written satisfy `P`. -/
def AllSubroutines (P : SubroutineDef → Prop) (c : Context) : Prop := ∀ p ∈ c.stack, ∀ x ∈ p.subroutines, P x

namespace AllSubroutines

theorem updateCurrent (h : c.AllSubroutines P)
    (hf : ∀ x ∈ (f c.current).subroutines, x ∈ c.current.subroutines ∨ P x) :
    (c.updateCurrent f).AllSubroutines P := by
  intro p hp x hx
  rw [stack_updateCurrent] at hp
  rcases mem_cons.1 hp with rfl | hp
  · exact (hf x hx).elim (h _ (by rw [stack_eq]; exact mem_cons_self ..) x) id
  · exact h p (mem_of_mem_tail hp) x hx

theorem emit (h : c.AllSubroutines P) : (c.emit st).AllSubroutines P :=
  h.updateCurrent fun _ hx => .inl hx

theorem updateRoot (h : c.AllSubroutines P)
    (hf : ∀ x ∈ (f c.root).subroutines, x ∈ c.root.subroutines ∨ P x) : (c.updateRoot f).AllSubroutines P := by
  intro p hp x hx
  rcases mem_append.1 hp with hp | hp
  · exact h p (mem_append_left _ hp) x hx
  · cases mem_singleton.1 hp
    exact (hf x hx).elim (h c.root (by simp [stack]) x) id

theorem enterProgram {p : Program} (h : c.AllSubroutines P) (hp : p.subroutines = []) :
    (c.enterProgram p).AllSubroutines P := by
  intro q hq x hx
  rcases mem_cons.1 hq with rfl | hq
  · rw [hp] at hx
    cases hx
  · exact h q hq x hx

theorem leaveProgram (h : c.AllSubroutines P) : c.leaveProgram.AllSubroutines P := by
  intro p hp
  refine h p ?_
  rcases mem_append.1 hp with hp | hp
  · exact mem_append_left _ (mem_of_mem_tail hp)
  · exact mem_append_right _ hp

end AllSubroutines

variable {d : Discipline} {R : Rule d}

/-- What is added to the innermost block conforms to the rule, and so do the gates and subroutines that
are defined. -/
structure Adds (R : Rule d) (c c' : Context) : Prop where
  current : c.current.Appends (R.admits c) c'.current
  defined : ∃ new, c'.root.gates = c.root.gates ++ new ∧ ∀ g ∈ new, R.Defines g
  subroutines : c.AllSubroutines R.defines → c'.AllSubroutines R.defines

namespace Adds

theorem of_blocks (hb : c'.current.blocks = c.current.blocks)
    (hd : ∃ new, c'.root.gates = c.root.gates ++ new ∧ ∀ g ∈ new, R.Defines g)
    (hs : c.AllSubroutines R.defines → c'.AllSubroutines R.defines) : c.Adds R c' :=
  ⟨.of_blocks (R.nil c) hb, hd, hs⟩

theorem defined_of_eq (h : c'.root.gates = c.root.gates) :
    ∃ new, c'.root.gates = c.root.gates ++ new ∧ ∀ g ∈ new, R.Defines g :=
  ⟨[], by rw [h, append_nil], fun _ h => absurd h not_mem_nil⟩

theorem of_eq (hi : c'.inner = c.inner) (hr : c'.root = c.root) : c.Adds R c' := by
  refine of_blocks (by rw [Context.current, Context.current, hi, hr]) (defined_of_eq (by rw [hr])) fun h => ?_
  unfold AllSubroutines stack
  rw [hi, hr]
  exact h

theorem trans (h₁ : c.Adds R c₁) (ha : c.Advance c₁) (h₂ : c₁.Adds R c₂) : c.Adds R c₂ := by
  obtain ⟨a, hga, hda⟩ := h₁.defined
  obtain ⟨b, hgb, hdb⟩ := h₂.defined
  have hcurrent := h₂.current
  rw [R.of_advance ha] at hcurrent
  refine ⟨h₁.current.trans R.append hcurrent, ⟨a ++ b, ?_, ?_⟩, h₂.subroutines ∘ h₁.subroutines⟩
  · rw [hgb, hga, append_assoc]
  · exact fun g hg => (mem_append.1 hg).elim (hda g) (hdb g)

theorem updateCurrent (h : c.current.Appends (R.admits c) (f c.current))
    (hg : (f c.current).gates = c.current.gates)
    (hs : ∀ x ∈ (f c.current).subroutines, x ∈ c.current.subroutines ∨ R.defines x) :
    c.Adds R (c.updateCurrent f) := by
  refine ⟨?_, defined_of_eq (gates_root_updateCurrent hg), fun hc => hc.updateCurrent hs⟩
  rw [current_updateCurrent]
  exact h

theorem updateRoot (h : c.root.Rests (f c.root)) (hg : (f c.root).gates = c.root.gates)
    (hs : ∀ x ∈ (f c.root).subroutines, x ∈ c.root.subroutines ∨ R.defines x) : c.Adds R (c.updateRoot f) :=
  of_blocks (rests_current (rests_updateRoot h)).blocks (defined_of_eq hg) fun hc => hc.updateRoot hs

theorem emit (h : c.Adds R c') (ha : c.Advance c') (hst : R.admits c [st]) : c.Adds R (c'.emit st) := by
  refine h.trans ha ⟨?_, defined_of_eq (gates_root_emit c' st), fun hc => hc.emit⟩
  rw [Context.emit, current_updateCurrent, R.of_advance ha]
  exact .add hst

/-- A block that is over: the program has its other blocks, and what the block holds conforms where it was
opened. -/
theorem closeBlock (h : c.openBlock.Adds R c₁) : c.Adds R c₁.closeBlock ∧
    c₁.closeBlock.current.blocks = c.current.blocks ∧ R.admits c c₁.captured := by
  have hcurrent := h.current
  obtain ⟨new, hgates, hnew⟩ := h.defined
  rw [R.openBlock, openBlock, current_updateCurrent] at hcurrent
  rw [openBlock, gates_root_updateCurrent rfl] at hgates
  have hblocks : c₁.closeBlock.current.blocks = c.current.blocks := by
    rw [Context.closeBlock, current_updateCurrent]
    exact hcurrent.closeBlock.1
  refine ⟨of_blocks hblocks ⟨new, ?_, hnew⟩ fun hc => ?_, hblocks, hcurrent.closeBlock.2⟩
  · rw [Context.closeBlock, gates_root_updateCurrent rfl, hgates]
  · exact (h.subroutines (hc.updateCurrent fun _ hx => .inl hx)).updateCurrent fun _ hx => .inl hx

theorem drop (h : c.openBlock.Adds R c₁) : c.Adds R c₁.closeBlock := h.closeBlock.1

theorem leaveProgram {p : Program} (h : (c.enterProgram p).Adds R c₁) (ha : (c.enterProgram p).Advance c₁)
    (hp : p.subroutines = []) : c.Adds R c₁.leaveProgram :=
  of_blocks (rests_current (Advance.rests_leaveProgram ha.below)).blocks h.defined
    fun hc => (h.subroutines (hc.enterProgram hp)).leaveProgram

theorem leaveRoutine {key : Nat} {stub : Stub} {r : Routine}
    (h : (c.enterRoutine key stub r.blank).Adds R c₁) (ha : (c.enterRoutine key stub r.blank).Advance c₁) :
    c.Adds R (c₁.leaveRoutine key) :=
  of_blocks (rests_current (Advance.rests_leaveProgram ha.below)).blocks h.defined
    fun hc => (h.subroutines (hc.enterProgram r.blocks_blank.2.2)).leaveProgram

theorem body {key : Nat} {stub : Stub} {r : Routine} (h : (c.enterRoutine key stub r.blank).Adds R c₁)
    (hp : c.Permits .classical) : R.admits (c.enterRoutine key stub r.blank) c₁.current.body := by
  have hin : (c.enterRoutine key stub r.blank).Permits .classical := hp
  exact R.append (R.declarations hin _) (h.current.top r.blocks_blank.1)

end Adds

end Context

theorem Acts.adds {d : Discipline} {c c' : Context} (R : Rule d) (h : Acts d c c') : c.Adds R c' := by
  induction h with
  | refl | register | fresh | returned | pulse => exact .of_eq rfl rfl
  | trans h₁ _ ih₁ ih₂ => exact ih₁.trans h₁.advance ih₂
  | emit h => exact (Context.Adds.of_eq rfl rfl).emit (.refl _) (R.emits h)
  | declare hp hv h =>
    exact .updateCurrent (.declare? (R.declares hp _) h) (Program.gates_declare? h)
      fun _ hx => .inl (Program.subroutines_declare? h ▸ hx)
  | pend hp hn hi =>
    refine .updateCurrent (.of_blocks (R.nil _) ?_) Program.gates_addPending
      fun _ hx => .inl (Program.subroutines_addPending _ _ ▸ hx)
    unfold Program.addPending
    split <;> rfl
  | mark hp hn => exact .updateCurrent (.of_blocks (R.nil _) rfl) rfl fun _ hx => .inl hx
  | announce h => exact .updateRoot (.enablePulse _) rfl fun _ hx => .inl hx
  | @stub c key stub hp h =>
    refine .updateCurrent (.of_blocks (R.nil _) rfl) rfl fun x hx => ?_
    refine (Program.mem_put hx).symm.imp_right fun hx => ?_
    rw [hx]
    exact R.stub stub

theorem Writes.adds {d : Discipline} {c c' : Context} (R : Rule d) (h : Writes d c c') : c.Adds R c' := by
  induction h with
  | acts h => exact h.adds R
  | trans h₁ _ ih₁ ih₂ => exact ih₁.trans h₁.advance ih₂
  | drop _ ih => exact ih.drop
  | @branch c c₁ c₂ e hp he h₁ h₂ ih₁ ih₂ =>
    have hels := ih₂.closeBlock.2.2
    rw [R.of_advance h₁.advance.drop] at hels
    refine (ih₁.drop.trans h₁.advance.drop ih₂.drop).emit (h₁.advance.drop.trans h₂.advance.drop)
      (R.nests hp .branch ?_)
    exact forall_mem_cons.2 ⟨ih₁.closeBlock.2.2, forall_mem_singleton.2 hels⟩
  | forIn hp hn hv he h ih =>
    exact ih.drop.emit h.advance.drop (R.nests hp .forIn (forall_mem_singleton.2 ih.closeBlock.2.2))
  | «while» hp he h ih =>
    exact ih.drop.emit h.advance.drop (R.nests hp .while (forall_mem_singleton.2 ih.closeBlock.2.2))
  | abandon hp hv h ih => exact .of_blocks ih.closeBlock.2.1 ih.drop.defined ih.drop.subroutines
  | @verbatim c c₁ hp hv h ih =>
    obtain ⟨hdrop, hblocks, hbody⟩ := ih.closeBlock
    have hback : c.current.Appends (R.admits c) c₁.closeBlock.current := .of_blocks (R.nil c) hblocks
    have hbox := Program.Appends.add_add (p := c₁.closeBlock.current) (R.boxes hp hv hbody)
    refine ⟨?_, ?_, fun hc => (hdrop.subroutines hc).emit.emit⟩
    · show c.current.Appends _ ((c₁.closeBlock.emit _).emit _).current
      rw [Context.emit, Context.current_updateCurrent, Context.emit, Context.current_updateCurrent]
      exact hback.trans R.append hbox
    · obtain ⟨new, hgates, hnew⟩ := hdrop.defined
      exact ⟨new, (Context.gates_root_emit _ _).trans ((Context.gates_root_emit _ _).trans hgates), hnew⟩
  | program _ h ih => exact ih.leaveProgram h.advance rfl
  | failed hb _ h ih | known hb h _ ih => exact ih.leaveRoutine h.advance
  | @subroutine c c₁ key r stub hb h _ hm ih =>
    refine (ih.leaveRoutine h.advance).trans (h.advance.leaveRoutine hb.idle)
      (.updateRoot (.addSubroutine _ _) rfl fun x hx => ?_)
    refine (Program.mem_put hx).symm.imp_right fun hx => ?_
    rw [hx]
    exact R.routine hb (ih.body hb.permits)
  | scope ho hr _ ih | calibration hr _ ih => exact .of_blocks ih.closeBlock.2.1 ih.drop.defined ih.drop.subroutines
  | @gate c c₁ r ho hr h hd hm ih =>
    let g : GateDef := ⟨r.name, GateParam.angles r.params, GateParam.qubits r.params, c₁.captured⟩
    obtain ⟨hdrop, hblocks, hbody⟩ := ih.closeBlock
    obtain ⟨new, hgates, hnew⟩ := hdrop.defined
    have hrests : Forall₂ Program.Rests c₁.closeBlock.stack
        (c₁.closeBlock.updateRoot (·.addGate g)).stack := Context.rests_updateRoot (.addGate hm)
    have hg : R.Defines g := ⟨c.enterGate r, r, c.gates, rfl, rfl, rfl, hbody⟩
    refine .of_blocks ((Context.rests_current hrests).blocks.trans hblocks) ⟨new ++ [g], ?_, fun x hx => ?_⟩
      fun hc => (hdrop.subroutines hc).updateRoot (f := (·.addGate g)) fun _ hx => .inl hx
    · show (c₁.closeBlock.root.addGate g).gates = _
      rw [Program.gates_addGate hm, hgates, append_assoc]
      rfl
    · rcases mem_append.1 hx with hx | hx
      · exact hnew x hx
      · exact mem_singleton.1 hx ▸ hg

end QasmStudio

import QasmStudio.Proofs.Convert.Writes

/-!
# Where a stretch of a build writes

A stretch of a build that is over has closed what it opened: the programs on the stack are the ones
that were there, and statements have been added at one place only, the end of the innermost block of
the program on top (`Writes.advance`). What was added is what the definition in progress admits: calls
of gates on its own qubits in a gate definition, operations on frames and delays in a calibration.
-/

namespace QasmStudio

open List Context

variable {name : String} {v : Var} {p : Program}

/-! ### Blocks of a program -/

namespace Program
variable {q r : Program} {d : GateDef} {ok : Stmt → Prop}

/-- The open blocks, innermost first, and the top level last. -/
def blocks (p : Program) : List (List Stmt) := p.nested ++ [p.top]

theorem blocks_eq (p : Program) : p.blocks = p.innermost :: p.blocks.tail := by
  unfold blocks innermost
  cases p.nested <;> rfl

theorem depth_eq (p : Program) : p.depth = p.blocks.length := by simp [depth, blocks]

theorem blocks_add (p : Program) (st : Stmt) : (p.add st).blocks = (p.innermost ++ [st]) :: p.blocks.tail := by
  unfold blocks innermost add
  cases p.nested <;> rfl

theorem blocks_openBlock (p : Program) : p.openBlock.blocks = [] :: p.blocks := rfl

theorem blocks_closeBlock {b : List Stmt} {bs : List (List Stmt)} (h : p.blocks = b :: bs)
    (hbs : bs ≠ []) : p.closeBlock.blocks = bs := by
  unfold blocks at h
  unfold blocks closeBlock
  cases hn : p.nested with
  | nil =>
    rw [hn] at h
    cases h
    exact absurd rfl hbs
  | cons b' bs' =>
    rw [hn] at h
    cases h
    rfl

theorem innermost_of_blocks {b : List Stmt} {bs : List (List Stmt)} (h : p.blocks = b :: bs) : p.innermost = b := by
  rw [blocks_eq] at h
  exact (List.cons.inj h).1

/-! ### What a program keeps -/

/-- The names and definitions of `p` are still there in `q`. -/
structure Kept (p q : Program) : Prop where
  used : ∀ name, p.isUsed name = true → q.isUsed name = true
  gates : p.gates <+: q.gates
  subroutines : p.subroutines.map (·.name) <+: q.subroutines.map (·.name)
  calibrations : q.calibrations = p.calibrations
  pulse : p.pulse = true → q.pulse = true

namespace Kept

theorem refl (p : Program) : Kept p p := ⟨fun _ h => h, prefix_refl _, prefix_refl _, rfl, fun h => h⟩

theorem trans (h₁ : Kept p q) (h₂ : Kept q r) : Kept p r :=
  ⟨fun name h => h₂.used name (h₁.used name h), h₁.gates.trans h₂.gates,
    h₁.subroutines.trans h₂.subroutines, h₂.calibrations.trans h₁.calibrations,
    fun h => h₂.pulse (h₁.pulse h)⟩

theorem of_eq (hd : q.declared = p.declared) (hp : q.pending = p.pending) (hg : q.gates = p.gates)
    (hs : q.subroutines = p.subroutines) (hc : q.calibrations = p.calibrations)
    (hu : q.pulse = p.pulse) : Kept p q := by
  refine ⟨fun name h => ?_, hg ▸ prefix_refl _, hs ▸ prefix_refl _, hc, fun h => hu ▸ h⟩
  simpa only [isUsed, isDeclared, isPending, hd, hp] using h

theorem add (p : Program) (st : Stmt) : Kept p (p.add st) := of_eq rfl rfl rfl rfl rfl rfl

theorem openBlock (p : Program) : Kept p p.openBlock := of_eq rfl rfl rfl rfl rfl rfl

theorem closeBlock (p : Program) : Kept p p.closeBlock := of_eq rfl rfl rfl rfl rfl rfl

theorem markDeclared (p : Program) (v : Var) : Kept p (p.markDeclared v) := by
  refine ⟨fun name h => ?_, prefix_refl _, prefix_refl _, rfl, fun h => h⟩
  by_cases hn : name = v.name
  · simp [isUsed, isDeclared, Program.markDeclared, hn]
  · simp only [isUsed, isDeclared, isPending, Bool.or_eq_true, any_eq_true, beq_iff_eq] at h
    simp only [isUsed, isDeclared, isPending, Program.markDeclared, Bool.or_eq_true, any_eq_true,
      beq_iff_eq, mem_cons, mem_filter, bne_iff_ne]
    rcases h with ⟨u, hu, rfl⟩ | ⟨u, hu, rfl⟩
    · exact .inl ⟨u, .inr ⟨hu, hn⟩, rfl⟩
    · exact .inr ⟨u, ⟨hu, hn⟩, rfl⟩

theorem addPending (p : Program) (v : Var) : Kept p (p.addPending v) := by
  unfold Program.addPending
  split
  · exact refl p
  · refine ⟨fun name h => ?_, prefix_refl _, prefix_refl _, rfl, fun h => h⟩
    simp only [isUsed, isDeclared, isPending, Bool.or_eq_true, any_append] at h ⊢
    tauto

theorem declare? (h : p.declare? v = some q) : Kept p q := by
  unfold Program.declare? at h
  split at h
  · cases h
  · cases h
    exact (markDeclared p v).trans (add _ _)

theorem enablePulse (p : Program) : Kept p p.enablePulse :=
  ⟨fun _ h => h, prefix_refl _, prefix_refl _, rfl, fun _ => rfl⟩

end Kept

theorem names_put {d : SubroutineDef} : ∀ ds : List SubroutineDef,
    ds.map (·.name) <+: (put (·.name == d.name) d ds).map (·.name)
  | [] => nil_prefix
  | e :: ds => by
    unfold put
    split
    · rename_i h
      simp [beq_iff_eq.1 h]
    · simpa using names_put ds

theorem mem_put {α : Type} {same : α → Bool} {x y : α} : ∀ {ys : List α}, y ∈ put same x ys → y = x ∨ y ∈ ys
  | [], h => .inl (mem_singleton.1 h)
  | z :: zs, h => by
    unfold put at h
    split at h
    · exact (mem_cons.1 h).imp_right (mem_cons_of_mem _)
    · rcases mem_cons.1 h with rfl | h
      · exact .inr (mem_cons_self ..)
      · exact (mem_put h).imp_right (mem_cons_of_mem _)

theorem Kept.addSubroutine (p : Program) (d : SubroutineDef) : Kept p (p.addSubroutine d) :=
  ⟨fun _ h => h, prefix_refl _, names_put _, rfl, fun h => h⟩

theorem put_of_all_not {α : Type} {same : α → Bool} {x : α} : ∀ {ys : List α},
    ys.any same = false → put same x ys = ys ++ [x]
  | [], _ => rfl
  | y :: ys, h => by
    simp only [any_cons, Bool.or_eq_false_iff] at h
    simp [put, h.1, put_of_all_not h.2]

theorem gates_addGate (h : p.hasGate d.name = false) : (p.addGate d).gates = p.gates ++ [d] := put_of_all_not h

theorem Kept.addGate (h : p.hasGate d.name = false) : Kept p (p.addGate d) :=
  ⟨fun _ h => h, by rw [gates_addGate h]; exact prefix_append _ _, prefix_refl _, rfl, fun h => h⟩

theorem hasSubroutine_iff : p.hasSubroutine name = true ↔ name ∈ p.subroutines.map (·.name) := by
  simp [hasSubroutine, subroutine?]

theorem Kept.hasSubroutine (h : Kept p q) (hn : p.hasSubroutine name = true) : q.hasSubroutine name = true :=
  hasSubroutine_iff.2 (h.subroutines.subset (hasSubroutine_iff.1 hn))

/-! ### Growing and resting -/

/-- `q` is `p` with statements that satisfy `ok` at the end of the innermost block. -/
structure Grows (ok : Stmt → Prop) (p q : Program) : Prop where
  blocks : ∃ new, (∀ st ∈ new, ok st) ∧ q.blocks = (p.innermost ++ new) :: p.blocks.tail
  kept : Kept p q

/-- `q` has the open blocks of `p`, with their statements. -/
structure Resumes (p q : Program) : Prop where
  blocks : q.blocks = p.blocks
  kept : Kept p q

/-- `q` has the statements and the variables of `p`. -/
structure Rests (p q : Program) : Prop extends Resumes p q where
  declared : q.declared = p.declared
  pending : q.pending = p.pending

theorem Rests.refl (p : Program) : Rests p p := ⟨⟨rfl, .refl p⟩, rfl, rfl⟩

theorem Resumes.trans (h₁ : Resumes p q) (h₂ : Resumes q r) : Resumes p r :=
  ⟨h₂.blocks.trans h₁.blocks, h₁.kept.trans h₂.kept⟩

theorem Rests.trans (h₁ : Rests p q) (h₂ : Rests q r) : Rests p r :=
  ⟨h₁.toResumes.trans h₂.toResumes, h₂.declared.trans h₁.declared, h₂.pending.trans h₁.pending⟩

theorem Resumes.grows (h : Resumes p q) : Grows ok p q :=
  ⟨⟨[], by simp, by rw [h.blocks, append_nil, ← blocks_eq]⟩, h.kept⟩

theorem Rests.enablePulse (p : Program) : Rests p p.enablePulse := ⟨⟨rfl, .enablePulse p⟩, rfl, rfl⟩

theorem Rests.addSubroutine (p : Program) (d : SubroutineDef) : Rests p (p.addSubroutine d) :=
  ⟨⟨rfl, .addSubroutine p d⟩, rfl, rfl⟩

theorem Rests.addGate (h : p.hasGate d.name = false) : Rests p (p.addGate d) := ⟨⟨rfl, .addGate h⟩, rfl, rfl⟩

theorem Grows.trans (h₁ : Grows ok p q) (h₂ : Grows ok q r) : Grows ok p r := by
  obtain ⟨a, ha, hq⟩ := h₁.blocks
  obtain ⟨b, hb, hr⟩ := h₂.blocks
  refine ⟨⟨a ++ b, fun st hst => (mem_append.1 hst).elim (ha st) (hb st), ?_⟩, h₁.kept.trans h₂.kept⟩
  rw [hr, innermost_of_blocks hq, hq, append_assoc, tail_cons]

theorem Grows.add {st : Stmt} (h : ok st) : Grows ok p (p.add st) :=
  ⟨⟨[st], by simpa using h, blocks_add p st⟩, .add p st⟩

theorem Grows.declare? (hv : ok (.declare v)) (h : p.declare? v = some q) : Grows ok p q := by
  refine ⟨⟨[.declare v], by simpa using hv, ?_⟩, .declare? h⟩
  unfold Program.declare? at h
  split at h
  · cases h
  · cases h
    exact blocks_add _ _

/-- A block that was opened in `p` and has grown in `q` is all that was added, and closing it gives
back the blocks of `p`. -/
theorem Grows.closeBlock (h : Grows ok p.openBlock q) : Resumes p q.closeBlock ∧ ∀ st ∈ q.innermost, ok st := by
  obtain ⟨new, hn, hq⟩ := h.blocks
  have hq' : q.blocks = new :: p.blocks := hq
  have hne : p.blocks ≠ [] := by
    rw [blocks_eq]
    exact cons_ne_nil _ _
  refine ⟨⟨blocks_closeBlock hq' hne, ?_⟩, ?_⟩
  · exact ((Kept.openBlock p).trans h.kept).trans (.closeBlock q)
  · rw [innermost_of_blocks hq']
    exact hn

end Program

theorem Routine.blocks_blank (r : Routine) :
    r.blank.blocks = [[]] ∧ r.blank.pending = [] ∧ r.blank.subroutines = [] := by
  have hfold : ∀ (vs : List Var) (p : Program), p.blocks = [[]] ∧ p.pending = [] ∧ p.subroutines = [] →
      (vs.foldl Program.markDeclared p).blocks = [[]] ∧ (vs.foldl Program.markDeclared p).pending = [] ∧
        (vs.foldl Program.markDeclared p).subroutines = [] := by
    intro vs
    induction vs with
    | nil => exact fun _ h => h
    | cons v vs ih =>
      rintro p ⟨hb, hp, hs⟩
      refine ih _ ⟨hb, ?_, hs⟩
      show p.pending.filter _ = []
      rw [hp]
      rfl
  exact hfold r.locals {} ⟨rfl, rfl, rfl⟩

/-! ### What a definition admits -/

/-- A call of a gate whose operands are variables named like some of the given ones. -/
def Stmt.CallsOn (qubits : List Var) : Stmt → Prop
  | .gate _ _ operands =>
    ∀ e ∈ operands, ∃ name ty init, e = .var name ty init ∧ ∃ v ∈ qubits, v.name = name
  | _ => False

def Stmt.IsPulse : Stmt → Prop
  | .delay .. => True
  | .eval (.call name _ _) => name ∈ Discipline.pulseCalls
  | _ => False

/-- The body of the gate calls gates on its own qubits, and nothing else. -/
def GateDef.IsUnitary (d : GateDef) : Prop := ∀ st ∈ d.body, st.CallsOn d.qubits

/-- The statements that may be written where the build is. -/
def Context.Admits (c : Context) (st : Stmt) : Prop :=
  match c.gates, c.calibrations with
  | r :: _, _ => st.CallsOn (GateParam.qubits r.params)
  | [], _ :: _ => st.IsPulse
  | [], [] => True

namespace Context
variable {c c' : Context}

theorem outside_of_permits (h : c.Permits .classical) : c.gates = [] ∧ c.calibrations = [] := by
  have h := h.2
  unfold refusal? at h
  cases hg : c.gates <;> cases hc : c.calibrations <;> simp_all

theorem admits_of_permits (h : c.Permits .classical) (st : Stmt) : c.Admits st := by
  obtain ⟨hg, hc⟩ := outside_of_permits h
  simp [Admits, hg, hc]

theorem admits_congr (hg : c'.gates = c.gates) (hc : c'.calibrations = c.calibrations) : c'.Admits = c.Admits := by
  funext st
  simp only [Admits, hg, hc]

theorem gates_of_permits_pulse (h : c.refusal? .pulse = none) : c.gates = [] := by
  unfold refusal? at h
  cases hg : c.gates <;> simp_all

/-- Inside a gate definition, operands that are not foreign are its qubits. -/
theorem callsOn_of_foreign {r : GateRecord} {rs : List GateRecord} (hg : c.gates = r :: rs)
    {qubits args : List Expr} (h : c.foreign? qubits args = none) :
    Stmt.CallsOn (GateParam.qubits r.params) (.gate name args qubits) := by
  intro e he
  unfold foreign? at h
  simp only [hg] at h
  split at h
  · cases h
  · rename_i hf
    have hq := find?_eq_none.1 hf e he
    cases e with
    | var n ty init =>
      simp only [GateRecord.hasQubit, Bool.not_eq_true', Bool.not_eq_false, any_eq_true, beq_iff_eq] at hq
      exact ⟨n, ty, init, rfl, hq⟩
    | _ => simp [GateRecord.hasQubit] at hq

end Context

namespace Discipline
variable {d : Discipline} {c : Context} {st : Stmt}

theorem Emits.admits (h : d.Emits c st) : c.Admits st := by
  cases h with
  | gate hp hn ht ha hf =>
    unfold Context.Admits
    split
    · exact callsOn_of_foreign ‹_› hf
    · have := hp.2
      simp_all [Context.refusal?]
    · trivial
  | pulse hp hn he =>
    have hg := gates_of_permits_pulse hp.2
    unfold Context.Admits
    rw [hg]
    split
    · simp_all
    · exact hn
    · trivial
  | delay hp ht =>
    have hg := gates_of_permits_pulse hp.2
    unfold Context.Admits
    rw [hg]
    split
    · simp_all
    · trivial
    · trivial
  | _ => exact admits_of_permits ‹_› _

end Discipline

/-! ### The stack of programs -/

theorem mem_insertAscending {n m : Int} : ∀ {ms : List Int}, m ∈ insertAscending n ms ↔ m = n ∨ m ∈ ms
  | [] => by simp [insertAscending]
  | k :: ms => by
    unfold insertAscending
    split
    · simp
    · split
      · simp_all
      · simp only [mem_cons, mem_insertAscending]
        tauto

namespace Context
variable {c c' c₁ : Context} {f : Program → Program}

/-- The programs being written, the one on top first and the root last. -/
def stack (c : Context) : List Program := c.inner ++ [c.root]

theorem stack_eq (c : Context) : c.stack = c.current :: c.stack.tail := by
  unfold stack current
  cases c.inner <;> rfl

theorem stack_updateCurrent : (c.updateCurrent f).stack = f c.current :: c.stack.tail := by
  unfold updateCurrent current stack
  cases c.inner <;> rfl

theorem gates_root_updateCurrent (hf : (f c.current).gates = c.current.gates) :
    (c.updateCurrent f).root.gates = c.root.gates := by
  unfold updateCurrent
  unfold current at hf
  cases hi : c.inner with
  | nil =>
    rw [hi] at hf
    exact hf
  | cons p ps => rfl

/-- The second context is where the first one was, with new statements in the innermost block of the
current program, and maybe new definitions. -/
structure Advance (c c' : Context) : Prop where
  current : c.current.Grows c.Admits c'.current
  below : Forall₂ Program.Rests c.stack.tail c'.stack.tail
  gates : c'.gates = c.gates
  calibrations : c'.calibrations = c.calibrations
  converting : c'.converting = c.converting
  verbatim : c'.verbatim = c.verbatim
  active : c'.active = c.active
  config : c'.config = c.config
  build : c'.build = c.build
  qubits : c.qubits ⊆ c'.qubits
  defined : ∃ new, c'.root.gates = c.root.gates ++ new ∧ ∀ g ∈ new, g.IsUnitary

theorem Advance.stackSize (h : c.Advance c') : c'.stackSize = c.stackSize := by
  have hlength := h.below.length_eq
  simp only [stack, length_tail, length_append, length_singleton] at hlength
  unfold Context.stackSize
  omega

theorem rests_refl (ps : List Program) : Forall₂ Program.Rests ps ps := forall₂_same.2 fun p _ => .refl p

theorem rests_trans {ps qs rs : List Program} (h₁ : Forall₂ Program.Rests ps qs)
    (h₂ : Forall₂ Program.Rests qs rs) : Forall₂ Program.Rests ps rs := by
  induction h₁ generalizing rs with
  | nil => exact h₂
  | cons h _ ih =>
    cases h₂ with
    | cons h' hs => exact .cons (h.trans h') (ih hs)

theorem rests_current (h : Forall₂ Program.Rests c.stack c'.stack) : c.current.Rests c'.current := by
  rw [stack_eq c, stack_eq c'] at h
  exact (forall₂_cons.1 h).1

theorem rests_updateCurrent (h : c.current.Rests (f c.current)) :
    Forall₂ Program.Rests c.stack (c.updateCurrent f).stack := by
  rw [stack_updateCurrent]
  conv_lhs => rw [stack_eq c]
  exact .cons h (rests_refl _)

theorem rests_updateRoot (h : c.root.Rests (f c.root)) : Forall₂ Program.Rests c.stack (c.updateRoot f).stack :=
  rel_append (rests_refl c.inner) (.cons h .nil)

namespace Advance

theorem refl (c : Context) : c.Advance c :=
  ⟨(Program.Rests.refl _).toResumes.grows, rests_refl _, rfl, rfl, rfl, rfl, rfl, rfl, rfl, List.Subset.refl _, [],
    by simp⟩

theorem trans {c₂ : Context} (h₁ : c.Advance c₁) (h₂ : c₁.Advance c₂) : c.Advance c₂ := by
  obtain ⟨a, ha, hau⟩ := h₁.defined
  obtain ⟨b, hb, hbu⟩ := h₂.defined
  have hadm : c₁.Admits = c.Admits := admits_congr h₁.gates h₁.calibrations
  refine ⟨h₁.current.trans (hadm ▸ h₂.current), ?_, h₂.gates.trans h₁.gates,
    h₂.calibrations.trans h₁.calibrations, h₂.converting.trans h₁.converting,
    h₂.verbatim.trans h₁.verbatim, h₂.active.trans h₁.active, h₂.config.trans h₁.config,
    h₂.build.trans h₁.build, List.Subset.trans h₁.qubits h₂.qubits, a ++ b, ?_, ?_⟩
  · exact rests_trans h₁.below h₂.below
  · rw [hb, ha, append_assoc]
  · exact fun g hg => (mem_append.1 hg).elim (hau g) (hbu g)

theorem updateCurrent (h : c.current.Grows c.Admits (f c.current))
    (hf : (f c.current).gates = c.current.gates) : c.Advance (c.updateCurrent f) := by
  refine ⟨?_, ?_, rfl, rfl, rfl, rfl, rfl, rfl, rfl, List.Subset.refl _, [], ?_, by simp⟩
  · rw [current_updateCurrent]
    exact h
  · rw [stack_updateCurrent, tail_cons]
    exact rests_refl _
  · rw [gates_root_updateCurrent hf, append_nil]

theorem of_rests (hs : Forall₂ Program.Rests c.stack c'.stack) (hg : c'.gates = c.gates)
    (hc : c'.calibrations = c.calibrations) (hcv : c'.converting = c.converting) (hv : c'.verbatim = c.verbatim)
    (ha : c'.active = c.active) (hf : c'.config = c.config) (hb : c'.build = c.build)
    (hq : c.qubits ⊆ c'.qubits) (hd : ∃ new, c'.root.gates = c.root.gates ++ new ∧ ∀ g ∈ new, g.IsUnitary) :
    c.Advance c' := by
  rw [stack_eq c, stack_eq c'] at hs
  obtain ⟨hcur, hbelow⟩ := forall₂_cons.1 hs
  exact ⟨hcur.toResumes.grows, hbelow, hg, hc, hcv, hv, ha, hf, hb, hq, hd⟩

theorem of_eq (hr : c'.root = c.root) (hi : c'.inner = c.inner) (hg : c'.gates = c.gates)
    (hc : c'.calibrations = c.calibrations) (hcv : c'.converting = c.converting) (hv : c'.verbatim = c.verbatim)
    (ha : c'.active = c.active) (hf : c'.config = c.config) (hb : c'.build = c.build) (hq : c.qubits ⊆ c'.qubits) :
    c.Advance c' := by
  have hstack : c'.stack = c.stack := by rw [stack, stack, hr, hi]
  exact of_rests (hstack ▸ rests_refl _) hg hc hcv hv ha hf hb hq ⟨[], by rw [hr, append_nil], by simp⟩

theorem updateRoot (h : c.root.Rests (f c.root))
    (hd : ∃ new, (f c.root).gates = c.root.gates ++ new ∧ ∀ g ∈ new, g.IsUnitary) :
    c.Advance (c.updateRoot f) :=
  of_rests (rests_updateRoot h) rfl rfl rfl rfl rfl rfl rfl (List.Subset.refl _) hd

/-- The stretch of a block that is over: the programs are as they were before it, and what it holds
is admitted where it stands. -/
theorem closeBlock (h : c.openBlock.Advance c₁) : c.current.Resumes c₁.closeBlock.current ∧
      Forall₂ Program.Rests c.stack.tail c₁.closeBlock.stack.tail ∧
      ∀ st ∈ c₁.captured, c.Admits st := by
  have hadm : c.openBlock.Admits = c.Admits := admits_congr rfl rfl
  have hcur : c.current.openBlock.Grows c.Admits c₁.current := by
    have h := h.current
    rwa [hadm, openBlock, current_updateCurrent] at h
  obtain ⟨hresumes, hall⟩ := hcur.closeBlock
  refine ⟨?_, ?_, hall⟩
  · rw [Context.closeBlock, current_updateCurrent]
    exact hresumes
  · have hb := h.below
    rw [openBlock, stack_updateCurrent, tail_cons] at hb
    rw [Context.closeBlock, stack_updateCurrent, tail_cons]
    exact hb

theorem defined_closeBlock (h : c.openBlock.Advance c₁) :
    ∃ new, c₁.closeBlock.root.gates = c.root.gates ++ new ∧ ∀ g ∈ new, g.IsUnitary := by
  obtain ⟨new, hn, hu⟩ := h.defined
  refine ⟨new, ?_, hu⟩
  rw [openBlock, gates_root_updateCurrent rfl] at hn
  rw [Context.closeBlock, gates_root_updateCurrent rfl, hn]

theorem drop (h : c.openBlock.Advance c₁) : c.Advance c₁.closeBlock :=
  ⟨h.closeBlock.1.grows, h.closeBlock.2.1, h.gates, h.calibrations, h.converting, h.verbatim, h.active, h.config,
    h.build, h.qubits, h.defined_closeBlock⟩

theorem admits (h : c.Advance c') : c'.Admits = c.Admits := admits_congr h.gates h.calibrations

theorem emit (h : c.Advance c') {st : Stmt} (hst : c.Admits st) : c.Advance (c'.emit st) :=
  h.trans (updateCurrent (.add (h.admits ▸ hst)) rfl)

theorem rests_leaveProgram (h : Forall₂ Program.Rests c.stack c₁.stack.tail) :
    Forall₂ Program.Rests c.stack c₁.leaveProgram.stack := by
  cases hi : c₁.inner with
  | nil =>
    have htail : c₁.stack.tail = [] := by simp [stack, hi]
    rw [htail, stack_eq c] at h
    cases h
  | cons q qs => simpa [stack, leaveProgram, hi] using h

theorem leaveVerbatim (h : c.enterVerbatim.Advance c₁) (hv : c.verbatim = false) : c.Advance c₁.leaveVerbatim :=
  ⟨h.current, h.below, h.gates, h.calibrations, h.converting, hv.symm, h.active, h.config, h.build,
    h.qubits, h.defined⟩

theorem leaveGate {r : GateRecord} (h : (c.enterGate r).Advance c₁) (hr : c.current.Resumes c₁.current) :
    c.Advance c₁.leaveGate := by
  refine ⟨hr.grows, h.below, ?_, h.calibrations, h.converting, h.verbatim, h.active, h.config, h.build,
    h.qubits, h.defined⟩
  rw [Context.leaveGate, h.gates]
  rfl

theorem leaveCalibration {r : CalibrationRecord} (h : (c.enterCalibration r).Advance c₁)
    (hr : c.current.Resumes c₁.current) : c.Advance c₁.leaveCalibration := by
  refine ⟨hr.grows, h.below, h.gates, ?_, h.converting, h.verbatim, h.active, h.config, h.build,
    h.qubits, h.defined⟩
  rw [Context.leaveCalibration, h.calibrations]
  rfl

theorem leaveProgram (h : (c.enterProgram p).Advance c₁) : c.Advance c₁.leaveProgram :=
  of_rests (rests_leaveProgram h.below) h.gates h.calibrations h.converting h.verbatim h.active h.config
    h.build h.qubits h.defined

theorem leaveRoutine {key : Nat} {stub : Stub}
    (h : (c.enterRoutine key stub p).Advance c₁) (hk : c.converting.lookup key = none) :
    c.Advance (c₁.leaveRoutine key) := by
  refine of_rests (rests_leaveProgram h.below) h.gates h.calibrations ?_ h.verbatim h.active h.config
    h.build h.qubits h.defined
  -- the routine was not in conversion before, so its stub is the only one to go
  have hkeys : ∀ x ∈ c.converting, x.1 ≠ key := by
    intro x hx he
    exact absurd (lookup_eq_none_iff.1 hk x hx) (by simp [he])
  simp only [Context.leaveRoutine, h.converting, enterRoutine, filter_cons]
  simpa using hkeys

end Advance

end Context

theorem Program.gates_declare? {q : Program} (h : p.declare? v = some q) : q.gates = p.gates := by
  unfold declare? at h
  split at h
  · cases h
  · cases h
    rfl

theorem Program.gates_addPending : (p.addPending v).gates = p.gates := by
  unfold addPending
  split <;> rfl

theorem Program.subroutines_declare? {q : Program} (h : p.declare? v = some q) : q.subroutines = p.subroutines := by
  unfold declare? at h
  split at h
  · cases h
  · cases h
    rfl

theorem Program.subroutines_addPending (p : Program) (v : Var) : (p.addPending v).subroutines = p.subroutines := by
  unfold addPending
  split <;> rfl

theorem Program.name_of_lookup? (h : p.lookup? name = some v) : v.name = name := by
  unfold lookup? at h
  split at h
  · rename_i u hu
    cases h
    simpa using find?_some hu
  · simpa using find?_some h

theorem Convert.verbatim_of_refusal {c : Context} (h : verbatimRefusal? c = none) : c.verbatim = false := by
  unfold verbatimRefusal? at h
  cases hv : c.verbatim <;> simp_all

theorem Acts.advance {d : Discipline} {c c' : Context} (h : Acts d c c') : c.Advance c' := by
  induction h with
  | refl => exact .refl _
  | trans _ _ ih₁ ih₂ => exact ih₁.trans ih₂
  | register =>
    exact .of_eq rfl rfl rfl rfl rfl rfl rfl rfl rfl fun _ hq => mem_insertAscending.2 (.inr hq)
  | fresh | returned | pulse => exact .of_eq rfl rfl rfl rfl rfl rfl rfl rfl rfl (List.Subset.refl _)
  | emit h => exact (Context.Advance.refl _).emit h.admits
  | declare hp hv h =>
    exact .updateCurrent (.declare? (admits_of_permits hp _) h) (Program.gates_declare? h)
  | pend hp hn hi =>
    have hb : ∀ (p : Program) (v : Var), (p.addPending v).blocks = p.blocks := by
      intro p v
      unfold Program.addPending
      split <;> rfl
    exact .updateCurrent (Program.Resumes.grows ⟨hb _ _, .addPending _ _⟩) Program.gates_addPending
  | mark hp hn => exact .updateCurrent (Program.Resumes.grows ⟨rfl, .markDeclared _ _⟩) rfl
  | announce h => exact .updateRoot (.enablePulse _) ⟨[], by simp [Program.enablePulse], by simp⟩
  | stub hp h => exact .updateCurrent (Program.Resumes.grows ⟨rfl, .addSubroutine _ _⟩) rfl

theorem Context.Advance.hasSubroutine {c c' : Context} (h : c.Advance c')
    (hn : c.root.hasSubroutine name = true) : c'.root.hasSubroutine name = true := by
  have hstack : Forall₂ Program.Kept c.stack c'.stack := by
    rw [stack_eq c, stack_eq c']
    exact .cons h.current.kept (h.below.imp fun _ _ hr => hr.kept)
  -- the root is the last program on the stack
  have hroot : c.root.Kept c'.root := by
    have hrev := forall₂_reverse_iff.2 hstack
    simp only [stack, reverse_append, reverse_singleton, singleton_append] at hrev
    exact (forall₂_cons.1 hrev).1
  exact hroot.hasSubroutine hn

theorem Context.Advance.hasGate {c c' : Context} (h : c.Advance c')
    (hn : c.root.hasGate name = true) : c'.root.hasGate name = true := by
  obtain ⟨new, hnew, -⟩ := h.defined
  rw [Program.hasGate, hnew, any_append, ← Program.hasGate, hn, Bool.true_or]

/-- A stretch that is over has written at one place, and only what is admitted there. -/
theorem Writes.advance {d : Discipline} {c c' : Context} (h : Writes d c c') : c.Advance c' := by
  induction h with
  | acts h => exact h.advance
  | trans _ _ ih₁ ih₂ => exact ih₁.trans ih₂
  | drop _ ih => exact ih.drop
  | branch hp he _ _ ih₁ ih₂ =>
    exact (ih₁.drop.trans ih₂.drop).emit (admits_of_permits hp _)
  | forIn hp hn hv he _ ih => exact ih.drop.emit (admits_of_permits hp _)
  | «while» hp he _ ih => exact ih.drop.emit (admits_of_permits hp _)
  | abandon hp hv _ ih => exact ih.drop.leaveVerbatim (Convert.verbatim_of_refusal hv)
  | verbatim hp hv _ ih =>
    have hall := admits_of_permits hp
    exact ((ih.drop.emit (hall _)).emit (hall _)).leaveVerbatim (Convert.verbatim_of_refusal hv)
  | program _ _ ih => exact ih.leaveProgram
  | failed hb _ _ ih | known hb _ _ ih => exact ih.leaveRoutine hb.idle
  | subroutine hb _ _ hm ih =>
    refine (ih.leaveRoutine hb.idle).trans (.updateRoot (.addSubroutine _ _) ⟨[], ?_, by simp⟩)
    rw [append_nil]
    rfl
  | scope ho hr _ ih => exact ih.drop.leaveGate ih.closeBlock.1
  | @gate c c₁ r ho hr _ _ hm ih =>
    let g : GateDef := ⟨r.name, GateParam.angles r.params, GateParam.qubits r.params, c₁.captured⟩
    have hg : g.IsUnitary := ih.closeBlock.2.2
    have hrests : c₁.closeBlock.root.Rests (c₁.closeBlock.root.addGate g) := .addGate hm
    have hdef : c₁.closeBlock.Advance (c₁.closeBlock.updateRoot (·.addGate g)) :=
      .updateRoot hrests ⟨[g], Program.gates_addGate hm, by simpa using hg⟩
    exact (ih.drop.trans hdef).leaveGate (ih.closeBlock.1.trans (rests_current (rests_updateRoot hrests)).toResumes)
  | calibration hr _ ih => exact ih.drop.leaveCalibration ih.closeBlock.1

theorem Context.stack_leaveProgram_subset (c : Context) : c.leaveProgram.stack ⊆ c.stack := by
  intro p hp
  rcases mem_append.1 hp with hp | hp
  · exact mem_append_left _ (mem_of_mem_tail hp)
  · exact mem_append_right _ hp

/-- What is so where a stretch begins is so where it ends, if it stays so as the stretch writes and enters,
and comes back with the program that was left. -/
structure Stable (d : Discipline) (P : Context → Prop) : Prop where
  acts {c c'} : Acts d c c' → P c → P c'
  enters {c c'} : Enters d c c' → P c → P c'
  emit {c} st : P c → P (c.emit st)
  closeBlock {c} : P c → P c.closeBlock
  back {c c₁ c'} : P c → P c₁ → c.Advance c' → c'.stack ⊆ c₁.stack → c'.root = c₁.root → c'.marks = c₁.marks → P c'
  subroutine {c c₁ key r stub} : d.Begins c key r stub → Writes d (c.enterRoutine key stub r.blank) c₁ →
    d.policy.defines c.build ⟨r.name, r.locals, r.returns, c₁.current.body, false⟩ → P c → P (c₁.leaveRoutine key) →
    P ((c₁.leaveRoutine key).updateRoot (·.addSubroutine ⟨r.name, r.locals, r.returns, c₁.current.body, false⟩))
  gate {c} g : P c → P (c.updateRoot (·.addGate g))

theorem Writes.stable {d : Discipline} {P : Context → Prop} {c c' : Context} (hP : Stable d P) (h : Writes d c c')
    (hc : P c) : P c' := by
  have hblock : ∀ {c c₁ : Context}, (P c.openBlock → P c₁) → P c → P c₁.closeBlock := fun ih hc =>
    hP.closeBlock (ih (hP.enters .block hc))
  have hleave : ∀ {c c₁ : Context} {key : Nat} {r : Routine} {stub : Stub}, d.Begins c key r stub →
      Writes d (c.enterRoutine key stub r.blank) c₁ → (P (c.enterRoutine key stub r.blank) → P c₁) → P c →
      P (c₁.leaveRoutine key) := fun hb h ih hc =>
    hP.back hc (ih (hP.enters (.routine hb) hc)) (h.advance.leaveRoutine hb.idle)
      (stack_leaveProgram_subset _) rfl rfl
  -- a frame that is left changes nothing of what it was put around
  have hframe : ∀ {c c₁ c' : Context}, Writes d c c' → P c → P c₁ → c'.stack = c₁.stack → c'.root = c₁.root →
      c'.marks = c₁.marks → P c' := fun hw hc h₁ hs =>
    hP.back hc h₁ hw.advance (hs ▸ List.Subset.refl _)
  induction h with
  | acts h => exact hP.acts h hc
  | trans _ _ ih₁ ih₂ => exact ih₂ (ih₁ hc)
  | drop _ ih => exact hblock ih hc
  | branch _ _ _ _ ih₁ ih₂ => exact hP.emit _ (hblock ih₂ (hblock ih₁ hc))
  | forIn _ _ _ _ _ ih | «while» _ _ _ ih => exact hP.emit _ (hblock ih hc)
  | abandon hp hv h ih =>
    exact hframe (.abandon hp hv h) hc (hblock ih (hP.enters (.verbatim hp hv) hc)) rfl rfl rfl
  | verbatim hp hv h ih =>
    refine hframe (.verbatim hp hv h) hc (hP.emit _ (hP.emit _ ?_)) rfl rfl rfl
    exact hblock ih (hP.enters (.verbatim hp hv) hc)
  | program hb h ih =>
    exact hP.back hc (ih (hP.enters (.program hb) hc)) (Writes.program hb h).advance
      (stack_leaveProgram_subset _) rfl rfl
  | failed hb _ h ih | known hb h _ ih => exact hleave hb h ih hc
  | subroutine hb h hd _ ih => exact hP.subroutine hb h hd hc (hleave hb h ih hc)
  | scope ho hr h ih => exact hframe (.scope ho hr h) hc (hblock ih (hP.enters (.gate ho hr) hc)) rfl rfl rfl
  | gate ho hr h hd hm ih =>
    exact hframe (.gate ho hr h hd hm) hc (hP.gate _ (hblock ih (hP.enters (.gate ho hr) hc))) rfl rfl rfl
  | calibration hr h ih =>
    exact hframe (.calibration hr h) hc (hblock ih (hP.enters (.calibration hr) hc)) rfl rfl rfl

/-- A relation that holds of the marks before and after every change holds of those before and after a stretch. -/
theorem Writes.related {d : Discipline} {R : List String × Option Var × Nat → List String × Option Var × Nat → Prop}
    (htrans : ∀ {x y z}, R x y → R y z → R x z) (hacts : ∀ {c c'}, Acts d c c' → R c.marks c'.marks) {c c' : Context}
    (h : Writes d c c') : R c.marks c'.marks := by
  have hstable : Stable d fun t => R c.marks t.marks := {
    acts ha ht := htrans ht (hacts ha)
    enters he ht := by cases he <;> exact ht
    emit _ ht := ht
    closeBlock ht := ht
    back _ ht _ _ _ hmarks := hmarks.symm ▸ ht
    subroutine _ _ _ _ ht := ht
    gate _ ht := ht }
  exact h.stable hstable (hacts .refl)

end QasmStudio

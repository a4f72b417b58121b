import QasmStudio.Proofs.Convert.Advance

/-!
# What holds of all statements

`Program.All P`: all statements of a program satisfy `P`, those of its subroutines and the declarations
that are still to come included. `Context.All P`: the same for all programs that are being written. What
a build does to its programs keeps such a property, as long as what it writes has it.
-/

namespace QasmStudio

open List

/-- All statements satisfy `P`, in the open blocks, in the subroutines and among the declarations to come. -/
structure Program.All (P : Stmt → Prop) (p : Program) : Prop where
  blocks : ∀ b ∈ p.blocks, ∀ st ∈ b, P st
  pending : ∀ v ∈ p.pending, P (.declare v)
  subroutines : ∀ d ∈ p.subroutines, ∀ st ∈ d.body, P st

namespace Program.All
variable {P Q : Stmt → Prop} {p q : Program}

theorem imp (h : ∀ st, P st → Q st) (hp : p.All P) : p.All Q :=
  ⟨fun b hb st hst => h st (hp.blocks b hb st hst), fun v hv => h _ (hp.pending v hv),
    fun d hd st hst => h st (hp.subroutines d hd st hst)⟩

theorem innermost (hp : p.All P) : ∀ st ∈ p.innermost, P st := by
  refine hp.blocks _ ?_
  rw [blocks_eq]
  exact mem_cons_self ..

theorem body (hp : p.All P) : ∀ st ∈ p.body, P st := by
  intro st hst
  rcases mem_append.1 hst with hst | hst
  · obtain ⟨v, hv, rfl⟩ := mem_map.1 hst
    exact hp.pending v hv
  · exact hp.blocks p.top (mem_append_right _ (mem_singleton.2 rfl)) st hst

theorem add {st : Stmt} (hp : p.All P) (hst : P st) : (p.add st).All P := by
  refine ⟨?_, hp.pending, hp.subroutines⟩
  rw [blocks_add]
  intro b hb
  rcases mem_cons.1 hb with rfl | hb
  · intro x hx
    rcases mem_append.1 hx with hx | hx
    · exact hp.innermost x hx
    · exact mem_singleton.1 hx ▸ hst
  · exact hp.blocks b (mem_of_mem_tail hb)

theorem openBlock (hp : p.All P) : p.openBlock.All P := by
  refine ⟨fun b hb => ?_, hp.pending, hp.subroutines⟩
  rw [blocks_openBlock] at hb
  rcases mem_cons.1 hb with rfl | hb
  · simp
  · exact hp.blocks b hb

theorem closeBlock (hp : p.All P) : p.closeBlock.All P := by
  refine ⟨fun b hb => hp.blocks b ?_, hp.pending, hp.subroutines⟩
  rcases mem_append.1 hb with hb | hb
  · exact mem_append_left _ (mem_of_mem_tail hb)
  · exact mem_append_right _ hb

theorem markDeclared (v : Var) (hp : p.All P) : (p.markDeclared v).All P :=
  ⟨hp.blocks, fun u hu => hp.pending u (mem_filter.1 hu).1, hp.subroutines⟩

theorem declare? {v : Var} (hp : p.All P) (hv : P (.declare v)) (h : p.declare? v = some q) : q.All P := by
  unfold Program.declare? at h
  split at h
  · cases h
  · cases h
    exact (hp.markDeclared v).add hv

theorem addPending {v : Var} (hp : p.All P) (hv : P (.declare v)) : (p.addPending v).All P := by
  unfold Program.addPending
  split
  · exact hp
  · refine ⟨hp.blocks, fun u hu => ?_, hp.subroutines⟩
    rcases mem_append.1 hu with hu | hu
    · exact hp.pending u hu
    · exact mem_singleton.1 hu ▸ hv

theorem addSubroutine {d : SubroutineDef} (hp : p.All P) (hd : ∀ st ∈ d.body, P st) :
    (p.addSubroutine d).All P := by
  refine ⟨hp.blocks, hp.pending, fun d' hd' => ?_⟩
  rcases mem_put hd' with rfl | hd'
  · exact hd
  · exact hp.subroutines d' hd'

theorem prepend {st : Stmt} (hp : p.All P) (hst : P st) : (p.prepend st).All P := by
  refine ⟨fun b hb => ?_, hp.pending, hp.subroutines⟩
  rcases mem_append.1 hb with hb | hb
  · exact hp.blocks b (mem_append_left _ hb)
  · rw [mem_singleton.1 hb]
    intro x hx
    rcases mem_cons.1 hx with rfl | hx
    · exact hst
    · exact hp.blocks p.top (mem_append_right _ (mem_singleton.2 rfl)) x hx

theorem of_empty (hb : p.blocks = [[]]) (hp : p.pending = []) (hs : p.subroutines = []) : p.All P :=
  ⟨by simp [hb], by simp [hp], by simp [hs]⟩

theorem enablePulse (hp : p.All P) : p.enablePulse.All P := ⟨hp.blocks, hp.pending, hp.subroutines⟩

theorem addGate (hp : p.All P) (d : GateDef) : (p.addGate d).All P := ⟨hp.blocks, hp.pending, hp.subroutines⟩

theorem blank (r : Routine) : r.blank.All P := .of_empty r.blocks_blank.1 r.blocks_blank.2.1 r.blocks_blank.2.2

end Program.All

namespace Context
variable {P : Stmt → Prop} {c : Context} {f : Program → Program}

/-- All statements of the programs that are being written satisfy `P`. -/
def All (P : Stmt → Prop) (c : Context) : Prop := ∀ p ∈ c.stack, p.All P

theorem all_start (n : Nat) (config : BuildConfig) (id : String) : (start n config id).All P := by
  intro p hp
  rw [mem_singleton.1 hp]
  exact .of_empty rfl rfl rfl

namespace All

theorem current (h : c.All P) : c.current.All P := by
  refine h _ ?_
  rw [stack_eq]
  exact mem_cons_self ..

theorem root (h : c.All P) : c.root.All P := h _ (mem_append_right _ (mem_singleton.2 rfl))

theorem captured (h : c.All P) : ∀ st ∈ c.captured, P st := h.current.innermost

theorem updateCurrent (h : c.All P) (hf : (f c.current).All P) : (c.updateCurrent f).All P := by
  intro p hp
  rw [stack_updateCurrent] at hp
  rcases mem_cons.1 hp with rfl | hp
  · exact hf
  · exact h p (mem_of_mem_tail hp)

theorem updateRoot (h : c.All P) (hf : (f c.root).All P) : (c.updateRoot f).All P := by
  intro p hp
  rcases mem_append.1 hp with hp | hp
  · exact h p (mem_append_left _ hp)
  · exact mem_singleton.1 hp ▸ hf

theorem emit {st : Stmt} (h : c.All P) (hst : P st) : (c.emit st).All P := h.updateCurrent (h.current.add hst)

theorem openBlock (h : c.All P) : c.openBlock.All P := h.updateCurrent h.current.openBlock

theorem closeBlock (h : c.All P) : c.closeBlock.All P := h.updateCurrent h.current.closeBlock

theorem enterProgram {p : Program} (h : c.All P) (hp : p.All P) : (c.enterProgram p).All P := by
  intro q hq
  rcases mem_cons.1 hq with rfl | hq
  · exact hp
  · exact h q hq

theorem leaveProgram (h : c.All P) : c.leaveProgram.All P := by
  intro p hp
  rcases mem_append.1 hp with hp | hp
  · exact h p (mem_append_left _ (mem_of_mem_tail hp))
  · exact h p (mem_append_right _ hp)

theorem enterRoutine (h : c.All P) (key : Nat) (stub : Stub) (r : Routine) :
    (c.enterRoutine key stub r.blank).All P := h.enterProgram (.blank r)

theorem leaveRoutine (h : c.All P) (key : Nat) : (c.leaveRoutine key).All P := h.leaveProgram

end All

end Context

end QasmStudio

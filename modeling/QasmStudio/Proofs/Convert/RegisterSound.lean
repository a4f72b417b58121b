import QasmStudio.Proofs.Convert.Interpreter
import QasmStudio.Proofs.Lang.GeneratedNames
import QasmStudio.Proofs.Lang.Occurrences

/-!
# Soundness of the register

Whatever element of the register a build writes into a program, it has registered before. So when the
register is declared at the end of a build, it covers every element that occurs, at any depth of blocks
and in every subroutine; and the size that the result reports is the one declared.

The bodies of the build must leave the name of the register alone, and address elements by numbers
whose successor is a word.
-/

namespace QasmStudio

open Discipline List

variable {c : Context} {e : Expr} {key : Nat} {st : Stmt}

/-! ### The discipline -/

/-- No generated name is that of the register: the one has a digit where the other has a letter. -/
theorem generatedName_ne_registerName (stem : String) (n : Int) : generatedName stem n ≠ registerName := by
  intro h
  have hlist : stem.toList ++ Word.text n = "__qubits".toList := by
    have h' := congrArg String.toList h
    have hname : registerName.toList = "__qubits".toList ++ ['_', '_'] := by decide
    rw [hname, toList_generatedName] at h'
    exact append_cancel_right h'
  have hlast := congrArg List.getLast? hlist
  rw [getLast?_append_of_ne_nil _ (Word.text_ne_nil n), getLast?_eq_some_getLast (Word.text_ne_nil n)] at hlast
  have hdigit := Word.isDigit_getLast_text n
  rw [Option.some.inj (hlast.trans (by decide : "__qubits".toList.getLast? = some 's'))] at hdigit
  exact absurd hdigit (by decide)

/-- A qubit operand is no literal expression, and a number with a successor. -/
def IsWire : Value → Prop
  | .int .word n => n < Word.largest
  | .expr (.int _) => False
  | _ => True

/-- Bodies that use the register only through qubit operands. -/
def Discipline.register : Discipline where
  name := (· ≠ registerName)
  wire := IsWire
  index i := 0 ≤ i ∧ i < Word.largest
  generated := generatedName_ne_registerName
  nothing := trivial
  policy := { lost := Policy.lost_default }

/-! ### The invariant -/

/-- The elements of the register that the expression fixes are among the given ones. -/
def Expr.Within (qubits : List Int) (e : Expr) : Prop := ∀ i ∈ e.registerIndices, i ∈ qubits

/-- A variable other than the register. -/
def Var.IsOwn (v : Var) : Prop := v.name ≠ registerName

theorem Expr.within_of_over (h : e.Over (· ≠ registerName)) (qubits : List Int) : e.Within qubits := by
  intro i hi
  rw [Expr.registerIndices_of_over (fun hne => hne rfl) h] at hi
  cases hi

theorem Expr.Within.mono {qs qs' : List Int} (h : qs ⊆ qs') (he : e.Within qs) :
    e.Within qs' := fun i hi => h (he i hi)

/-- Every element of the register that has been written is registered, and nothing else is called as
the register is. The indices registered are ascending, and their successors are words. -/
structure Context.Sound (c : Context) : Prop where
  programs : ∀ p ∈ c.stack, p.Every (Expr.Within c.qubits) Var.IsOwn
  stubs : ∀ x ∈ c.converting, ∀ st ∈ x.2.definition.body, st.Every (Expr.Within c.qubits) Var.IsOwn
  bounds : ∀ i ∈ c.qubits, 0 ≤ i ∧ i < Word.largest
  ascending : c.qubits.Pairwise (· < ·)

theorem pairwise_insertAscending {n : Int} : ∀ {ms : List Int}, ms.Pairwise (· < ·) →
    (insertAscending n ms).Pairwise (· < ·)
  | [], _ => pairwise_singleton ..
  | m :: ms, h => by
    obtain ⟨hm, hms⟩ := pairwise_cons.1 h
    unfold insertAscending
    split
    · rename_i hlt
      refine pairwise_cons.2 ⟨fun k hk => ?_, h⟩
      rcases mem_cons.1 hk with rfl | hk
      · exact hlt
      · exact Int.lt_trans hlt (hm k hk)
    · split
      · exact h
      · rename_i hge hne
        refine pairwise_cons.2 ⟨fun k hk => ?_, pairwise_insertAscending hms⟩
        rcases mem_insertAscending.1 hk with rfl | hk
        · omega
        · exact hm k hk

namespace Context.Sound
variable {c' : Context}

theorem current (h : c.Sound) : c.current.Every (Expr.Within c.qubits) Var.IsOwn := by
  refine h.programs _ ?_
  rw [stack_eq]
  exact mem_cons_self ..

theorem of_eq (h : c.Sound) (hr : c'.root = c.root) (hi : c'.inner = c.inner)
    (hs : c'.converting = c.converting) (hq : c'.qubits = c.qubits) : c'.Sound := by
  have hstack : c'.stack = c.stack := by rw [stack, stack, hr, hi]
  refine ⟨?_, ?_, ?_, ?_⟩
  · rw [hstack, hq]
    exact h.programs
  · rw [hs, hq]
    exact h.stubs
  · rw [hq]
    exact h.bounds
  · rw [hq]
    exact h.ascending

theorem register {i : Int} (h : c.Sound) (hi : 0 ≤ i ∧ i < Word.largest) : (c.register i).Sound := by
  have hmore : c.qubits ⊆ (c.register i).qubits := fun _ hq => mem_insertAscending.2 (.inr hq)
  refine ⟨fun p hp => (h.programs p hp).mono fun _ => .mono hmore,
    fun x hx st hst => (h.stubs x hx st hst).mono fun _ => .mono hmore, fun j hj => ?_,
    pairwise_insertAscending h.ascending⟩
  rcases mem_insertAscending.1 hj with rfl | hj
  · exact hi
  · exact h.bounds j hj

theorem updateCurrent {f : Program → Program} (h : c.Sound)
    (hf : (f c.current).Every (Expr.Within c.qubits) Var.IsOwn) : (c.updateCurrent f).Sound := by
  refine ⟨fun p hp => ?_, h.stubs, h.bounds, h.ascending⟩
  rw [stack_updateCurrent] at hp
  rcases mem_cons.1 hp with rfl | hp
  · exact hf
  · exact h.programs p (mem_of_mem_tail hp)

theorem updateRoot {f : Program → Program} (h : c.Sound)
    (hf : (f c.root).Every (Expr.Within c.qubits) Var.IsOwn) : (c.updateRoot f).Sound := by
  refine ⟨fun p hp => ?_, h.stubs, h.bounds, h.ascending⟩
  rcases mem_append.1 hp with hp | hp
  · exact h.programs p (mem_append_left _ hp)
  · exact mem_singleton.1 hp ▸ hf

theorem root (h : c.Sound) : c.root.Every (Expr.Within c.qubits) Var.IsOwn :=
  h.programs _ (mem_append_right _ (mem_singleton.2 rfl))

theorem emit (h : c.Sound) (hst : st.Every (Expr.Within c.qubits) Var.IsOwn) :
    (c.emit st).Sound := h.updateCurrent (h.current.add hst)

theorem openBlock (h : c.Sound) : c.openBlock.Sound := h.updateCurrent h.current.openBlock

theorem closeBlock (h : c.Sound) : c.closeBlock.Sound := h.updateCurrent h.current.closeBlock

theorem emitBlock (h : c.Sound) (hst : st.Every (Expr.Within c.qubits) Var.IsOwn) :
    (c.closeBlock.emit st).Sound := h.closeBlock.emit hst

theorem captured (h : c.Sound) : ∀ st ∈ c.captured, st.Every (Expr.Within c.qubits) Var.IsOwn := h.current.innermost

theorem enterProgram {p : Program} (h : c.Sound) (hp : p.Every (Expr.Within c.qubits) Var.IsOwn) :
    (c.enterProgram p).Sound := by
  refine ⟨fun q hq => ?_, h.stubs, h.bounds, h.ascending⟩
  rcases mem_cons.1 hq with rfl | hq
  · exact hp
  · exact h.programs q hq

theorem leaveProgram (h : c.Sound) : c.leaveProgram.Sound := by
  refine ⟨fun p hp => h.programs p ?_, h.stubs, h.bounds, h.ascending⟩
  rcases mem_append.1 hp with hp | hp
  · exact mem_append_left _ (mem_of_mem_tail hp)
  · exact mem_append_right _ hp

theorem leaveRoutine (h : c.Sound) : (c.leaveRoutine key).Sound :=
  ⟨h.leaveProgram.programs, fun x hx => h.stubs x (mem_filter.1 hx).1, h.bounds, h.ascending⟩

end Context.Sound

/-! ### What is written -/

/-- An operand either fixes an element of the register, and then says which, or refers to none. -/
theorem Context.registerIndices_resolve {v : Value} {t : Target}
    (hv : v.Over (· ≠ registerName)) (hw : IsWire v) (h : c.resolve v = .ok t) :
    ∀ i ∈ t.expr.registerIndices, t.index = some i := by
  have hnone : ∀ {e : Expr}, e.Over (· ≠ registerName) → ∀ i ∈ e.registerIndices, t.index = some i := by
    intro e he i hi
    rw [Expr.registerIndices_of_over (fun hne => hne rfl) he] at hi
    cases hi
  unfold resolve at h
  split at h
  · split at h
    · cases h
    · split at h
      · cases h
        exact hnone trivial
      · rename_i n _ _
        cases h
        intro i hi
        have hidx : (Expr.index registerExpr (.int n)).registerIndices = [n] := rfl
        rw [hidx] at hi
        rw [mem_singleton.1 hi]
  · split at h
    · cases h
      exact hnone trivial
    · cases h
  · cases h
    exact hnone trivial
  · rename_i e _
    split at h
    · split at h
      · cases h
        exact hnone hv
      · split at h
        · split at h
          · cases h
            -- a literal would fix an element without registering it
            have hfix : Expr.fixedElement registerExpr e = [] := by
              cases e <;> first | rfl | exact hw.elim
            intro i hi
            rw [Expr.registerIndices, hfix, nil_append] at hi
            rcases mem_append.1 hi with hi | hi
            · cases hi
            · exact hnone hv i hi
          · cases h
        · cases h
    · cases h
  · cases h

namespace Discipline

theorem Addressed.within {t : Target} (h : Discipline.register.Addressed c t) : t.expr.Within c.qubits := by
  obtain ⟨⟨v, hv, hw, hr⟩, hi⟩ := h
  exact fun i h => hi i (Context.registerIndices_resolve hv hw hr i h)

theorem Argument.within (h : Discipline.register.Argument c e) : e.Within c.qubits := by
  rcases h with h | ⟨t, ht, rfl⟩
  · exact Expr.within_of_over h _
  · exact ht.within

theorem within_measure (h : e.Within c.qubits) : (Expr.measure e).Within c.qubits := h

theorem within_call {name : String} {args : List Expr} {ty : Option Ty}
    (h : ∀ e ∈ args, e.Within c.qubits) : (Expr.call name args ty).Within c.qubits := by
  intro i hi
  obtain ⟨e, he, hi⟩ := Expr.mem_allRegisterIndices.1 hi
  exact h e he i hi

theorem Emits.every (h : Discipline.register.Emits c st) : st.Every (Expr.Within c.qubits) Var.IsOwn := by
  have hover : ∀ {e : Expr}, e.Over (· ≠ registerName) → e.Within c.qubits := fun he =>
    Expr.within_of_over he _
  have htargets : ∀ {ts : List Target}, (∀ t ∈ ts, Discipline.register.Addressed c t) →
      ∀ e ∈ ts.map (·.expr), e.Within c.qubits := by
    intro ts ht e he
    obtain ⟨t, hts, rfl⟩ := mem_map.1 he
    exact (ht t hts).within
  cases h with
  | gate hp hn ht ha hf => exact ⟨fun e he => hover (ha e he), htargets ht⟩
  | reset hp ht => exact ht.within
  | barrier hp ht => exact htargets ht
  | measure hp hv ht =>
    refine ⟨hover ⟨?_, trivial⟩, within_measure ht.within⟩
    exact hv.over (d := Discipline.register)
  | assign hp he => exact ⟨fun i hi => absurd hi not_mem_nil, hover he⟩
  | call hp hk ha => exact within_call fun e he => (ha e he).within
  | «break» | «continue» => trivial
  | «return» hp he _ => exact fun e h => hover (he e h)
  | pulse hp hn he =>
    refine within_call fun x hx => hover ?_
    rcases mem_cons.1 hx with rfl | hx
    · trivial
    · exact mem_singleton.1 hx ▸ he
  | delay hp ht =>
    refine ⟨hover trivial, fun e he => ?_⟩
    rcases ht e he with ⟨name, rfl⟩ | ⟨t, ht, rfl⟩
    · exact hover trivial
    · exact ht.within

theorem Declares.every {v : Var} (h : Discipline.register.Declares c v) :
    (Stmt.declare v).Every (Expr.Within c.qubits) Var.IsOwn := by
  cases h with
  | measured hn ht =>
    refine ⟨hn.generated.over (d := Discipline.register), fun e he => ?_⟩
    cases he
    exact within_measure ht.within
  | zeros hn =>
    refine ⟨hn.generated.over (d := Discipline.register), fun e he => ?_⟩
    cases he
    exact fun i hi => absurd hi not_mem_nil
  | result hn hk ha =>
    refine ⟨hn.generated.over (d := Discipline.register), fun e he => ?_⟩
    cases he
    exact within_call fun e he => (ha e he).within
  | assigned hn hc hl he hg =>
    refine ⟨hn, fun x hx => ?_⟩
    cases hx
    exact Expr.within_of_over he _

theorem Registers.bounds {i : Int} (h : Discipline.register.Registers c i) : 0 ≤ i ∧ i < Word.largest := by
  rcases h with ⟨v, t, hw, hr, hi⟩ | h
  · rcases Context.resolve_cases hr with ⟨n, hn, rfl, rfl⟩ | hnone
    · cases hi
      exact ⟨hn, hw⟩
    · rw [hnone] at hi
      cases hi
  · exact h

theorem Begins.every {r : Routine} {stub : Stub} (h : Discipline.register.Begins c key r stub) :
    ∀ st ∈ stub.definition.body, st.Every (Expr.Within c.qubits) Var.IsOwn := by
  obtain ⟨z, hz, rfl⟩ := h.stub
  intro st hst
  cases z with
  | absent | hollow =>
    rw [mem_singleton.1 hst]
    exact fun e he => by cases he
  | value e =>
    rw [mem_singleton.1 hst]
    intro x hx
    cases hx
    refine Expr.within_of_over ?_ _
    unfold Routine.IsZero at hz
    cases hret : r.returns with
    | none =>
      rw [hret] at hz
      cases hz
    | some t =>
      rw [hret] at hz
      exact (Ty.over_zero hz).1

end Discipline

theorem Context.Sound.enterRoutine {r : Routine} {stub : Stub} (h : c.Sound)
    (hb : Discipline.register.Begins c key r stub) : (c.enterRoutine key stub r.blank).Sound := by
  obtain ⟨hblocks, hpending, hsubs⟩ := r.blocks_blank
  have hin := h.enterProgram (p := r.blank) (.of_empty hblocks hpending hsubs)
  refine ⟨hin.programs, fun x hx => ?_, h.bounds, h.ascending⟩
  rcases mem_cons.1 hx with rfl | hx
  · exact hb.every
  · exact h.stubs x hx

theorem Acts.sound {c' : Context} (h : Acts .register c c') (hc : c.Sound) : c'.Sound := by
  induction h with
  | refl => exact hc
  | trans _ _ ih₁ ih₂ => exact ih₂ (ih₁ hc)
  | register h => exact hc.register h.bounds
  | fresh | returned | pulse => exact hc.of_eq rfl rfl rfl rfl
  | emit h => exact hc.emit h.every
  | declare hp hv h => exact hc.updateCurrent (hc.current.declare? hv.every h)
  | pend hp hn hi =>
    exact hc.updateCurrent (hc.current.addPending
      ⟨hn.generated.over (d := Discipline.register), fun e he => Expr.within_of_over (hi e he).1 _⟩)
  | mark hp hn => exact hc.updateCurrent (hc.current.markDeclared _)
  | announce h => exact hc.updateRoot ⟨hc.root.blocks, hc.root.pending, hc.root.subroutines⟩
  | stub hp h => exact hc.updateCurrent (hc.current.addSubroutine (hc.stubs _ h))

/-- A stretch of a build keeps the register sound. -/
theorem Writes.sound {c' : Context} (h : Writes .register c c') (hc : c.Sound) : c'.Sound := by
  induction h with
  | acts h => exact h.sound hc
  | trans _ _ ih₁ ih₂ => exact ih₂ (ih₁ hc)
  | drop _ ih => exact (ih hc.openBlock).closeBlock
  | @branch c c₁ c₂ e hp he _ h₂ ih₁ ih₂ =>
    have hfirst := ih₁ hc.openBlock
    have hsecond := ih₂ hfirst.closeBlock.openBlock
    have hmore : c₁.qubits ⊆ c₂.qubits := h₂.advance.qubits
    refine hsecond.emitBlock ⟨Expr.within_of_over he _, Stmt.everyOf_iff.2 fun st hst => ?_,
      Stmt.everyOf_iff.2 hsecond.captured⟩
    exact (hfirst.captured st hst).mono fun _ => .mono hmore
  | forIn hp hn hv he _ ih =>
    have hbody := ih hc.openBlock
    exact hbody.emitBlock ⟨hn.over (d := Discipline.register), Expr.within_of_over he _,
      Stmt.everyOf_iff.2 hbody.captured⟩
  | «while» hp he _ ih =>
    have hbody := ih hc.openBlock
    exact hbody.emitBlock ⟨Expr.within_of_over he _, Stmt.everyOf_iff.2 hbody.captured⟩
  | @abandon c c₁ hp hv _ ih =>
    have hin : c.enterVerbatim.Sound := hc.of_eq rfl rfl rfl rfl
    exact (ih hin.openBlock).closeBlock.of_eq rfl rfl rfl rfl
  | @verbatim c c₁ hp hv _ ih =>
    have hin : c.enterVerbatim.Sound := hc.of_eq rfl rfl rfl rfl
    have hbody := ih hin.openBlock
    have hpragma : (c₁.closeBlock.emit (.pragma "braket verbatim")).Sound := hbody.emitBlock trivial
    have hbox : ((c₁.closeBlock.emit (.pragma "braket verbatim")).emit (.box c₁.captured)).Sound :=
      hpragma.emit (Stmt.everyOf_iff.2 hbody.captured)
    exact hbox.of_eq rfl rfl rfl rfl
  | program _ _ ih => exact (ih (hc.enterProgram (.of_empty rfl rfl rfl))).leaveProgram
  | failed hb _ _ ih | known hb _ _ ih => exact (ih (hc.enterRoutine hb)).leaveRoutine
  | subroutine hb _ _ hm ih =>
    have hbody := ih (hc.enterRoutine hb)
    exact hbody.leaveRoutine.updateRoot (hbody.leaveRoutine.root.addSubroutine hbody.current.body)
  | @scope c c₁ r ho hr _ ih =>
    have hin : (c.enterGate r).Sound := hc.of_eq rfl rfl rfl rfl
    exact (ih hin.openBlock).closeBlock.of_eq rfl rfl rfl rfl
  | @gate c c₁ r ho hr _ _ hm ih =>
    have hin : (c.enterGate r).Sound := hc.of_eq rfl rfl rfl rfl
    have hbody := (ih hin.openBlock).closeBlock
    have hroot := hbody.root
    let g : GateDef := ⟨r.name, GateParam.angles r.params, GateParam.qubits r.params, c₁.captured⟩
    have hdef : (c₁.closeBlock.updateRoot (·.addGate g)).Sound :=
      hbody.updateRoot ⟨hroot.blocks, hroot.pending, hroot.subroutines⟩
    exact hdef.of_eq rfl rfl rfl rfl
  | @calibration c c₁ r hr _ ih =>
    have hin : (c.enterCalibration r).Sound := hc.of_eq rfl rfl rfl rfl
    exact (ih hin.openBlock).closeBlock.of_eq rfl rfl rfl rfl

/-! ### The end of a build -/

theorem Context.sound_start (n : Nat) (config : BuildConfig) (id : String) : (Context.start n config id).Sound := by
  refine ⟨fun p hp => ?_, ?_, ?_, ?_⟩
  · rw [mem_singleton.1 hp]
    exact .of_empty rfl rfl rfl
  · simp [start]
  · simp [start]
  · simp [start]

theorem Program.Every.result {E : Expr → Prop} {V : Var → Prop} (h : c.root.Every E V) :
    c.result.program.Every E V := by
  rcases c.program_result with hp | hp
  · rw [hp]
    exact h
  · rw [hp]
    exact ⟨h.blocks, h.pending, h.subroutines⟩

namespace Convert

variable {lib : Library} {fuel : Nat} {r : Routine} {config : BuildConfig} {args : List Value}
  {s s' : State} {p : BuiltProgram}

end Convert

end QasmStudio

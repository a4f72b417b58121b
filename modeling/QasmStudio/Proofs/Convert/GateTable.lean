import QasmStudio.Proofs.Convert.Interpreter

/-!
# The table of gates

A gate is defined where it is called first, be that in the middle of another definition, and it enters
the table of the root when its body is over. By then every gate that its body applied is a native one or
has an entry: a definition that is given up takes no call with it, because the call is written only after
it. So the table is in the order of its dependencies, at every moment of a build.

`Context.Fills d c c'` is what a stretch of a build does to the table (`Writes.fills`): definitions are
added one at a time, each with a name of its own and with calls of what is there already, and the calls
that were written on the way have their entries at the end of it.
-/

namespace QasmStudio

open List

mutual
def Stmt.gateCalls : Stmt → List String
  | .gate name _ _ => [name]
  | .branch _ thn els => Stmt.allGateCalls thn ++ Stmt.allGateCalls els
  | .forIn _ _ body | .while _ body | .box body => Stmt.allGateCalls body
  | _ => []

def Stmt.allGateCalls : List Stmt → List String
  | [] => []
  | st :: sts => st.gateCalls ++ Stmt.allGateCalls sts
end

theorem Stmt.mem_allGateCalls {name : String} {sts : List Stmt} :
    name ∈ Stmt.allGateCalls sts ↔ ∃ st ∈ sts, name ∈ st.gateCalls := by
  induction sts with
  | nil => simp [Stmt.allGateCalls]
  | cons st sts ih => simp [Stmt.allGateCalls, ih]

/-- No name is defined twice, and what a definition applies is native or defined before it. -/
structure GateDef.InOrder (gs : List GateDef) : Prop where
  names : (gs.map (·.name)).Nodup
  before : ∀ (i : Nat) (g : GateDef), gs[i]? = some g → ∀ name ∈ Stmt.allGateCalls g.body,
    NativeGate.named? name = none → ∃ (j : Nat) (x : GateDef), j < i ∧ gs[j]? = some x ∧ x.name = name

theorem GateDef.InOrder.nil : GateDef.InOrder [] := ⟨nodup_nil, fun i g h => by simp at h⟩

/-- A definition that applies what there is goes to the end. -/
theorem GateDef.InOrder.append {gs : List GateDef} {g : GateDef} (h : GateDef.InOrder gs)
    (hnew : ∀ x ∈ gs, x.name ≠ g.name)
    (hbody : ∀ name ∈ Stmt.allGateCalls g.body, NativeGate.named? name = none → ∃ x ∈ gs, x.name = name) :
    GateDef.InOrder (gs ++ [g]) := by
  constructor
  · rw [map_append, nodup_append]
    refine ⟨h.names, by simp, ?_⟩
    simpa using hnew
  · intro i y hy name hname hnative
    by_cases hi : i < gs.length
    · rw [getElem?_append_left hi] at hy
      obtain ⟨j, x, hj, hx, hxn⟩ := h.before i y hy name hname hnative
      exact ⟨j, x, hj, by rw [getElem?_append_left (by omega), hx], hxn⟩
    · have hlast : i = gs.length := by
        obtain ⟨hlt, -⟩ := List.getElem?_eq_some_iff.1 hy
        simp only [length_append, length_singleton] at hlt
        omega
      subst hlast
      obtain rfl : g = y := by simpa using hy
      obtain ⟨x, hx, hxn⟩ := hbody name hname hnative
      obtain ⟨j, hj, rfl⟩ := mem_iff_getElem.1 hx
      exact ⟨j, gs[j], hj, by rw [getElem?_append_left hj, getElem?_eq_getElem hj], hxn⟩

/-! ### What a stretch does to the table -/

namespace Discipline
variable {d : Discipline} {gs gs' gs'' : List GateDef} {st : Stmt}

/-- If the statement is a call of a gate, then of one that needs no definition or has one. -/
def Covers (d : Discipline) (gs : List GateDef) : Stmt → Prop
  | .gate name _ _ => d.policy.native name ∨ ∃ x ∈ gs, x.name = name
  | _ => True

theorem Covers.mono (h : d.Covers gs st) (hsub : gs ⊆ gs') : d.Covers gs' st := by
  cases st with
  | gate name args qubits =>
    rcases h with h | ⟨x, hx, hn⟩
    · exact .inl h
    · exact .inr ⟨x, hsub hx, hn⟩
  | _ => trivial

theorem Emits.covers {c : Context} (h : d.Emits c st) : d.Covers c.root.gates st := by
  cases h with
  | gate hp hn ht ha hf => simpa [Covers, Applies, Program.hasGate] using hn
  | _ => trivial

/-- Definitions are added one at a time, with calls of what is there. -/
inductive Enlarges (d : Discipline) : List GateDef → List GateDef → Prop
  | refl {gs : List GateDef} : Enlarges d gs gs
  | define {gs gs' : List GateDef} {g : GateDef} (h : Enlarges d gs gs') (hd : d.policy.definesGate g)
      (hu : g.IsUnitary)
      (hn : ∀ x ∈ gs', x.name ≠ g.name) (hb : ∀ st ∈ g.body, d.Covers gs' st) :
      Enlarges d gs (gs' ++ [g])

theorem Enlarges.trans (h₁ : d.Enlarges gs gs') (h₂ : d.Enlarges gs' gs'') : d.Enlarges gs gs'' := by
  induction h₂ with
  | refl => exact h₁
  | define _ hd hu hn hb ih => exact .define ih hd hu hn hb

theorem Enlarges.exists_append (h : d.Enlarges gs gs') :
    ∃ new, gs' = gs ++ new ∧ ∀ g ∈ new, d.policy.definesGate g := by
  induction h with
  | refl => exact ⟨[], by simp⟩
  | @define _ g _ hd _ _ _ ih =>
    obtain ⟨new, rfl, hnew⟩ := ih
    refine ⟨new ++ [g], append_assoc .., fun x hx => ?_⟩
    rcases mem_append.1 hx with hx | hx
    · exact hnew x hx
    · exact mem_singleton.1 hx ▸ hd

theorem Enlarges.subset (h : d.Enlarges gs gs') : gs ⊆ gs' := by
  obtain ⟨new, rfl, -⟩ := h.exists_append
  exact subset_append_left gs new

theorem Enlarges.definesGate (h : d.Enlarges gs gs') (hgs : ∀ g ∈ gs, d.policy.definesGate g) :
    ∀ g ∈ gs', d.policy.definesGate g := by
  obtain ⟨new, rfl, hnew⟩ := h.exists_append
  exact fun x hx => (mem_append.1 hx).elim (hgs x) (hnew x)

theorem Enlarges.inOrder (hnative : ∀ name, d.policy.native name → NativeGate.named? name ≠ none)
    (h : d.Enlarges gs gs') (ho : GateDef.InOrder gs) : GateDef.InOrder gs' := by
  induction h with
  | refl => exact ho
  | define _ _ hu hn hb ih =>
    refine ih.append hn fun name hname hforeign => ?_
    obtain ⟨st, hst, hcall⟩ := Stmt.mem_allGateCalls.1 hname
    -- the statement is a call of a gate, because there is nothing else in a definition
    have hcalls := hu st hst
    have hcovers := hb st hst
    cases st with
    | gate gate args qubits =>
      obtain rfl : name = gate := by simpa [Stmt.gateCalls] using hcall
      rcases hcovers with h | h
      · exact absurd hforeign (hnative _ h)
      · exact h
    | _ => exact hcalls.elim

end Discipline

namespace Context
variable {d : Discipline} {c c' c₁ c₂ : Context} {f : Program → Program} {st : Stmt}

/-- Definitions are added to the table, and the calls written in the innermost block of the current
program have theirs. -/
structure Fills (d : Discipline) (c c' : Context) : Prop where
  current : c.current.Grows (d.Covers c'.root.gates) c'.current
  table : d.Enlarges c.root.gates c'.root.gates

namespace Fills

theorem trans (h₁ : c.Fills d c₁) (h₂ : c₁.Fills d c₂) : c.Fills d c₂ := by
  obtain ⟨⟨new, hnew, hblocks⟩, hkept⟩ := h₁.current
  have hlater : ∀ st ∈ new, d.Covers c₂.root.gates st := fun st hst => (hnew st hst).mono h₂.table.subset
  have hcurrent : c.current.Grows (d.Covers c₂.root.gates) c₁.current := ⟨⟨new, hlater, hblocks⟩, hkept⟩
  exact ⟨hcurrent.trans h₂.current, h₁.table.trans h₂.table⟩

theorem of_resumes (hr : c.current.Resumes c'.current) (ht : d.Enlarges c.root.gates c'.root.gates) :
    c.Fills d c' := ⟨hr.grows, ht⟩

theorem of_rests (hs : Forall₂ Program.Rests c.stack c'.stack)
    (ht : d.Enlarges c.root.gates c'.root.gates) : c.Fills d c' :=
  of_resumes (rests_current hs).toResumes ht

theorem of_eq (hc : c'.current = c.current) (hr : c'.root.gates = c.root.gates) : c.Fills d c' := by
  refine of_resumes ?_ ?_
  · rw [hc]
    exact (Program.Rests.refl _).toResumes
  · rw [hr]
    exact .refl

theorem updateCurrent (h : c.current.Grows (d.Covers c.root.gates) (f c.current))
    (hf : (f c.current).gates = c.current.gates) : c.Fills d (c.updateCurrent f) := by
  have hgates := gates_root_updateCurrent hf
  constructor
  · rw [current_updateCurrent, hgates]
    exact h
  · rw [hgates]
    exact .refl

theorem updateRoot (h : c.root.Rests (f c.root)) (hf : (f c.root).gates = c.root.gates) :
    c.Fills d (c.updateRoot f) := by
  refine of_rests (rests_updateRoot h) ?_
  show d.Enlarges c.root.gates (f c.root).gates
  rw [hf]
  exact .refl

theorem emit (h : c.Fills d c') (hst : d.Covers c'.root.gates st) : c.Fills d (c'.emit st) :=
  h.trans (updateCurrent (.add hst) rfl)

/-- A block that is over: the current program is as before, and the calls in the block have their
definitions. -/
theorem closeBlock (h : c.openBlock.Fills d c₁) :
    c.Fills d c₁.closeBlock ∧ c.current.Resumes c₁.closeBlock.current ∧
      ∀ st ∈ c₁.captured, d.Covers c₁.closeBlock.root.gates st := by
  have hgates : c₁.closeBlock.root.gates = c₁.root.gates := gates_root_updateCurrent rfl
  have hcurrent := h.current
  have htable := h.table
  rw [openBlock, current_updateCurrent] at hcurrent
  rw [openBlock, gates_root_updateCurrent rfl] at htable
  obtain ⟨hresumes, hcaptured⟩ := hcurrent.closeBlock
  have hback : c.current.Resumes c₁.closeBlock.current := by
    rw [Context.closeBlock, current_updateCurrent]
    exact hresumes
  refine ⟨of_resumes hback (hgates ▸ htable), hback, ?_⟩
  rw [hgates]
  exact hcaptured

end Fills

end Context

theorem Acts.fills {d : Discipline} {c c' : Context} (h : Acts d c c') : c.Fills d c' := by
  induction h with
  | refl | register | fresh | returned | pulse => exact .of_eq rfl rfl
  | trans _ _ ih₁ ih₂ => exact ih₁.trans ih₂
  | emit h => exact (Context.Fills.of_eq rfl rfl).emit h.covers
  | declare hp hv h => exact .updateCurrent (.declare? trivial h) (Program.gates_declare? h)
  | pend hp hn hi =>
    refine .updateCurrent (Program.Resumes.grows ⟨?_, .addPending _ _⟩) Program.gates_addPending
    unfold Program.addPending
    split <;> rfl
  | mark hp hn => exact .updateCurrent (Program.Resumes.grows ⟨rfl, .markDeclared _ _⟩) rfl
  | announce h => exact .updateRoot (.enablePulse _) rfl
  | stub hp h => exact .updateCurrent (Program.Resumes.grows ⟨rfl, .addSubroutine _ _⟩) rfl

theorem Writes.fills {d : Discipline} {c c' : Context} (h : Writes d c c') : c.Fills d c' := by
  induction h with
  | acts h => exact h.fills
  | trans _ _ ih₁ ih₂ => exact ih₁.trans ih₂
  | drop _ ih => exact ih.closeBlock.1
  | branch hp he _ _ ih₁ ih₂ => exact (ih₁.closeBlock.1.trans ih₂.closeBlock.1).emit trivial
  | forIn hp hn hv he _ ih => exact ih.closeBlock.1.emit trivial
  | «while» hp he _ ih => exact ih.closeBlock.1.emit trivial
  | abandon hp hv _ ih => exact ⟨ih.closeBlock.1.current, ih.closeBlock.1.table⟩
  | @verbatim c c₁ hp hv _ ih =>
    have hpragma : c.enterVerbatim.Fills d (c₁.closeBlock.emit (.pragma "braket verbatim")) :=
      ih.closeBlock.1.emit trivial
    have hbox : c.enterVerbatim.Fills d
        ((c₁.closeBlock.emit (.pragma "braket verbatim")).emit (.box c₁.captured)) := hpragma.emit trivial
    exact ⟨hbox.current, hbox.table⟩
  -- what was written to a program that has been left is gone, but its gates are in the table
  | program _ hw ih => exact .of_rests (Context.Advance.rests_leaveProgram hw.advance.below) ih.table
  | failed hb _ hw ih | known hb hw _ ih =>
    exact .of_rests (Context.Advance.rests_leaveProgram hw.advance.below) ih.table
  | @subroutine c c₁ key r stub hb hw _ hm ih =>
    have hleft : c.Fills d (c₁.leaveRoutine key) :=
      .of_rests (Context.Advance.rests_leaveProgram hw.advance.below) ih.table
    exact hleft.trans (.updateRoot (.addSubroutine _ _) rfl)
  | scope ho hr _ ih | calibration hr _ ih => exact .of_resumes ih.closeBlock.2.1 ih.closeBlock.1.table
  | @gate c c₁ r ho hr hw hd hm ih =>
    let g : GateDef := ⟨r.name, GateParam.angles r.params, GateParam.qubits r.params, c₁.captured⟩
    obtain ⟨hblock, hback, hcovers⟩ := ih.closeBlock
    have hrests : c₁.closeBlock.root.Rests (c₁.closeBlock.root.addGate g) := .addGate hm
    have hnew : ∀ x ∈ c₁.closeBlock.root.gates, x.name ≠ g.name := by
      simpa [Program.hasGate] using hm
    have hresumes : c₁.closeBlock.current.Resumes (c₁.closeBlock.updateRoot (·.addGate g)).current :=
      (Context.rests_current (Context.rests_updateRoot hrests)).toResumes
    refine .of_resumes (hback.trans hresumes) ?_
    show d.Enlarges c.root.gates (c₁.closeBlock.root.addGate g).gates
    rw [Program.gates_addGate hm]
    exact .define hblock.table hd hw.advance.closeBlock.2.2 hnew hcovers

theorem Enters.gates_root {d : Discipline} {c c' : Context} (h : Enters d c c') : c'.root.gates = c.root.gates := by
  cases h with
  | block => exact Context.gates_root_updateCurrent rfl
  | _ => rfl

/-! ### Builds -/

def Action.native? : Action → Option NativeGate
  | .gate g _ => some g
  | _ => none

namespace Convert

/-- Without a definition only native gates are applied. -/
def nativePolicy : Policy where
  native name := NativeGate.named? name ≠ none
  lost := Policy.lost_default

theorem allows_nativePolicy {lib : Library} {runs : Nat → Runner} {e : Stop} {he : ∀ x, Stop.error x ≠ e}
    {o : Option Step} {t : State} (h : ∀ st ∈ o, ∀ g ∈ st.action.native?, g ∈ NativeGate.all) :
    Allows (nativePolicy.excusing (fun _ => trivial) e he).discipline lib runs o t := by
  refine allows_of_within ?_
  rintro ⟨action, target, guarded, handle⟩ hst
  have hnative := h _ hst
  cases action with
  | gate g os =>
    intro hnone
    have hmem := hnative g rfl
    have hdiff := find?_eq_none.1 hnone g hmem
    simp at hdiff
  | gateDef n params body => exact fun _ _ => trivial
  | leaveRoutine o => exact fun _ _ _ _ _ => .inl trivial
  | _ => trivial

/-- If the native gates that the steps of a build apply are those that there are, then at every moment of
it, and in its result, the gates are defined in the order of their dependencies. -/
theorem gates_in_order {lib : Library} {fuel : Nat} {r : Routine} {config : BuildConfig} {args : List Value}
    {s : State}
    (hnative : Throughout lib fuel (fun o _ => ∀ st ∈ o, ∀ g ∈ st.action.native?, g ∈ NativeGate.all)
      (buildProgram · r config args) s)
    (hfinished : GateDef.InOrder s.finished.root.gates) :
    Throughout lib fuel
      (fun _ t => GateDef.InOrder t.ctx.root.gates ∧ GateDef.InOrder t.finished.root.gates)
      (buildProgram · r config args) s ∧
    ∀ p s', buildProgram (run lib fuel) r config args s = (.ok p, s') → GateDef.InOrder p.program.gates := by
  constructor
  · have hquiet : ∀ (e : Stop) (he : ∀ x, Stop.error x ≠ e) (c : Context), GateDef.InOrder c.root.gates →
        Quiet (nativePolicy.excusing (fun _ => trivial) e he).discipline
          (fun c => GateDef.InOrder c.root.gates) c := by
      intro e he c hc
      refine .of_preserved (fun ho hw => ?_) (fun ho henter => ?_) hc
      · exact hw.fills.table.inOrder (fun _ hn => hn) ho
      · rw [henter.gates_root]
        exact ho
    refine (hnative.upheld_finished (π := nativePolicy) (A := fun c => GateDef.InOrder c.root.gates)
      (B := fun c => GateDef.InOrder c.root.gates) (fun _ _ _ _ => trivial) (fun _ _ _ _ _ _ _ _ _ => trivial)
      (fun _ => trivial) (fun e he n config id => hquiet e he _ .nil) (fun e he => hquiet e he _ hfinished)
      fun e he o t ho => allows_nativePolicy ho).mono ?_
    rintro o t ⟨-, hctx, hfin⟩
    exact ⟨hctx, hfin⟩
  · intro p s' hp
    obtain ⟨t, u, hw, hdecl, rfl⟩ := hnative.writes
      (π := nativePolicy.excusing (fun _ => trivial) .exhausted error_ne_exhausted) (fun _ _ _ _ => trivial)
      (fun _ _ _ _ _ _ _ _ _ => trivial) rfl (fun o t ho => allows_nativePolicy ho) hp
    rw [gates_result hdecl]
    exact hw.fills.table.inOrder (fun _ hn => hn) .nil

/-- A gate that applies itself, which is refused and caught, and then another one. -/
def echoLibrary : Library :=
  .ofRoutines
    [.gate "echo" [⟨"a", some (.qubit 0)⟩, ⟨"b", some (.qubit 0)⟩]
      [.mk (.call "echo" [.arg 1, .arg 0]) none true .own, .mk (.call "flip" [.arg 1]) none false .own],
     .gate "flip" [⟨"a", some (.qubit 0)⟩] [.mk (.gate ⟨"x", 1, 0⟩ [.arg 0]) none false .own]]

def echoMain : Routine :=
  .main "main" [.mk (.call "echo" [.const (.int .word 0), .const (.int .word 1)]) none false .own] []

theorem gates_in_order_echo :
    Throughout echoLibrary 4
      (fun _ t => GateDef.InOrder t.ctx.root.gates ∧ GateDef.InOrder t.finished.root.gates)
      (buildProgram · echoMain {} []) {} ∧
    ∃ p s', buildProgram (run echoLibrary 4) echoMain {} [] {} = (.ok p, s') ∧
      p.program.gates.map (fun g => (g.name, Stmt.allGateCalls g.body)) =
        [("flip", ["x"]), ("echo", ["flip"])] ∧
      GateDef.InOrder p.program.gates := by
  have hnative : Throughout echoLibrary 4
      (fun o _ => ∀ st ∈ o, ∀ g ∈ st.action.native?, g ∈ NativeGate.all)
      (buildProgram · echoMain {} []) {} := throughout_of_check (by decide +kernel)
  obtain ⟨horder, hresult⟩ := gates_in_order hnative .nil
  have hends : (buildProgram (run echoLibrary 4) echoMain {} [] {}).1.toOption.map
      (fun p => p.program.gates.map fun g => (g.name, Stmt.allGateCalls g.body)) =
      some [("flip", ["x"]), ("echo", ["flip"])] := by decide +kernel
  obtain ⟨p, s', hp, hgates⟩ := exists_of_toOption hends
  exact ⟨horder, p, s', hp, hgates, hresult p s' hp⟩

end Convert

end QasmStudio

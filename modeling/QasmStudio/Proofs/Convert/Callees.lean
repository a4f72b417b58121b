import QasmStudio.Proofs.Convert.Everywhere
import QasmStudio.Proofs.Convert.Interpreter

/-!
# Calls and the definitions they need

A call of a routine that is still in conversion is written before the routine has a definition. If the
conversion then fails, the definition never comes, and what other routines have written in the meantime
stays. So a program can call a subroutine that it does not define (`undefined_callee`), but only one
whose call has failed somewhere in the build (`callee_defined`): as long as calls of a name do not fail,
whatever calls it is written in contexts that know it, as defined or in conversion, and no context
forgets it. At the end of a build nothing is in conversion.
-/

namespace QasmStudio

/-! ### The subroutines that a program calls -/

/-- The subroutine whose call the variable is initialised with, if it is. -/
def Var.callees (v : Var) : List String := (v.init.bind Expr.callee?).toList

namespace Stmt

mutual
/-- The subroutines that are called in a statement of their own, or to initialise a variable. -/
def callees : Stmt → List String
  | .declare v => v.callees
  | .eval e => e.callee?.toList
  | .branch _ thn els => allCallees thn ++ allCallees els
  | .forIn _ _ body | .while _ body | .box body => allCallees body
  | _ => []

def allCallees : List Stmt → List String
  | [] => []
  | st :: sts => st.callees ++ allCallees sts
end

/-- The statement does not call the subroutine. -/
def Silent (n : String) (st : Stmt) : Prop := n ∉ st.callees

theorem silent_all {n : String} {sts : List Stmt} : (∀ st ∈ sts, st.Silent n) ↔ n ∉ allCallees sts := by
  induction sts with
  | nil => simp [allCallees]
  | cons st sts ih => simp [allCallees, Silent, ← ih]

end Stmt

namespace Program
variable {n : String}

/-- The subroutines that are called in the body and in the definitions of subroutines. -/
def callees (p : Program) : List String :=
  Stmt.allCallees p.body ++ p.subroutines.flatMap fun x => Stmt.allCallees x.body

theorem not_mem_callees {p : Program} (h : p.All (Stmt.Silent n)) : n ∉ p.callees := by
  intro hn
  rcases List.mem_append.1 hn with hn | hn
  · exact Stmt.silent_all.1 h.body hn
  · obtain ⟨x, hx, hn⟩ := List.mem_flatMap.1 hn
    exact Stmt.silent_all.1 (h.subroutines x hx) hn

end Program

/-! ### Contexts that know what is called -/

namespace Discipline
variable {d : Discipline} {n : String} {c : Context} {st : Stmt}

theorem Knows.updateCurrent {f : Program → Program} (h : d.Knows c n) (hf : c.current.Kept (f c.current)) :
    d.Knows (c.updateCurrent f) n := by
  rcases h with h | h
  · left
    unfold Context.updateCurrent
    unfold Context.current at hf
    cases hi : c.inner with
    | nil =>
      rw [hi] at hf
      exact hf.hasSubroutine h
    | cons p ps => exact h
  · exact .inr h

theorem Knows.openBlock (h : d.Knows c n) : d.Knows c.openBlock n := h.updateCurrent (.openBlock _)

theorem Knows.closeBlock (h : d.Knows c n) : d.Knows c.closeBlock n := h.updateCurrent (.closeBlock _)

theorem Knows.emit (h : d.Knows c n) (st : Stmt) : d.Knows (c.emit st) n := h.updateCurrent (.add _ _)

/-- When a routine is no longer in conversion, it may be the only one that is not known any more. -/
theorem Knows.leaveRoutine {key : Nat} {r : Routine} (hr : d.policy.routine key r)
    (hu : ∀ {r'}, d.policy.routine key r' → r' = r) (h : d.Knows c n) :
    r.name = n ∨ d.Knows (c.leaveRoutine key) n := by
  rcases h with h | ⟨key', stub, r', hmem, hr', hname⟩
  · exact .inr (.inl h)
  · by_cases hkey : key' = key
    · subst hkey
      exact .inl (hu hr' ▸ hname)
    · exact .inr (.inr ⟨key', stub, r', List.mem_filter.2 ⟨hmem, by simpa using hkey⟩, hr', hname⟩)

theorem Emits.knows (h : d.Emits c st) (hpulse : n ∉ pulseCalls) (hn : n ∈ st.callees) : d.Knows c n := by
  cases h with
  | call hp hk ha =>
    simp only [Stmt.callees, Expr.callee?, Option.toList_some, List.mem_singleton] at hn
    exact hn ▸ hk
  | pulse hp hname he =>
    simp only [Stmt.callees, Expr.callee?, Option.toList_some, List.mem_singleton] at hn
    exact absurd (hn ▸ hname) hpulse
  | _ =>
    rw [Stmt.callees] at hn
    · cases hn
    all_goals nofun

theorem Declares.knows {v : Var} (h : d.Declares c v) (hhand : ¬ d.policy.callee n) (hn : n ∈ v.callees) :
    d.Knows c n := by
  cases h with
  | measured | zeros => cases hn
  | result hname hk ha =>
    simp only [Var.callees, Option.bind_some, Expr.callee?, Option.toList_some, List.mem_singleton] at hn
    exact hn ▸ hk
  | assigned hname hc hl he hg => exact absurd (hg n (by simpa [Var.callees] using hn)) hhand

end Discipline

/-- Nothing but calls of routines names the subroutine, and those do not fail. -/
structure Policy.Answers (π : Policy) (n : String) : Prop where
  unique : ∀ {key r r'}, π.routine key r → π.routine key r' → r = r'
  byHand : ¬ π.callee n
  fails : ¬ π.fails n
  pulse : n ∉ Discipline.pulseCalls

section silent
variable {d : Discipline} {n : String} {c c' : Context}

theorem Acts.silent (hd : d.policy.Answers n) (h : Acts d c c') (hk : ¬ d.Knows c' n)
    (hc : c.All (Stmt.Silent n)) : c'.All (Stmt.Silent n) := by
  induction h with
  | refl => exact hc
  | trans _ h₂ ih₁ ih₂ => exact ih₂ hk (ih₁ (fun h => hk (h.mono h₂.advance)) hc)
  | register | fresh | returned | pulse => exact hc
  | emit h => exact hc.emit fun hn => hk ((h.knows hd.pulse hn).mono (Acts.emit h).advance)
  | declare hp hv h =>
    refine hc.updateCurrent (hc.current.declare? (fun hn => ?_) h)
    rw [Stmt.callees] at hn
    exact hk ((hv.knows hd.byHand hn).mono (Acts.declare hp hv h).advance)
  | pend hp hn hi =>
    refine hc.updateCurrent (hc.current.addPending fun hn => ?_)
    simp only [Stmt.callees, Var.callees, Option.mem_toList, Option.bind_eq_some_iff] at hn
    obtain ⟨e, he, hcallee⟩ := hn
    exact hd.byHand ((hi e he).2 n hcallee)
  | mark hp hn => exact hc.updateCurrent (hc.current.markDeclared _)
  | announce h => exact hc.updateRoot hc.root.enablePulse
  | stub hp h =>
    refine hc.updateCurrent (hc.current.addSubroutine (Stmt.silent_all.2 ?_))
    unfold Stub.definition
    split <;> simp [Stmt.allCallees, Stmt.callees]

/-- As long as a stretch of a build does not come to know the subroutine, it does not call it. -/
theorem Writes.silent (hd : d.policy.Answers n) (h : Writes d c c') (hk : ¬ d.Knows c' n)
    (hc : c.All (Stmt.Silent n)) : c'.All (Stmt.Silent n) := by
  -- a context that does not know the subroutine comes from contexts that do not
  induction h with
  | acts h => exact h.silent hd hk hc
  | trans _ h₂ ih₁ ih₂ => exact ih₂ hk (ih₁ (fun h => hk (h.mono h₂.advance)) hc)
  | drop _ ih => exact (ih (fun h => hk h.closeBlock) hc.openBlock).closeBlock
  | branch hp he _ h₂ ih₁ ih₂ =>
    have hk₂ : ¬ d.Knows _ n := fun h => hk (h.closeBlock.emit _)
    have hc₁ := ih₁ (fun h => hk₂ (h.closeBlock.openBlock.mono h₂.advance)) hc.openBlock
    have hc₂ := ih₂ hk₂ hc₁.closeBlock.openBlock
    refine hc₂.closeBlock.emit fun hn => ?_
    rw [Stmt.callees] at hn
    exact (List.mem_append.1 hn).elim (Stmt.silent_all.1 hc₁.captured) (Stmt.silent_all.1 hc₂.captured)
  | forIn hp hn hv he _ ih | «while» hp he _ ih =>
    have hc₁ := ih (fun h => hk (h.closeBlock.emit _)) hc.openBlock
    refine hc₁.closeBlock.emit ?_
    rw [Stmt.Silent, Stmt.callees]
    exact Stmt.silent_all.1 hc₁.captured
  | abandon hp hv _ ih =>
    exact (ih (fun h => hk h.closeBlock) (Context.All.openBlock hc)).closeBlock
  | @verbatim c c₁ hp hv _ ih =>
    have hc₁ := ih (fun h => hk ((h.closeBlock.emit _).emit _)) (Context.All.openBlock hc)
    have hpragma : (c₁.closeBlock.emit (.pragma "braket verbatim")).All (Stmt.Silent n) :=
      hc₁.closeBlock.emit (by simp [Stmt.Silent, Stmt.callees])
    refine hpragma.emit ?_
    rw [Stmt.Silent, Stmt.callees]
    exact Stmt.silent_all.1 hc₁.captured
  | program hb _ ih => exact (ih hk (hc.enterProgram (.of_empty rfl rfl rfl))).leaveProgram
  | failed hb hf _ ih =>
    refine (ih (fun h => ?_) (hc.enterRoutine _ _ _)).leaveRoutine _
    rcases h.leaveRoutine hb.routine (fun hr' => hd.unique hr' hb.routine) with rfl | h
    · exact hd.fails hf
    · exact hk h
  | known hb _ hm ih =>
    refine (ih (fun h => ?_) (hc.enterRoutine _ _ _)).leaveRoutine _
    rcases h.leaveRoutine hb.routine (fun hr' => hd.unique hr' hb.routine) with rfl | h
    · exact hk (.inl hm)
    · exact hk h
  | @subroutine c c₁ key r stub hb _ hdef hm ih =>
    have hc₁ := ih (fun h => ?_) (hc.enterRoutine _ _ _)
    · have hleft := hc₁.leaveRoutine key
      exact Context.All.updateRoot hleft (hleft.root.addSubroutine hc₁.current.body)
    · rcases h.leaveRoutine hb.routine (fun hr' => hd.unique hr' hb.routine) with rfl | h
      · exact hk (.inl (Program.hasSubroutine_addSubroutine _ _))
      · exact hk (h.mono (.updateRoot (.addSubroutine _ _) ⟨[], by simp [Program.addSubroutine], by simp⟩))
  | scope ho hr _ ih | calibration hr _ ih =>
    exact (ih (fun h => hk h.closeBlock) (Context.All.openBlock hc)).closeBlock
  | gate ho hr _ _ hm ih =>
    have hc₁ := (ih (fun h => hk h.closeBlock) (Context.All.openBlock hc)).closeBlock
    refine Context.All.updateRoot (f := (·.addGate _)) hc₁ ?_
    exact hc₁.root.addGate _

end silent

namespace Convert
variable {lib : Library} {n : String}

/-- The step is a call of a routine of that name, and it fails. -/
def FailsCall (lib : Library) (n : String) (st : Step) (t : State) : Prop :=
  ∃ fuel id os key q e, st.action = .call id os ∧ lib.find? id = some (key, q) ∧ q.name = n ∧
    (perform (run lib fuel) lib fuel st.handle st.action t).1 = .error (.error e)

/-- The step initialises a variable with a call of that name which is made by hand. -/
def MakesCall (n : String) (st : Step) (t : State) : Prop :=
  ∃ o ∈ st.action.initials, ∃ v e, o.eval t.bindings = .ok v ∧ v.toExpr = .ok e ∧ e.callee? = some n

/-- Routines come from the library, and calls of the given name neither fail nor are made by hand. -/
def calleePolicy (lib : Library) (n : String) : Policy where
  routine := lib.Holds
  callee := (· ≠ n)
  fails := (· ≠ n)
  excuses e := ∀ x, e ≠ .error x
  caught e h := h e rfl
  lost := .inr fun _ he => he

theorem answers_calleePolicy (hn : n ∉ Discipline.pulseCalls) : (calleePolicy lib n).Answers n :=
  ⟨fun h h' => h.unique h', fun h => h rfl, fun h => h rfl, hn⟩

theorem allows_calleePolicy {o : Option Step} {t : State}
    (h : ∀ st, o = some st → ¬ FailsCall lib n st t ∧ ¬ MakesCall n st t) :
    Allows (calleePolicy lib n).discipline lib (run lib) o t := by
  refine ⟨⟨trivial, trivial⟩, fun st hst => ?_, fun st hst fuel id os key q e hact hq hr hname => ?_,
    fun _ _ => .of_forall, fun _ _ _ _ => trivial⟩
  · refine obeys_discipline _ lib _ _ (fun x hx v e hv he name hcallee => ?_) fun _ => trivial
    rintro rfl
    exact (h st hst).2 ⟨x, hx, v, e, hv, he, hcallee⟩
  · exact (h st hst).1 ⟨fuel, id, os, key, q, e, hact, hq, hname, hr⟩

theorem silent_result {t u : State} (h : declareRegister t = (.ok (), u))
    (ht : t.ctx.root.All (Stmt.Silent n)) : u.ctx.result.program.All (Stmt.Silent n) := by
  have hu : u.ctx.root.All (Stmt.Silent n) := by
    rcases declareRegister_ok h with ⟨-, -, rfl⟩ | ⟨-, -, rfl⟩
    · exact ht
    · exact (ht.markDeclared _).prepend (by simp [Stmt.Silent, Stmt.callees, Var.callees, registerVar])
  rcases u.ctx.program_result with hp | hp
  · rwa [hp]
  · rw [hp]
    exact hu.enablePulse

/-- If no call of a name fails throughout a build, and none is made by hand, then a program that calls it
defines it, unless it is that of an operation on frames. -/
theorem callee_defined {fuel : Nat} {r : Routine} {config : BuildConfig} {args : List Value} {s s' : State}
    {p : BuiltProgram}
    (h : Throughout lib fuel (fun o t => ∀ st, o = some st → ¬ FailsCall lib n st t ∧ ¬ MakesCall n st t)
      (buildProgram · r config args) s)
    (hp : buildProgram (run lib fuel) r config args s = (.ok p, s')) (hn : n ∈ p.program.callees) :
    p.program.hasSubroutine n = true ∨ n ∈ Discipline.pulseCalls := by
  by_cases hpulse : n ∈ Discipline.pulseCalls
  · exact .inr hpulse
  left
  obtain ⟨t, u, hw, hdecl, rfl⟩ := h.writes (π := calleePolicy lib n) (e := .exhausted)
    (fun _ _ _ hr => Library.holds_of_find? hr) (fun _ _ _ _ _ _ _ _ _ => trivial) nofun
    (fun _ _ ho => allows_calleePolicy ho) hp
  have hknows : (calleePolicy lib n).discipline.Knows t.ctx n := by
    by_contra hk
    have hsilent := hw.silent (answers_calleePolicy hpulse) hk (Context.all_start _ _ _)
    exact Program.not_mem_callees (silent_result hdecl hsilent.root) hn
  rcases hknows with hroot | ⟨key, stub, q, hmem, -⟩
  · rwa [Program.hasSubroutine_iff, subroutines_result hdecl, ← Program.hasSubroutine_iff]
  · rw [hw.advance.converting] at hmem
    cases hmem

/-- A call that succeeds within some bound does not fail within another. -/
theorem not_failsCall {fuel : Nat} {st : Step} {t : State}
    (h : (perform (run lib fuel) lib fuel st.handle st.action t).1.isOk = true) : ¬ FailsCall lib n st t := by
  rintro ⟨fuel', id, os, key, q, e, -, -, -, herr⟩
  exact perform_ne_error h fuel' e herr

/-- Two subroutines that call each other; the first one goes on with some more steps. -/
def seesaw (rest : List Step) : Library :=
  .ofRoutines
    [.subroutine "up" [] none (.mk (.call "down" []) none false .own :: rest) (.const .none),
     .subroutine "down" [] none [.mk (.call "up" []) none false .own] (.const .none)]

def seesawMain : Routine := .main "main" [.mk (.call "up" []) none true .own] []

def succeeds (lib : Library) (fuel : Nat) : Option Step → State → Bool
  | none, _ => true
  | some st, t =>
    (perform (run lib fuel) lib fuel st.handle st.action t).1.isOk && st.action.initials.isEmpty

theorem callee_defined_seesaw :
    Throughout (seesaw []) 4
      (fun o t => ∀ st, o = some st → ¬ FailsCall (seesaw []) "up" st t ∧ ¬ MakesCall "up" st t)
      (buildProgram · seesawMain {} []) {} ∧
    ∃ p s', buildProgram (run (seesaw []) 4) seesawMain {} [] {} = (.ok p, s') ∧
      "up" ∈ p.program.callees ∧
      (p.program.hasSubroutine "up" = true ∨ "up" ∈ Discipline.pulseCalls) := by
  have hsteps : Throughout (seesaw []) 4
      (fun o t => ∀ st, o = some st → ¬ FailsCall (seesaw []) "up" st t ∧ ¬ MakesCall "up" st t)
      (buildProgram · seesawMain {} []) {} := by
    refine (throughout_of_stopUnless (M := succeeds (seesaw []) 5) ?_).mono fun o t ho st hst => ?_
    · have hok : (buildProgram (observed (stopUnless (succeeds (seesaw []) 5)) (seesaw []) 4)
          seesawMain {} [] {}).1.isOk = true := by decide +kernel
      intro heq
      rw [heq] at hok
      cases hok
    · subst hst
      obtain ⟨hok, hnone⟩ := Bool.and_eq_true_iff.1 ho
      refine ⟨not_failsCall hok, ?_⟩
      rintro ⟨x, hx, -⟩
      rw [List.isEmpty_iff.1 hnone] at hx
      cases hx
  have hcallees : (buildProgram (run (seesaw []) 4) seesawMain {} [] {}).1.toOption.map
      (·.program.callees) = some ["up", "up", "down"] := by decide +kernel
  obtain ⟨p, s', hp, heq⟩ := exists_of_toOption hcallees
  have hmem : "up" ∈ p.program.callees := heq ▸ List.mem_cons_self ..
  exact ⟨hsteps, p, s', hp, hmem, callee_defined hsteps hp hmem⟩

/-- The first subroutine fails after the second one, which calls it, has been converted. -/
theorem undefined_callee :
    ∃ p s', buildProgram (run (seesaw [.mk (.fail "boom") none false .own]) 4) seesawMain {} [] {} =
        (.ok p, s') ∧
      "up" ∈ p.program.callees ∧ p.program.hasSubroutine "up" = false := by
  have hbuild : (buildProgram (run (seesaw [.mk (.fail "boom") none false .own]) 4) seesawMain {} []
      {}).1.toOption.map (fun p => (p.program.callees, p.program.hasSubroutine "up")) =
      some (["up"], false) := by decide +kernel
  obtain ⟨p, s', hp, heq⟩ := exists_of_toOption hbuild
  have hcallees : p.program.callees = ["up"] := (Prod.ext_iff.1 heq).1
  exact ⟨p, s', hp, hcallees ▸ List.mem_cons_self .., (Prod.ext_iff.1 heq).2⟩

end Convert

end QasmStudio

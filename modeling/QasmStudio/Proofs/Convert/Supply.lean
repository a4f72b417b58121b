import QasmStudio.Proofs.Convert.Pairing

/-!
# Definitions on demand

A call in the middle of a build first sees to it that there is a definition, and then writes. What it does
for the definition is beside the point for its caller: a placeholder or a definition is added to a table, or
the body of a routine is converted in a program of its own, or that of a gate in a block of its own that is
closed again. No statement and no variable of the programs that were there has changed after it, and no name
that was generated before it is generated again (`aside_of_supplied`, `aside_of_defineGateRoutine`).

While a routine is in conversion its name is not defined, unless another routine has the same name
(`Writes.lacks`).
-/

namespace QasmStudio

open Context

variable {d : Discipline}

section writes
variable {c c' : Context}

theorem Writes.nextVar_le (h : Writes d c c') (hπ : d.policy.Counts) : c.nextVar ≤ c'.nextVar := by
  have hle : ∀ {xs ys : List String}, Gives d.policy xs ys → Word.wrap xs.length ≤ Word.wrap ys.length := by
    intro xs ys hgives
    induction hgives with
    | refl => exact Int.le_refl _
    | @next given kind stem _ _ hn ih =>
      refine Int.le_trans ih (Int.le_trans ?_ (Int.le_of_eq (Word.wrap_succ _).symm))
      rw [Word.add_one (hπ _ hn)]
      omega
  exact hle h.gives

/-- The variables that are declared, and those that are put off. -/
def Program.variables (p : Program) : List Var × List Var := (p.declared, p.pending)

theorem Program.Rests.variables {p q : Program} (h : p.Rests q) : q.variables = p.variables :=
  Prod.ext h.declared h.pending

theorem Context.not_permits_classical (hg : c.gates ≠ []) : ¬ c.Permits .classical := fun hp =>
  hg (outside_of_permits hp).1

/-- Inside of a gate definition no variable is declared, and none is put off. -/
theorem Acts.variables (h : Acts d c c') (hg : c.gates ≠ []) : c'.current.variables = c.current.variables := by
  induction h with
  | refl | register | returned | pulse | fresh => rfl
  | trans h₁ _ ih₁ ih₂ => exact (ih₂ (by rwa [h₁.advance.gates])).trans (ih₁ hg)
  | emit =>
    rw [Context.emit, current_updateCurrent]
    rfl
  | announce => exact (rests_current (rests_updateRoot (.enablePulse _))).variables
  | declare hp | pend hp | mark hp | stub hp => exact absurd hp (not_permits_classical hg)

theorem Context.variables_closeBlock (h : c'.current.variables = c.openBlock.current.variables) :
    c'.closeBlock.current.variables = c.current.variables := by
  simpa only [openBlock, closeBlock, current_updateCurrent, Program.openBlock, Program.closeBlock,
    Program.variables] using h

theorem Writes.variables (h : Writes d c c') (hg : c.gates ≠ []) : c'.current.variables = c.current.variables := by
  induction h with
  | acts h => exact h.variables hg
  | trans h₁ _ ih₁ ih₂ => exact (ih₂ (by rwa [h₁.advance.gates])).trans (ih₁ hg)
  | branch hp | forIn hp | «while» hp | abandon hp | verbatim hp => exact absurd hp (not_permits_classical hg)
  | failed hb | known hb | subroutine hb => exact absurd hb.permits (not_permits_classical hg)
  | program _ h => exact (rests_current (Context.Advance.rests_leaveProgram h.advance.below)).variables
  | @drop c c₁ h ih => exact variables_closeBlock (ih hg)
  | @scope c c₁ r ho hr _ ih =>
    exact variables_closeBlock (c := c.enterGate r) (ih (List.cons_ne_nil r c.gates))
  | @gate c c₁ r ho hr _ _ hm ih =>
    have hin := variables_closeBlock (c := c.enterGate r) (ih (List.cons_ne_nil r c.gates))
    exact (rests_current (rests_updateRoot (f := (·.addGate _)) (.addGate hm))).variables.trans hin
  | @calibration c c₁ r hr _ ih =>
    exact variables_closeBlock (c := c.enterCalibration r) (ih hg)

end writes

/-- The routine is in conversion, on top of the root, and the root does not define the name. -/
structure Context.Lacks (key : Nat) (name : String) (c : Context) : Prop where
  inner : c.inner ≠ []
  stub : c.converting.lookup key ≠ none
  missing : ∀ x ∈ c.root.subroutines, x.name ≠ name

section lacks
variable {c c' : Context} {key : Nat} {name : String}

namespace Context.Lacks

theorem of_eq (h : c.Lacks key name) (hi : c'.inner = c.inner) (hc : c'.converting = c.converting)
    (hr : c'.root.subroutines = c.root.subroutines) : c'.Lacks key name := by
  refine ⟨by rw [hi]; exact h.inner, by rw [hc]; exact h.stub, ?_⟩
  rw [hr]
  exact h.missing

theorem updateCurrent (h : c.Lacks key name) (f : Program → Program) : (c.updateCurrent f).Lacks key name := by
  have hin := h.inner
  cases hi : c.inner with
  | nil => exact absurd hi hin
  | cons p ps =>
    unfold Context.updateCurrent
    rw [hi]
    exact ⟨nofun, h.stub, h.missing⟩

theorem back {c₁ : Context} (h : c.Lacks key name) (ha : c.Advance c') (h₁ : c₁.Lacks key name)
    (hr : c'.root = c₁.root) : c'.Lacks key name := by
  refine ⟨?_, by rw [ha.converting]; exact h.stub, by rw [hr]; exact h₁.missing⟩
  have hsize := ha.stackSize
  unfold Context.stackSize at hsize
  rw [← List.length_pos_iff, Nat.succ.inj hsize, List.length_pos_iff]
  exact h.inner

theorem enterRoutine {k : Nat} {stub : Stub} {p : Program} (h : c.Lacks key name) :
    (c.enterRoutine k stub p).Lacks key name := by
  refine ⟨List.cons_ne_nil _ _, ?_, h.missing⟩
  rw [Context.enterRoutine, List.lookup_cons]
  split
  · exact Option.some_ne_none _
  · exact h.stub

theorem hasSubroutine (h : c.Lacks key name) : c.root.hasSubroutine name = false := by
  rw [Bool.eq_false_iff]
  intro hthere
  obtain ⟨x, hx, hname⟩ := List.mem_map.1 (Program.hasSubroutine_iff.1 hthere)
  exact h.missing x hx hname

end Context.Lacks

theorem Context.lacks_enterRoutine {stub : Stub} {p : Program} (h : c.root.hasSubroutine name = false) :
    (c.enterRoutine key stub p).Lacks key name := by
  refine ⟨List.cons_ne_nil _ _, ?_, fun x hx hname => ?_⟩
  · rw [Context.enterRoutine, List.lookup_cons_self]
    exact Option.some_ne_none _
  · have hthere : c.root.hasSubroutine name = true := Program.hasSubroutine_iff.2 (List.mem_map.2 ⟨x, hx, hname⟩)
    rw [h] at hthere
    cases hthere

theorem Acts.lacks (h : Acts d c c') (hc : c.Lacks key name) : c'.Lacks key name := by
  induction h with
  | refl => exact hc
  | trans _ _ ih₁ ih₂ => exact ih₂ (ih₁ hc)
  | register | returned | pulse | fresh | announce => exact hc.of_eq rfl rfl rfl
  | emit | declare | pend | mark | stub => exact hc.updateCurrent _

theorem Enters.lacks (h : Enters d c c') (hc : c.Lacks key name) : c'.Lacks key name := by
  cases h with
  | block => exact hc.updateCurrent _
  | verbatim | gate | calibration => exact hc.of_eq rfl rfl rfl
  | program => exact ⟨nofun, hc.stub, hc.missing⟩
  | routine => exact hc.enterRoutine

/-- A name that belongs to one routine is not defined while that one is in conversion. -/
theorem Writes.lacks (hkey : ∀ k r, d.policy.routine k r → r.kind ≠ .gate → r.name = name → k = key)
    (h : Writes d c c') (hc : c.Lacks key name) : c'.Lacks key name := by
  have hstable : Stable d (·.Lacks key name) := {
    acts h := h.lacks
    enters h := h.lacks
    emit _ h := h.updateCurrent _
    closeBlock h := h.updateCurrent _
    back h h₁ ha _ hr _ := h.back ha h₁ hr
    gate _ h := h.of_eq rfl rfl rfl
    subroutine := by
      intro c c₁ k r stub hb _ _ hc hback
      refine ⟨hback.inner, hback.stub, fun x hx => ?_⟩
      rcases Program.mem_put hx with rfl | hx
      · -- only the routine itself could define the name, and it is not converted a second time
        intro hname
        obtain rfl := hkey k r hb.routine hb.kind hname
        exact hc.stub hb.idle
      · exact hback.missing x hx }
  exact h.stable hstable hc

end lacks

theorem Writes.rests_closeBlock {c c₁ : Context} (h : Writes d c.openBlock c₁)
    (hg : c.gates ≠ []) : List.Forall₂ Program.Rests c.stack c₁.closeBlock.stack := by
  obtain ⟨hresumes, hbelow, -⟩ := h.advance.closeBlock
  have hvars := variables_closeBlock (h.variables hg)
  rw [stack_eq c, stack_eq c₁.closeBlock]
  exact .cons ⟨hresumes, congrArg Prod.fst hvars, congrArg Prod.snd hvars⟩ hbelow

def Routine.definition (r : Routine) (body : List Stmt) : SubroutineDef :=
  ⟨r.name, r.locals, r.returns, body, false⟩

/-- The root with the definition, unless the name has been defined before. -/
def Context.supply (c : Context) (x : SubroutineDef) : Context :=
  if c.root.hasSubroutine x.name then c else c.updateRoot (·.addSubroutine x)

namespace Convert
variable {α β : Type} {again : Runner} {key : Nat} {r : Routine} {args : List Value} {s t : State}
  {m : Convert α}

theorem Follows.exit_of_ok {A B E : Context → Prop} {o : Context} {m' : Convert α} {a : α}
    {Q : α → State → Prop} (h : Follows d A B o E m m' s Q) (hm : m s = (.ok a, t)) : E t.ctx := by
  have hreach := h.reaches
  rw [hm] at hreach
  exact (hreach (not_excused_ok _ _)).ctx

theorem bindArguments_ok {name : String} {ps : List Param} {vs : List Value} {es : List Expr}
    (h : bindArguments name ps vs s = (.ok es, t)) : ∃ qs, t = { s with ctx := { s.ctx with qubits := qs } } := by
  have hfits : Fits .free ps vs := ⟨fun v _ => v.over_true, fun _ _ _ => trivial⟩
  have hgoes : Goes .free (bindArguments name ps vs) s _ := goes_bindArguments hfits
  obtain ⟨-, c, hc, -, hres⟩ := hgoes
  rw [h] at hc hres
  obtain ⟨⟨qs, rfl⟩, -⟩ := hres es rfl
  exact ⟨qs, hc⟩

theorem emitResult_ok {v : Value} (h : emitResult r v s = (.ok (), t)) : (r.returns = none ∧ t = s) ∨
      (r.returns ≠ none ∧ ∃ e, v.toExpr = .ok e ∧ t = { s with ctx := s.ctx.emit (.return (some e)) }) := by
  generalize hm : emitResult r v = m at h
  unfold emitResult at hm
  split at hm
  · subst hm
    cases h
    exact .inl ⟨‹_›, rfl⟩
  · subst hm
    cases h
  · rename_i hr _
    refine .inr ⟨hr ▸ Option.some_ne_none _, ?_⟩
    split at hm <;> subst hm <;> cases h
    exact ⟨_, ‹_›, rfl⟩

theorem defineSubroutine_ok (h : defineSubroutine again key r s = (.ok (), t)) :
    ∃ stub v u u', runBody again r r.formals { s with ctx := s.ctx.enterRoutine key stub r.blank } = (.ok v, u) ∧
      emitResult r v u = (.ok (), u') ∧
      t = { u' with ctx := (u'.ctx.leaveRoutine key).supply (r.definition u'.ctx.current.body) } := by
  unfold defineSubroutine at h
  obtain ⟨stub, -, h⟩ := (reads_makeStub s).exists_of_bind_ok h
  obtain ⟨body, u₁, hbody, h⟩ := exists_of_bind_ok h
  obtain ⟨u₂, hprogram, rfl⟩ := exists_of_bracketContext_ok hbody
  obtain ⟨u₃, hin, rfl⟩ := exists_of_bracketContext_ok hprogram
  obtain ⟨v, u, hrun, hend⟩ := exists_of_bind_ok hin
  obtain ⟨_, u', hemit, hlast⟩ := exists_of_bind_ok hend
  obtain ⟨c, hc, hlast⟩ := (reads_context u').exists_of_bind_ok hlast
  subst hc
  cases hlast
  refine ⟨stub, v, u, _, hrun, hemit, ?_⟩
  obtain ⟨c, hc, h⟩ := (reads_context _).exists_of_bind_ok h
  subst hc
  unfold Context.supply
  split at h
  · rename_i hmissing
    rw [if_neg (by simpa [Context.leaveRoutine, Routine.definition] using hmissing)]
    exact (Prod.ext_iff.1 h).2.symm
  · rename_i hthere
    rw [if_pos (by simpa [Context.leaveRoutine, Routine.definition] using hthere)]
    exact (Prod.ext_iff.1 h).2.symm

theorem defineGate_ok {name : String} {params : List GateParam} {m : Convert Unit}
    (h : defineGate name params m s = (.ok (), t)) :
    ∃ u, m { s with ctx := (s.ctx.enterGate ⟨name, params⟩).openBlock } = (.ok (), u) ∧
      t.bindings = u.bindings ∧ List.Forall₂ Program.Rests u.ctx.closeBlock.stack t.ctx.stack := by
  unfold defineGate withGate at h
  obtain ⟨u₁, hin, rfl⟩ := exists_of_bracketContext_ok h
  obtain ⟨_, -, hin⟩ := (reads_allow _ _).exists_of_bind_ok hin
  obtain ⟨stmts, u₂, hblock, hend⟩ := exists_of_bind_ok hin
  obtain ⟨u₃, hbody, rfl⟩ := exists_of_bracketContext_ok hblock
  obtain ⟨_, u, hm, hlast⟩ := exists_of_bind_ok hbody
  cases hlast
  refine ⟨u₃, hm, ?_⟩
  obtain ⟨c, hc, hend⟩ := (reads_context _).exists_of_bind_ok hend
  subst hc
  split at hend
  · rename_i hmissing
    cases hend
    refine ⟨rfl, rests_updateRoot (c := u₃.ctx.closeBlock) (f := (·.addGate
      ⟨name, GateParam.angles params, GateParam.qubits params, u₃.ctx.captured⟩)) (.addGate ?_)⟩
    simpa [Context.closeBlock] using hmissing
  · cases hend
    exact ⟨rfl, rests_refl _⟩

/-- The definition that a call needs is there, or it is made. -/
inductive Supplied (again : Runner) (key : Nat) (r : Routine) (s : State) : State → Prop
  | stub {stub : Stub} (h : s.ctx.converting.lookup key = some stub) :
      Supplied again key r s { s with ctx := s.ctx.updateCurrent (·.addSubroutine stub.definition) }
  | there (h : s.ctx.root.hasSubroutine r.name = true) : Supplied again key r s s
  | made {t : State} (hk : s.ctx.converting.lookup key = none) (hm : s.ctx.root.hasSubroutine r.name = false)
      (h : defineSubroutine again key r s = (.ok (), t)) : Supplied again key r s t

/-- The call of a subroutine up to where it is written: the arguments are bound, and the definition is there,
or a placeholder for it. -/
def prepareCall (again : Runner) (key : Nat) (r : Routine) (args : List Value) : Convert (List Expr) := do
  allow .classical
  checkTypes r
  checkCount r args
  let exprs ← bindArguments r.name r.params args
  match (← context).converting.lookup key with
  | some stub => updateCurrent (·.addSubroutine stub.definition)
  | none =>
    if !(← context).root.hasSubroutine r.name then defineSubroutine again key r
  return exprs

theorem callSubroutine_eq_bind (again : Runner) (key : Nat) (r : Routine) (args : List Value) :
    callSubroutine again key r args = prepareCall again key r args >>= emitCall r := by
  simp only [callSubroutine, prepareCall, bind_assoc]
  refine bind_congr fun _ => bind_congr fun _ => bind_congr fun _ => bind_congr fun exprs => bind_congr fun c => ?_
  cases c.converting.lookup key with
  | some stub => simp only [bind_assoc, pure_bind]
  | none =>
    simp only [bind_assoc]
    refine bind_congr fun c' => ?_
    split <;> simp only [bind_assoc, pure_bind]

theorem prepareCall_ok {exprs : List Expr} (h : prepareCall again key r args s = (.ok exprs, t)) :
    s.ctx.refusal? .classical = none ∧
      ∃ s₁, bindArguments r.name r.params args s = (.ok exprs, s₁) ∧ Supplied again key r s₁ t := by
  unfold prepareCall at h
  obtain ⟨_, hallow, h⟩ := (reads_allow _ s).exists_of_bind_ok h
  obtain ⟨_, -, h⟩ := (reads_checkTypes s).exists_of_bind_ok h
  obtain ⟨_, -, h⟩ := (reads_checkCount s).exists_of_bind_ok h
  obtain ⟨es, s₁, hbind, h⟩ := exists_of_bind_ok h
  refine ⟨hallow, s₁, ?_⟩
  obtain ⟨c, hc, h⟩ := (reads_context _).exists_of_bind_ok h
  subst hc
  cases hstub : s₁.ctx.converting.lookup key with
  | some stub =>
    simp only [hstub] at h
    obtain ⟨_, u, hu, h⟩ := exists_of_bind_ok h
    cases hu
    cases h
    exact ⟨hbind, .stub hstub⟩
  | none =>
    simp only [hstub] at h
    obtain ⟨c, hc, h⟩ := (reads_context _).exists_of_bind_ok h
    subst hc
    split at h
    · rename_i hmissing
      obtain ⟨_, u, hu, h⟩ := exists_of_bind_ok h
      cases h
      exact ⟨hbind, .made hstub (by simpa using hmissing) hu⟩
    · rename_i hthere
      cases h
      exact ⟨hbind, .there (by simpa using hthere)⟩

theorem callSubroutine_ok {v : Option Var} (h : callSubroutine again key r args s = (.ok v, t)) :
    s.ctx.refusal? .classical = none ∧ ∃ exprs s₁ s₂, bindArguments r.name r.params args s = (.ok exprs, s₁) ∧
      Supplied again key r s₁ s₂ ∧ emitCall r exprs s₂ = (.ok v, t) := by
  rw [callSubroutine_eq_bind] at h
  obtain ⟨exprs, s₂, hprepare, hemit⟩ := exists_of_bind_ok h
  obtain ⟨hallow, s₁, hbind, hsup⟩ := prepareCall_ok hprepare
  exact ⟨hallow, exprs, s₁, s₂, hbind, hsup, hemit⟩

theorem callGate_ok {hd : Handle} (h : callGate again hd r args s = (.ok (), t)) :
    ∃ s₁, (s₁ = s ∨ defineGateRoutine again r s = (.ok (), s₁)) ∧
      applyGate hd r.name (argumentsFor Param.isQubit r.params args)
        (argumentsFor (fun p => !Param.isQubit p) r.params args) s₁ = (.ok (), t) := by
  unfold callGate at h
  obtain ⟨_, -, h⟩ := (reads_requireActive hd _ s).exists_of_bind_ok h
  obtain ⟨_, -, h⟩ := (reads_checkTypes s).exists_of_bind_ok h
  obtain ⟨_, -, h⟩ := (reads_checkCount s).exists_of_bind_ok h
  obtain ⟨_, -, h⟩ := (reads_allow _ s).exists_of_bind_ok h
  obtain ⟨c, hc, h⟩ := (reads_context _).exists_of_bind_ok h
  subst hc
  dsimp only at h
  split at h
  · obtain ⟨_, u, hu, h⟩ := exists_of_bind_ok h
    exact ⟨u, .inr hu, h⟩
  · exact ⟨s, .inl rfl, h⟩

theorem call_ok {v : Value} (hact : s.ctx.active = true) (h : call again .own key r args s = (.ok v, t)) :
    (r.kind = .gate ∧ v = .none ∧ callGate again .own r args s = (.ok (), t)) ∨
      (r.kind ≠ .gate ∧ ∃ w, v = returnedValue w ∧ callSubroutine again key r args s = (.ok w, t)) := by
  have h := eq_of_mapError_ok h
  split at h
  · rename_i hkind
    obtain ⟨_, u, hgate, h⟩ := exists_of_bind_ok h
    cases h
    exact .inl ⟨hkind, rfl, hgate⟩
  · rename_i hkind
    obtain ⟨_, -, h⟩ := (reads_checkQubits s).exists_of_bind_ok h
    obtain ⟨active, hactive, h⟩ := (reads_isActive .own s).exists_of_bind_ok h
    rw [if_pos (hactive.2 rfl hact)] at h
    obtain ⟨_, -, h⟩ := (reads_checkRegister s).exists_of_bind_ok h
    obtain ⟨w, u, hcall, h⟩ := exists_of_bind_ok h
    refine .inr ⟨hkind, w, ?_⟩
    cases w with
    | none =>
      cases h
      exact ⟨rfl, hcall⟩
    | some x =>
      cases h
      exact ⟨rfl, hcall⟩

end Convert

/-- A stretch that leaves the statements and the variables of all programs alone. -/
theorem Writes.aside {c c' : Context} (hd : d.policy.Counts) (h : Writes d c c')
    (hr : List.Forall₂ Program.Rests c.stack c'.stack) : c.Aside c' :=
  ⟨h.advance.config, h.advance.verbatim, h.advance.active, h.advance.gates, h.advance.calibrations,
    h.nextVar_le hd, hr⟩

namespace Convert
variable {again again' : Runner} {key : Nat} {r : Routine} {s t : State}

section aside
variable {π : Policy} {A B : Context → Prop} (hrun : Runs π.discipline A B again again') (hπ : π.Counts)
  (hkey : π.routine key r)
include hrun hπ hkey

theorem aside_of_defineGateRoutine (hkind : r.kind = .gate) (hact : s.ctx.active = true)
    (h : defineGateRoutine again r s = (.ok (), t)) : s.ctx.Aside t.ctx ∧ t.bindings = s.bindings := by
  have hw := (follows_defineGateRoutine hrun (routine_obeys_discipline π r) hkey hkind
    (over_discipline π s) hact).exit_of_ok h
  unfold defineGateRoutine at h
  obtain ⟨c, hc, h⟩ := (reads_context _).exists_of_bind_ok h
  subst hc
  dsimp only at h
  split at h
  · obtain ⟨_, u, hrefused, -⟩ := exists_of_bind_ok h
    cases hrefused
  obtain ⟨params, -, h⟩ := (reads_liftDomain _ s).exists_of_bind_ok h
  obtain ⟨u, hbody, hbindings, hrests⟩ := defineGate_ok h
  obtain ⟨v, u', hran, hend⟩ := exists_of_bind_ok hbody
  cases hend
  have hin := (faithful_runBody hrun.plain (routine_obeys_discipline π r) (fun v _ => v.over_true) _
    (over_discipline π _)).exit_of_ok hran
  refine ⟨hw.aside hπ (rests_trans (hin.rests_closeBlock nofun) hrests), hbindings.trans ?_⟩
  exact congrArg (·.2.bindings) hran.symm

omit hπ in
theorem writes_of_supplied (hkind : r.kind ≠ .gate) (hp : s.ctx.Permits .classical)
    (hn : π.number s.ctx.nextVar) (hc : ∀ p ∈ r.params, π.chosen s.ctx.nextVar p.name)
    (h : Supplied again key r s t) :
    Writes π.discipline s.ctx t.ctx ∧ List.Forall₂ Program.Rests s.ctx.stack t.ctx.stack ∧
      π.number t.ctx.nextVar := by
  cases h with
  | there => exact ⟨.refl, rests_refl _, hn⟩
  | @stub stub hstub =>
    obtain ⟨l₁, l₂, heq, -⟩ := List.lookup_eq_some_iff.1 hstub
    have hmem : (key, stub) ∈ s.ctx.converting := by
      rw [heq]
      simp
    exact ⟨.acts (.stub hp hmem), rests_updateCurrent (.addSubroutine _ _), hn⟩
  | made hk hm h =>
    have hres := (follows_defineSubroutine hrun (routine_obeys_discipline π r) (over_discipline π s) hp hkey
      hkind hk hm hc).result ()
    rw [h] at hres
    obtain ⟨hw, -, hnumber, hrests⟩ := hres rfl
    exact ⟨hw, hrests, hnumber⟩

theorem aside_of_supplied (hkind : r.kind ≠ .gate) (hp : s.ctx.Permits .classical)
    (hn : π.number s.ctx.nextVar) (h : Supplied again key r s t)
    (hc : ∀ p ∈ r.params, π.chosen s.ctx.nextVar p.name := by exact fun _ _ => trivial) :
    s.ctx.Aside t.ctx ∧ t.bindings = s.bindings ∧ π.number t.ctx.nextVar := by
  obtain ⟨hw, hrests, hnumber⟩ := writes_of_supplied hrun hkey hkind hp hn hc h
  refine ⟨hw.aside hπ hrests, ?_, hnumber⟩
  cases h with
  | there | stub => rfl
  | made hk hm h =>
    obtain ⟨stub, v, u, u', hran, hemit, rfl⟩ := defineSubroutine_ok h
    have hsame : u'.bindings = u.bindings := by
      rcases emitResult_ok hemit with ⟨-, rfl⟩ | ⟨-, e, -, rfl⟩ <;> rfl
    exact hsame.trans (congrArg (·.2.bindings) hran.symm)

end aside

end Convert

end QasmStudio

import QasmStudio.Proofs.Convert.TwinRuns

/-!
# The place of a definition

The body of a subroutine is converted where the subroutine is called first, and what it leaves is used for
all calls. It is converted against the context of that call: with what happens to be defined there, inside
of whatever blocks, definitions and programs are open there, after any number of names have been generated.
None of that shows in the definition, but for the numbers in the names.

One thing does: inside of a verbatim block a number stands for a physical qubit, and a subroutine that is
called there first keeps the physical qubits for good.
-/

namespace QasmStudio

/-- A test of `Portable`: names that start with two underscores do not occur, and the routines that are run
succeed within the bound. -/
def Step.portable? (lib : Library) (fuel : Nat) (t : State) (st : Step) : Bool :=
  st.handle = .own && st.action.word != "return_variable" &&
    st.action.written.all (fun n => n.toList.take 2 != ['_', '_']) &&
    (!st.action.runsRoutine || (Convert.perform (Convert.run lib fuel) lib fuel .own st.action t).1.isOk)

def steady? (lib : Library) (fuel : Nat) (o : Option Step) (t : State) : Bool :=
  decide t.HasNames && o.all (Step.portable? lib fuel t)

theorem Step.Portable.of_check {lib : Library} {fuel : Nat} {t : State} {st : Step}
    (h : st.portable? lib fuel t = true) : st.Portable lib t := by
  simp only [Step.portable?, Bool.and_eq_true, decide_eq_true_eq, bne_iff_ne, List.all_eq_true,
    Bool.or_eq_true, Bool.not_eq_true'] at h
  obtain ⟨⟨⟨hhandle, hword⟩, hnames⟩, hruns⟩ := h
  refine ⟨hhandle, fun hreturned => hword (by rw [hreturned]; rfl),
    fun n hn => not_isGenerated_of_take (hnames n hn), fun hroutine n e => ?_⟩
  rcases hruns with hruns | hruns
  · rw [hroutine] at hruns
    cases hruns
  · exact Convert.perform_ne_error hruns n e

theorem Steady.of_check {lib : Library} {fuel : Nat} {o : Option Step} {t : State}
    (h : steady? lib fuel o t = true) : Steady lib o t := by
  obtain ⟨hnames, hstep⟩ := Bool.and_eq_true_iff.1 h
  refine ⟨of_decide_eq_true hnames, fun st hst => ?_⟩
  subst hst
  exact .of_check hstep

/-- The routine is a subroutine of the library that shares its name with no other one, and neither its
parameters nor its result go by names that builds generate. -/
structure Library.Offers (lib : Library) (key : Nat) (f : Routine) : Prop where
  holds : lib.Holds key f
  kind : f.kind ≠ .gate
  alone : ∀ k g, lib.Holds k g → g.kind ≠ .gate → g.name = f.name → k = key
  params : ∀ p ∈ f.params, ¬ IsGenerated p.name
  result : ∀ n ∈ f.result.names, ¬ IsGenerated n

namespace Convert

/-- A call of the routine takes the state `s` of a build to `t`. It is the first one, so that the body is
converted, and the conversion is steady. -/
structure FirstCall (lib : Library) (key : Nat) (f : Routine) (s t : State) : Prop where
  active : s.ctx.active = true
  idle : s.ctx.converting.lookup key = none
  missing : s.ctx.root.hasSubroutine f.name = false
  succeeds : ∃ fuel args v, call (run lib fuel) .own key f args s = (.ok v, t) ∧
    Throughout lib fuel (Steady lib) (call · .own key f args) s

variable {lib : Library} {key : Nat} {f r : Routine} {s t : State}

theorem subroutine?_addSubroutine (p : Program) (x : SubroutineDef) :
    (p.addSubroutine x).subroutine? x.name = some x := by
  unfold Program.addSubroutine Program.subroutine?
  dsimp only
  induction p.subroutines with
  | nil => simp [Program.put]
  | cons y ys ih =>
    unfold Program.put
    split
    · simp
    · rename_i hne
      simp only [List.find?_cons, hne]
      exact ih

theorem subroutines_of_declare {v : Var} (h : declare v s = (.ok (), t)) :
    t.ctx.root.subroutines = s.ctx.root.subroutines := by
  unfold declare at h
  obtain ⟨c, hc, h⟩ := (reads_context s).exists_of_bind_ok h
  subst hc
  cases hp : s.ctx.current.declare? v with
  | none =>
    simp only [hp] at h
    cases h
  | some p =>
    simp only [hp] at h
    cases h
    exact Context.subroutines_root_updateCurrent fun _ => Program.subroutines_declare? hp

theorem subroutines_of_emitCall {es : List Expr} {v : Option Var} (h : emitCall r es s = (.ok v, t)) :
    t.ctx.root.subroutines = s.ctx.root.subroutines := by
  unfold emitCall at h
  cases hr : r.returns with
  | none =>
    simp only [hr] at h
    obtain ⟨_, u, hu, h⟩ := exists_of_bind_ok h
    cases hu
    cases h
    exact Context.subroutines_root_updateCurrent (c := s.ctx) (f := (·.add _)) fun _ => rfl
  | some ty =>
    simp only [hr] at h
    obtain ⟨name, u, hfresh, h⟩ := exists_of_bind_ok h
    obtain ⟨_, u', hdeclare, h⟩ := exists_of_bind_ok h
    cases h
    refine (subroutines_of_declare hdeclare).trans ?_
    obtain ⟨-, c, hc, -, hname⟩ := goes_freshName (d := .free) (s := s) ty.kind trivial
    rw [hfresh] at hc hname
    rw [show u = { s with ctx := c } from hc]
    show c.root.subroutines = _
    obtain ⟨⟨stem, rfl⟩, -⟩ := hname name rfl
    rfl

section sides
variable {ρ : Pairing} {k : Nat} {s₁ s₂ : State}

theorem alike_bodyOf {n₁ n₂ : Nat} (hr : ∀ n ∈ r.result.names, ¬ IsGenerated n) (h : s₁.Matches ρ k s₂) :
    Alike ρ k (bodyOf (steadyRun lib n₁) r) (bodyOf (steadyRun lib n₂) r) s₁ s₂ Pairing.Values := by
  refine (twin_run lib n₁ n₂ r.body ρ k s₁ s₂ h).bind fun ρ' _ _ t₁ t₂ _ ht _ => ?_
  split
  · exact .of_peeks ht (peeks_value ht hr) fun _ _ hv => hv
  · exact .pure ht fun _ _ => rfl

theorem renamed_of_emitResult {v w : Value} {t₁ t₂ : State} (h₁ : emitResult r v s₁ = (.ok (), t₁))
    (h₂ : emitResult r w s₂ = (.ok (), t₂)) (h : s₁.ctx.Matches ρ k s₂.ctx)
    (hv : ρ.Values v w) : ρ.Relates Program.Renamed t₁.ctx.current t₂.ctx.current := by
  intro σ hσ
  have hcurrent := h.current σ hσ
  rcases emitResult_ok h₁ with ⟨hnone, rfl⟩ | ⟨hsome, e, he, rfl⟩
  · rcases emitResult_ok h₂ with ⟨-, rfl⟩ | ⟨hsome, -⟩
    · exact hcurrent
    · exact absurd hnone hsome
  · rcases emitResult_ok h₂ with ⟨hnone, -⟩ | ⟨-, e', he', rfl⟩
    · exact absurd hnone hsome
    · rw [Value.toExpr_renamed (hv σ hσ), he] at he'
      cases he'
      show (s₁.ctx.emit _).current.Renamed σ (s₂.ctx.emit _).current
      rw [Context.emit, Context.emit, Context.current_updateCurrent, Context.current_updateCurrent]
      exact hcurrent.add rfl

theorem renamed_locals (hf : ∀ p ∈ f.params, ¬ IsGenerated p.name) {σ : Equiv.Perm String}
    (hσ : Pairing.Agrees [] σ) {v : Var} (hv : v ∈ f.locals) : v.rename σ = v := by
  obtain ⟨p, hp, rfl⟩ := List.mem_map.1 hv
  exact congrArg (Var.mk · p.ty none) (hσ.ordinary p.name (hf p hp))

theorem renamed_blank (hf : ∀ p ∈ f.params, ¬ IsGenerated p.name) {σ : Equiv.Perm String}
    (hσ : Pairing.Agrees [] σ) : f.blank.Renamed σ f.blank := by
  have hmark : ∀ (vs : List Var) (p : Program), (∀ v ∈ vs, v.rename σ = v) → p.Renamed σ p →
      (vs.foldl Program.markDeclared p).Renamed σ (vs.foldl Program.markDeclared p) := by
    intro vs
    induction vs with
    | nil => exact fun p _ hp => hp
    | cons v vs ih =>
      intro p hvs hp
      have hv := hvs v (List.mem_cons_self ..)
      exact ih _ (fun w hw => hvs w (List.mem_cons_of_mem _ hw)) (hp.markDeclared σ.injective hv.symm)
  exact hmark f.locals {} (fun v hv => renamed_locals hf hσ hv) ⟨rfl, rfl, rfl, rfl⟩

/-- The body of a routine begins in the same way everywhere. -/
theorem matches_of_begins (s₁ s₂ : State) {c₁ c₂ : Context} (stub₁ stub₂ : Stub) (hf : lib.Offers key f)
    (h₁ : c₁.Permits .classical) (h₂ : c₂.Permits .classical) (hconfig : c₂.config = c₁.config)
    (hverbatim : c₂.verbatim = c₁.verbatim) :
    let args := if f.kind = .main then [] else f.formals
    State.Matches [] 0 { s₁ with ctx := c₁.enterRoutine key stub₁ f.blank, bindings := { args := args } }
      { s₂ with ctx := c₂.enterRoutine key stub₂ f.blank, bindings := { args := args } } := by
  obtain ⟨hgates₁, hcals₁⟩ := Context.outside_of_permits h₁
  obtain ⟨hgates₂, hcals₂⟩ := Context.outside_of_permits h₂
  have hnone : ∀ {P : String × String → Prop}, ∀ p ∈ ([] : Pairing), P p := fun _ hp => absurd hp List.not_mem_nil
  refine ⟨⟨⟨.refl _, fun _ _ => rfl, hnone⟩, hnone, ⟨h₁.1, h₂.1⟩, hconfig, hverbatim, ?_, ?_, ?_, ?_, ?_⟩, ?_⟩
  · exact hgates₂.trans hgates₁.symm
  · rw [Context.enterRoutine, Context.enterRoutine, hcals₁, hcals₂]
  · rw [Context.enterRoutine, hgates₁]
    exact fun _ hg => absurd hg List.not_mem_nil
  · exact ⟨Nat.succ_pos _, Nat.succ_pos _⟩
  · exact fun σ hσ => .cons (renamed_blank hf.params hσ) .nil
  · intro σ hσ
    refine ⟨.nil, List.forall₂_same.2 fun v hv => ?_⟩
    have hmem : v ∈ f.formals := by
      split at hv
      · cases hv
      · exact hv
    obtain ⟨x, hx, rfl⟩ := List.mem_map.1 hmem
    have hlocal := renamed_locals hf.params hσ hx
    rw [Value.Renamed, ← Var.expr_rename, hlocal]

end sides

/-- The first call of a routine converts its body in a program of its own, and the root gets what it leaves. -/
theorem FirstCall.body (hf : lib.Offers key f) (h : FirstCall lib key f s t) :
    ∃ (fuel : Nat) (c : Context) (stub : Stub) (v : Value) (u u' : State),
      c.Permits .classical ∧ c.config = s.ctx.config ∧ c.verbatim = s.ctx.verbatim ∧
      runBody (steadyRun lib fuel) f f.formals { s with ctx := c.enterRoutine key stub f.blank } = (.ok v, u) ∧
      emitResult f v u = (.ok (), u') ∧
      t.ctx.root.subroutine? f.name = some (f.definition u'.ctx.current.body) := by
  obtain ⟨fuel, args, v, hcall, hthrough⟩ := h.succeeds
  rcases call_ok h.active ((hthrough.insist .exhausted).trans hcall) with ⟨hk, -⟩ | ⟨-, w, -, hsub⟩
  · exact absurd hk hf.kind
  obtain ⟨hp, es, u₁, u₂, hbind, hsup, hemit⟩ := callSubroutine_ok hsub
  obtain ⟨qs, rfl⟩ := bindArguments_ok hbind
  cases hsup with
  | stub hstub => exact absurd hstub (by rw [h.idle]; nofun)
  | there hthere => exact absurd hthere (by rw [h.missing]; nofun)
  | made hk hm hmade =>
    obtain ⟨stub, v, u, u', hrun, hend, rfl⟩ := defineSubroutine_ok hmade
    refine ⟨fuel, { s.ctx with qubits := qs }, stub, v, u, u', ⟨h.active, hp⟩, rfl, rfl, hrun, hend, ?_⟩
    have hw := (faithful_runBody (runs_steady lib fuel).plain (routine_obeys_discipline _ f)
      (fun v _ => v.over_true) _ (over_discipline _ _)).exit_of_ok hrun
    -- the calls in the body, those of the routine itself included, have not defined the name meanwhile
    have hlacks : u'.ctx.Lacks key f.name := by
      have hu := hw.lacks hf.alone (Context.lacks_enterRoutine h.missing)
      rcases emitResult_ok hend with ⟨-, rfl⟩ | ⟨-, e, -, rfl⟩
      · exact hu
      · exact hu.updateCurrent (·.add (.return (some e)))
    have hmissing : (u'.ctx.leaveRoutine key).root.hasSubroutine
        (f.definition u'.ctx.current.body).name = false := hlacks.hasSubroutine
    rw [Program.subroutine?, subroutines_of_emitCall hemit]
    dsimp only
    rw [Context.supply, hmissing]
    exact subroutine?_addSubroutine _ (f.definition u'.ctx.current.body)

theorem firstCall_of_check {fuel : Nat} {args : List Value} (hactive : s.ctx.active = true)
    (hidle : s.ctx.converting.lookup key = none) (hmissing : s.ctx.root.hasSubroutine f.name = false)
    (h : (call (observed (stopUnless (steady? lib fuel)) lib fuel) .own key f args s).1.isOk = true) :
    FirstCall lib key f s (call (run lib fuel) .own key f args s).2 := by
  have hthrough : Throughout lib fuel (fun o t => steady? lib fuel o t = true)
      (call · .own key f args) s := by
    refine throughout_of_unstopped nofun (fun again again' hruns hx => ?_) fun hstop => ?_
    · exact (follows_call (fun _ _ _ _ _ => trivial) hruns (routine_obeys_discipline _ f) trivial trivial
        ⟨fun v _ => v.over_true, fun _ _ _ => trivial⟩ (over_discipline _ s)).agrees (fun _ _ => trivial)
        (fun _ _ => trivial) hx
    · rw [hstop] at h
      cases h
  have hsame : call (observed (stopUnless (steady? lib fuel)) lib fuel) .own key f args s =
      call (run lib fuel) .own key f args s := hthrough _ fun o t ht => if_pos ht
  rw [hsame] at h
  rcases hcall : call (run lib fuel) .own key f args s with ⟨_ | v, t⟩
  · rw [hcall] at h
    cases h
  · exact ⟨hactive, hidle, hmissing, fuel, args, v, hcall, hthrough.mono fun _ _ => .of_check⟩

/-- The definition that a subroutine gets does not depend on the place of the call that makes it. Two
first calls, from any two states in which builds with one configuration can be, and both inside of a verbatim
block or both outside, define the same parameters, the same type and the same statements, up to a
permutation of the names that builds generate. -/
theorem definition_place_irrelevant {s₁ s₂ t₁ t₂ : State} (hf : lib.Offers key f)
    (h₁ : FirstCall lib key f s₁ t₁) (h₂ : FirstCall lib key f s₂ t₂)
    (hconfig : s₂.ctx.config = s₁.ctx.config) (hverbatim : s₂.ctx.verbatim = s₁.ctx.verbatim) :
    ∃ body₁ body₂, ∃ σ : Equiv.Perm String, (∀ n, ¬ IsGenerated n → σ n = n) ∧
      t₁.ctx.root.subroutine? f.name = some (f.definition body₁) ∧
      t₂.ctx.root.subroutine? f.name = some (f.definition body₂) ∧ body₂ = body₁.map (Stmt.rename σ) := by
  obtain ⟨n₁, c₁, stub₁, v₁, u₁, u₁', hp₁, hconfig₁, hverbatim₁, hrun₁, hend₁, htable₁⟩ := h₁.body hf
  obtain ⟨n₂, c₂, stub₂, v₂, u₂, u₂', hp₂, hconfig₂, hverbatim₂, hrun₂, hend₂, htable₂⟩ := h₂.body hf
  obtain ⟨w₁, hbody₁, rfl⟩ := runBody_ok hrun₁
  obtain ⟨w₂, hbody₂, rfl⟩ := runBody_ok hrun₂
  -- both bodies begin with no names paired, and what they leave is paired by the names that both generate
  have hstart := matches_of_begins s₁ s₂ stub₁ stub₂ hf hp₁ hp₂
    (by rw [hconfig₁, hconfig₂, hconfig]) (by rw [hverbatim₁, hverbatim₂, hverbatim])
  obtain ⟨ρ, -, hmatches, hv⟩ := (alike_bodyOf hf.result hstart).elim hbody₁ hbody₂
  obtain ⟨σ, hσ⟩ := hmatches.ctx.completes
  have hrenamed := renamed_of_emitResult hend₁ hend₂ hmatches.ctx hv σ hσ
  exact ⟨_, _, σ, hσ.ordinary, htable₁, htable₂, hrenamed.body⟩

def counter : Routine :=
  .subroutine "count" [⟨"n", some Ty.int⟩] (some Ty.int)
    [.mk (.newVar .int (.arg 0)) (some "m") false .own] (.named "m")

def probe : Routine :=
  .subroutine "probe" [⟨"q", some (.qubit 0)⟩] (some Ty.int)
    [.mk (.measure [.arg 0]) (some "b") false .own,
     .mk (.branch (.named "b") (some [.mk (.gate ⟨"x", 1, 0⟩ [.arg 0]) none false .own]) none) none false .own,
     .mk (.call "count" [.const (.int .word 2)]) (some "c") false .own] (.named "c")

def probeLibrary : Library := .ofRoutines [counter, probe]

def outset : State := State.started {} {}

/-- In a loop of another subroutine, after names have been generated and `count` has been defined. -/
def midway : State :=
  let s := (run probeLibrary 6 [.mk (.newVar .int (.const (.int .word 5))) none false .own,
    .mk (.call "count" [.const (.int .word 1)]) none false .own] outset).2
  { s with ctx := (s.ctx.enterRoutine 7 ⟨"outer", [], none, .absent⟩ {}).openBlock }

theorem offers_probe : probeLibrary.Offers 1 probe := by
  refine ⟨⟨"probe", rfl⟩, nofun, ?_, ?_, nofun⟩
  · rintro k g ⟨id, hg⟩ - hname
    rcases k with _ | _ | k
    · cases hg
      exact absurd hname (by decide)
    · rfl
    · cases hg
  · intro p hp
    obtain rfl := List.mem_singleton.1 hp
    exact not_isGenerated_of_take (by decide)

theorem definition_place_irrelevant_probe :
    ∃ t₁ t₂, FirstCall probeLibrary 1 probe outset t₁ ∧ FirstCall probeLibrary 1 probe midway t₂ ∧
      outset.ctx.nextVar = 0 ∧ midway.ctx.nextVar = 3 ∧
      ∃ body₁ body₂, ∃ σ : Equiv.Perm String, (∀ n, ¬ IsGenerated n → σ n = n) ∧
        t₁.ctx.root.subroutine? probe.name = some (probe.definition body₁) ∧
        t₂.ctx.root.subroutine? probe.name = some (probe.definition body₂) ∧
        body₂ = body₁.map (Stmt.rename σ) := by
  have h₁ : FirstCall probeLibrary 1 probe outset
      (call (run probeLibrary 6) .own 1 probe [.int .word 3] outset).2 :=
    firstCall_of_check rfl rfl rfl (by decide +kernel)
  have h₂ : FirstCall probeLibrary 1 probe midway
      (call (run probeLibrary 6) .own 1 probe [.int .word 3] midway).2 := by
    refine firstCall_of_check ?_ ?_ ?_ ?_
    · decide +kernel
    · exact Option.isNone_iff_eq_none.1 (by decide +kernel)
    · decide +kernel
    · decide +kernel
  refine ⟨_, _, h₁, h₂, ?_, ?_, definition_place_irrelevant offers_probe h₁ h₂ ?_ ?_⟩
  · decide +kernel
  · decide +kernel
  · decide +kernel
  · decide +kernel

def fixedLibrary : Library :=
  .ofRoutines [.subroutine "f" [] none
    [.mk (.gate ⟨"x", 1, 0⟩ [.const (.int .word 0)]) none false .own] (.const .none)]

def plainMain : Routine := .main "plain" [.mk (.call "f" []) none false .own] []

def boxedMain : Routine :=
  .main "boxed" [.mk (.verbatim [.mk (.call "f" []) none false .own]) none false .own,
    .mk (.call "f" []) none false .own] []

/-- The definition that is made in a verbatim block, and used outside of it as well, is another one. -/
theorem definition_from_verbatim :
    ∃ p₁ s₁ p₂ s₂ x₁ x₂, buildProgram (run fixedLibrary 4) plainMain {} [] {} = (.ok p₁, s₁) ∧
      buildProgram (run fixedLibrary 4) boxedMain {} [] {} = (.ok p₂, s₂) ∧
      p₁.program.subroutine? "f" = some x₁ ∧ p₂.program.subroutine? "f" = some x₂ ∧
      ∀ σ : String → String, x₂.body ≠ x₁.body.map (Stmt.rename σ) := by
  let view (p : BuiltProgram) := (p.program.subroutine? "f").map (·.body.flatMap Stmt.operandForms)
  have hplain : (buildProgram (run fixedLibrary 4) plainMain {} [] {}).1.toOption.map view =
      some (some ["*oqpy.Index"]) := by decide +kernel
  have hboxed : (buildProgram (run fixedLibrary 4) boxedMain {} [] {}).1.toOption.map view =
      some (some ["oqpy.PhysicalQubit"]) := by decide +kernel
  obtain ⟨p₁, s₁, hp₁, hview₁⟩ := exists_of_toOption hplain
  obtain ⟨p₂, s₂, hp₂, hview₂⟩ := exists_of_toOption hboxed
  obtain ⟨x₁, hx₁, hforms₁⟩ := Option.map_eq_some_iff.1 hview₁
  obtain ⟨x₂, hx₂, hforms₂⟩ := Option.map_eq_some_iff.1 hview₂
  refine ⟨p₁, s₁, p₂, s₂, x₁, x₂, hp₁, hp₂, hx₁, hx₂, fun σ heq => ?_⟩
  have hsame : x₂.body.flatMap Stmt.operandForms = x₁.body.flatMap Stmt.operandForms := by
    rw [heq, List.flatMap_map]
    simp only [Stmt.operandForms_rename]
  rw [hforms₁, hforms₂] at hsame
  exact absurd hsame (by decide)

end Convert

end QasmStudio

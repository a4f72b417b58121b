import QasmStudio.Proofs.Convert.RegisterSound
import QasmStudio.Proofs.Lang.Scope

/-!
# Where variables are declared

A new variable is declared at the top of its program, together with the value that it starts with. That is
right exactly if the value mentions nothing but parameters and variables that are declared there before it
(`newVar_scoped_iff`). If it mentions a variable which is declared by a statement, such as the result of a
measurement, then the one is used before the other is declared (`measured_initial_undeclared`).

An assignment declares its variable where it stands, unless the program has a variable of that name.
Programs do not remember in which block a variable was declared, so the name may be out of scope there
(`undeclared_use` has an example of either kind).
-/

namespace QasmStudio.Convert

theorem declared_of_measure {h : Handle} {qubits : List Value} {s s' : State} {b : Var}
    (hb : measure h qubits s = (.ok b, s')) :
    b.name ≠ registerName ∧ s.ctx.current.isDeclared b.name = false ∧
      s'.ctx.current.isDeclared b.name = true ∧ s'.ctx.current.isPending b.name = false := by
  have hgoes : Goes .free (measure h qubits) s _ := goes_measure trivial fun v _ => ⟨v.over_true, trivial⟩
  obtain ⟨-, c, hc, -, hres⟩ := hgoes
  rw [hb] at hc hres
  cases hc
  obtain ⟨⟨stem, n, hname⟩, htables⟩ := hres b rfl
  exact ⟨hname ▸ generatedName_ne_registerName stem n, htables⟩

theorem pending_of_newVar {h : Handle} {t : Ty} {i : Option Value} {s s' : State} {v : Var}
    (hv : newVar h t i s = (.ok v, s')) (hnew : s.ctx.current.isUsed v.name = false) :
    s'.ctx.current = { s.ctx.current with pending := s.ctx.current.pending ++ [v] } ∧
      ∀ e, i = some (.expr e) → v.init = some e := by
  have hgoes : Goes .free (newVar h t i) s _ := goes_newVar trivial fun u _ => ⟨u.over_true, fun _ _ _ _ => trivial⟩
  obtain ⟨-, c, hc, -, hres⟩ := hgoes
  rw [hv] at hc hres
  cases hc
  obtain ⟨-, hcur, hinit⟩ := hres v rfl
  refine ⟨hcur.trans (by rw [Program.addPending, hnew]; rfl), fun e he => ?_⟩
  obtain ⟨x, hx, hvx⟩ := hinit (.expr e) he
  cases hx
  exact hvx

/-- A program stays scoped if a new variable starts with parameters and with what waits for its declaration, and
not otherwise. -/
theorem newVar_scoped_iff {h : Handle} {t : Ty} {i : Option Value} {s s' : State} {v : Var} {scope : List String}
    (hs : Stmt.areScoped scope s.ctx.current.body = true) (hv : newVar h t i s = (.ok v, s'))
    (hnew : s.ctx.current.isUsed v.name = false) : Stmt.areScoped scope s'.ctx.current.body = true ↔
      ∀ x ∈ v.initialNames, x ∈ scope ∨ s.ctx.current.isPending x = true := by
  rw [(pending_of_newVar hv hnew).1]
  exact ⟨Program.areScoped_wait.1, Program.areScoped_wait.2 hs⟩

/-- Whatever is measured, a new variable that starts with the result is declared before the variable that
holds the result, in a program with any parameters, unless its name was taken already. -/
theorem measured_initial_undeclared {h : Handle} {qubits : List Value} {t : Ty} {s s₁ s₂ : State}
    {b v : Var} {params : List String} (hparams : ∀ x ∈ params, s.ctx.current.isDeclared x = true)
    (hb : measure h qubits s = (.ok b, s₁)) (hv : newVar h t (some (.expr b.expr)) s₁ = (.ok v, s₂))
    (hnew : s₁.ctx.current.isUsed v.name = false) :
    Stmt.areScoped (registerName :: params) s₂.ctx.current.body = false := by
  obtain ⟨hregister, hbefore, -, hwaits⟩ := declared_of_measure hb
  obtain ⟨hcur, hinit⟩ := pending_of_newVar hv hnew
  have hmem : b.name ∈ v.initialNames := by
    rw [Var.initialNames, hinit b.expr rfl]
    exact List.mem_singleton.2 rfl
  rw [Bool.eq_false_iff, hcur]
  intro hscoped
  rcases Program.areScoped_wait.1 hscoped b.name hmem with hscope | hpending
  · rcases List.mem_cons.1 hscope with heq | hparam
    · exact hregister heq
    · rw [hparams b.name hparam] at hbefore
      cases hbefore
  · rw [hwaits] at hpending
    cases hpending

theorem measured_initial_undeclared_int :
    ∃ b s₁ v s₂, measure .own [.int .word 0] (({} : State).started {}) = (.ok b, s₁) ∧
      newVar .own Ty.int (some (.expr b.expr)) s₁ = (.ok v, s₂) ∧ s₁.ctx.current.isUsed v.name = false ∧
      Stmt.areScoped [registerName] s₂.ctx.current.body = false := by
  have hruns : ∃ b s₁ v s₂, measure .own [.int .word 0] (({} : State).started {}) = (.ok b, s₁) ∧
      newVar .own Ty.int (some (.expr b.expr)) s₁ = (.ok v, s₂) ∧ s₁.ctx.current.isUsed v.name = false :=
    ⟨_, _, _, _, rfl, rfl, by decide +kernel⟩
  obtain ⟨b, s₁, v, s₂, hb, hv, hnew⟩ := hruns
  refine ⟨b, s₁, v, s₂, hb, hv, hnew, measured_initial_undeclared (fun x hx => ?_) hb hv hnew⟩
  cases hx

def hoistMain : Routine :=
  .main "main"
    [.mk (.measure [.const (.int .word 0)]) (some "b") false .own,
     .mk (.newVar .int (.named "b")) none false .own] []

/-- It assigns the result of a measurement to the same name in a block and behind it. -/
def blockMain : Routine :=
  .main "main"
    [.mk (.measure [.const (.int .word 0)]) (some "b") false .own,
     .mk (.branch (.named "b") (some [.mk (.assign "x" (.named "b")) none false .own]) none) none false .own,
     .mk (.assign "x" (.named "b")) none false .own] []

theorem undeclared_use :
    ((buildProgram (run ⟨[]⟩ 3) hoistMain {} [] {}).1.toOption.map (·.program.isScoped)) = some false ∧
    ((buildProgram (run ⟨[]⟩ 3) blockMain {} [] {}).1.toOption.map (·.program.isScoped)) = some false :=
  ⟨by decide +kernel, by decide +kernel⟩

end QasmStudio.Convert

import Mathlib.Logic.Equiv.Basic
import QasmStudio.Proofs.Convert.CallFrame
import QasmStudio.Proofs.Lang.Renaming

/-!
# Two runs that differ in their names

Two runs of one body in different places generate different names, and they generate them in step: a
`Pairing` lists the names of one run with those that stand for them in the other. It grows while the
bodies run, so what holds of it is said for every permutation of names that agrees with it so far
(`Pairing.Relates`), and lasts. Names that no build generates stand for themselves.

`State.Matches ρ k s₁ s₂`: the states differ by the pairing `ρ` in what the bodies can see, that is in the
bindings and in the `k + 1` programs on top of the stack. `Alike ρ k m₁ m₂ s₁ s₂ Q`: from there `m₁` and
`m₂` end in states that match again, both with an error or both with results that `Q` relates, unless one
of them stops with something that nobody can catch.
-/

namespace QasmStudio

open List

/-! ### Names -/

theorem not_isGenerated_registerName : ¬ IsGenerated registerName := by
  intro h
  obtain ⟨c, hc, heq⟩ := h.start
  have hq : c = 'q' := (List.cons.inj (List.cons.inj (List.cons.inj heq).2).2).1.symm
  subst hq
  simp at hc

/-- Names of one run with the names that stand for them in another. -/
abbrev Pairing := List (String × String)

namespace Pairing
variable {ρ ρ' : Pairing} {α β : Type}

/-- The permutation extends the pairing, and it leaves all names alone that no build generates. -/
structure Agrees (ρ : Pairing) (σ : Equiv.Perm String) : Prop where
  ordinary : ∀ x, ¬ IsGenerated x → σ x = x
  pairs : ∀ p ∈ ρ, σ p.1 = p.2

/-- `R` relates the two, however the pairing goes on. -/
def Relates (ρ : Pairing) (R : (String → String) → α → β → Prop) (a : α) (b : β) : Prop :=
  ∀ σ : Equiv.Perm String, ρ.Agrees σ → R σ a b

theorem Agrees.mono {σ : Equiv.Perm String} (h : ρ'.Agrees σ) (hρ : ρ ⊆ ρ') : ρ.Agrees σ :=
  ⟨h.ordinary, fun p hp => h.pairs p (hρ hp)⟩

theorem Agrees.registerExpr {σ : Equiv.Perm String} (h : ρ.Agrees σ) : registerExpr.rename σ = registerExpr :=
  congrArg (Expr.ident · _) (h.ordinary registerName not_isGenerated_registerName)

section relates
variable {R : (String → String) → α → β → Prop} {a : α} {b : β}

theorem Relates.mono (h : ρ.Relates R a b) (hρ : ρ ⊆ ρ') : ρ'.Relates R a b := fun σ hσ => h σ (hσ.mono hρ)

theorem completes_cons {x y : String} (h : ∃ σ, ρ.Agrees σ) (hx : IsGenerated x) (hy : IsGenerated y)
    (hfresh : ∀ p ∈ ρ, p.1 ≠ x ∧ p.2 ≠ y) : ∃ σ, Pairing.Agrees ((x, y) :: ρ) σ := by
  obtain ⟨σ, hσ⟩ := h
  -- `y` is swapped with the name that `x` has been taken to so far
  refine ⟨σ.trans (Equiv.swap (σ x) y), fun z hz => ?_, fun p hp => ?_⟩
  · have hfixed := hσ.ordinary z hz
    have hne : z ≠ σ x := by
      intro heq
      obtain rfl : z = x := σ.injective (hfixed.trans heq)
      exact hz hx
    have hney : z ≠ y := by
      rintro rfl
      exact hz hy
    rw [Equiv.trans_apply, hfixed, Equiv.swap_apply_of_ne_of_ne hne hney]
  · rcases mem_cons.1 hp with rfl | hp
    · exact Equiv.swap_apply_left _ _
    · obtain ⟨hpx, hpy⟩ := hfresh p hp
      have hpair := hσ.pairs p hp
      rw [Equiv.trans_apply, hpair, Equiv.swap_apply_of_ne_of_ne _ hpy]
      rw [← hpair]
      exact fun heq => hpx (σ.injective heq)

variable (hρ : ∃ σ, ρ.Agrees σ)
include hρ

theorem relates_outcomes {ε : Type} {x : Except ε α} {y : Except ε β}
    (h : ∀ σ : Equiv.Perm String, ρ.Agrees σ → Outcomes (R σ) x y) : Outcomes (ρ.Relates R) x y := by
  obtain ⟨σ, hσ⟩ := hρ
  cases h σ hσ with
  | error e e' => exact .error e e'
  | ok hab =>
    refine .ok fun τ hτ => ?_
    cases h τ hτ with
    | ok hab => exact hab

theorem relates_forall₂ {as : List α} {bs : List β} :
    ρ.Relates (fun σ => Forall₂ (R σ)) as bs ↔ Forall₂ (ρ.Relates R) as bs := by
  obtain ⟨σ, hσ⟩ := hρ
  constructor
  · intro h
    have hσas := h σ hσ
    induction hσas with
    | nil => exact .nil
    | cons hab htail ih =>
      refine .cons (fun τ hτ => ?_) (ih fun τ hτ => ?_)
      · exact (forall₂_cons.1 (h τ hτ)).1
      · exact (forall₂_cons.1 (h τ hτ)).2
  · exact fun h τ hτ => h.imp fun _ _ hab => hab τ hτ

end relates

end Pairing

/-! ### Relations up to a renaming -/

def Expr.Renamed (σ : String → String) (e e' : Expr) : Prop := e' = e.rename σ

def Expr.RenamedAll (σ : String → String) (es es' : List Expr) : Prop := es' = es.map (rename σ)

def Var.Renamed (σ : String → String) (v v' : Var) : Prop := v' = v.rename σ

def Stmt.Renamed (σ : String → String) (s s' : Stmt) : Prop := s' = s.rename σ

def Stmt.RenamedAll (σ : String → String) (ss ss' : List Stmt) : Prop := ss' = ss.map (rename σ)

/-- Values that differ by the pairing. -/
abbrev Pairing.Values (ρ : Pairing) : Value → Value → Prop := ρ.Relates Value.Renamed

/-- Nothing is compared. -/
abbrev Pairing.Done {α : Type} (_ : Pairing) : α → α → Prop := fun _ _ => True

abbrev Pairing.Exprs (ρ : Pairing) : Expr → Expr → Prop := ρ.Relates Expr.Renamed

abbrev Pairing.Vars (ρ : Pairing) : Var → Var → Prop := ρ.Relates Var.Renamed

theorem forall₂_eq_map {α β : Type} {f : α → β} {as : List α} {bs : List β} :
    Forall₂ (fun a b => b = f a) as bs ↔ bs = as.map f := by
  constructor
  · intro h
    induction h with
    | nil => rfl
    | cons hab _ ih => rw [hab, ih, map_cons]
  · rintro rfl
    exact forall₂_map_right_iff.2 (forall₂_same.2 fun _ _ => rfl)

theorem Expr.renamedAll_of_forall₂ {ρ : Pairing} {es es' : List Expr}
    (h : Forall₂ ρ.Exprs es es') : ρ.Relates Expr.RenamedAll es es' :=
  fun σ hσ => forall₂_eq_map.1 (h.imp fun _ _ he => he σ hσ)

theorem Program.Rests.renamed {σ : String → String} {p p' q q' : Program} (h : p.Renamed σ q)
    (hp : p.Rests p') (hq : q.Rests q') : p'.Renamed σ q' := by
  obtain ⟨hpn, hpt⟩ : p'.nested = p.nested ∧ [p'.top] = [p.top] := append_inj' hp.blocks rfl
  obtain ⟨hqn, hqt⟩ : q'.nested = q.nested ∧ [q'.top] = [q.top] := append_inj' hq.blocks rfl
  refine ⟨?_, ?_, ?_, ?_⟩
  · rw [(List.cons.inj hqt).1, (List.cons.inj hpt).1, h.top]
  · rw [hqn, hpn, h.nested]
  · rw [hq.declared, hp.declared, h.declared]
  · rw [hq.pending, hp.pending, h.pending]

/-! ### Contexts -/

/-- Numbers of names leave room for the next one. -/
def Policy.Counts (π : Policy) : Prop := ∀ n, π.number n → 0 ≤ n ∧ n < Word.largest

/-- Another name can be generated, in the context and in the finished one. -/
def State.HasNames (t : State) : Prop :=
  (0 ≤ t.ctx.nextVar ∧ t.ctx.nextVar < Word.largest) ∧
    0 ≤ t.finished.nextVar ∧ t.finished.nextVar < Word.largest

instance (t : State) : Decidable t.HasNames := inferInstanceAs (Decidable (_ ∧ _))

namespace Context
variable {ρ ρ' : Pairing} {k : Nat} {c c' c₁ c₁' c₂ c₂' : Context}

/-- The name was generated before the next one. -/
def Earlier (c : Context) (name : String) : Prop :=
  ∃ kind stem n, nameStem? kind = some stem ∧ name = generatedName stem n ∧ 0 ≤ n ∧ n < c.nextVar

theorem Earlier.mono {name : String} (h : c.Earlier name) (hn : c.nextVar ≤ c'.nextVar) : c'.Earlier name := by
  obtain ⟨kind, stem, n, hstem, hname, hpos, hlt⟩ := h
  exact ⟨kind, stem, n, hstem, hname, hpos, Int.lt_of_lt_of_le hlt hn⟩

theorem nextVar_giveOut (c : Context) (stem : String) : (c.giveOut stem).nextVar = Word.add c.nextVar 1 :=
  Word.wrap_succ _

/-- Nothing has changed that the bodies of `c` can see. -/
structure Aside (c c' : Context) : Prop where
  config : c'.config = c.config
  verbatim : c'.verbatim = c.verbatim
  active : c'.active = c.active
  gates : c'.gates = c.gates
  calibrations : c'.calibrations = c.calibrations
  nextVar : c.nextVar ≤ c'.nextVar
  stack : Forall₂ Program.Rests c.stack c'.stack

theorem Aside.of_eq (hconfig : c'.config = c.config) (hverbatim : c'.verbatim = c.verbatim)
    (hactive : c'.active = c.active) (hgates : c'.gates = c.gates)
    (hcalibrations : c'.calibrations = c.calibrations) (hnext : c'.nextVar = c.nextVar)
    (hstack : c'.stack = c.stack) : c.Aside c' :=
  ⟨hconfig, hverbatim, hactive, hgates, hcalibrations, Int.le_of_eq hnext.symm, hstack ▸ rests_refl _⟩

theorem Aside.refl (c : Context) : c.Aside c := .of_eq rfl rfl rfl rfl rfl rfl rfl

theorem Aside.updateRoot {f : Program → Program} (hf : c.root.Rests (f c.root)) : c.Aside (c.updateRoot f) :=
  ⟨rfl, rfl, rfl, rfl, rfl, Int.le_refl _, rests_updateRoot hf⟩

theorem Aside.inner (h : c.Aside c') : c'.inner.length = c.inner.length := by
  have hlength := h.stack.length_eq
  simp only [Context.stack, length_append, length_singleton] at hlength
  omega

/-- In both contexts the same may be done, the programs on top differ by the pairing, and the names in it
have been generated. The contexts are inside of other programs than the root. -/
structure Matches (ρ : Pairing) (k : Nat) (c₁ c₂ : Context) : Prop where
  completes : ∃ σ, ρ.Agrees σ
  earlier : ∀ p ∈ ρ, c₁.Earlier p.1 ∧ c₂.Earlier p.2
  active : c₁.active = true ∧ c₂.active = true
  config : c₂.config = c₁.config
  verbatim : c₂.verbatim = c₁.verbatim
  gates : c₂.gates = c₁.gates
  calibrations : c₂.calibrations.length = c₁.calibrations.length
  params : ∀ g ∈ c₁.gates, ∀ p ∈ g.params, ¬ IsGenerated p.name
  deep : k < c₁.inner.length ∧ k < c₂.inner.length
  programs : ρ.Relates (fun σ => Forall₂ (Program.Renamed σ)) (c₁.stack.take (k + 1))
    (c₂.stack.take (k + 1))

namespace Matches

theorem aside (h : Matches ρ k c₁ c₂) (h₁ : c₁.Aside c₁') (h₂ : c₂.Aside c₂') : Matches ρ k c₁' c₂' := by
  refine ⟨h.completes, fun p hp => ?_, ?_, ?_, ?_, ?_, ?_, ?_, ?_, fun σ hσ => ?_⟩
  · obtain ⟨hp₁, hp₂⟩ := h.earlier p hp
    exact ⟨hp₁.mono h₁.nextVar, hp₂.mono h₂.nextVar⟩
  · exact ⟨h₁.active.trans h.active.1, h₂.active.trans h.active.2⟩
  · rw [h₁.config, h₂.config, h.config]
  · rw [h₁.verbatim, h₂.verbatim, h.verbatim]
  · rw [h₁.gates, h₂.gates, h.gates]
  · rw [h₁.calibrations, h₂.calibrations, h.calibrations]
  · rw [h₁.gates]
    exact h.params
  · rw [h₁.inner, h₂.inner]
    exact h.deep
  · have hrests₁ := forall₂_take (k + 1) h₁.stack
    have hrests₂ := forall₂_take (k + 1) h₂.stack
    have hrel := h.programs σ hσ
    generalize c₁.stack.take (k + 1) = ps at hrel hrests₁
    generalize c₂.stack.take (k + 1) = qs at hrel hrests₂
    generalize c₁'.stack.take (k + 1) = ps' at hrests₁ ⊢
    generalize c₂'.stack.take (k + 1) = qs' at hrests₂ ⊢
    induction hrel generalizing ps' qs' with
    | nil =>
      cases hrests₁
      cases hrests₂
      exact .nil
    | cons hpq _ ih =>
      cases hrests₁ with
      | cons hp hps =>
        cases hrests₂ with
        | cons hq hqs => exact .cons (hp.renamed hpq hq) (ih _ hps _ hqs)

theorem current (h : Matches ρ k c₁ c₂) : ρ.Relates Program.Renamed c₁.current c₂.current := by
  intro σ hσ
  have hrel := h.programs σ hσ
  rw [stack_eq c₁, stack_eq c₂] at hrel
  exact (forall₂_cons.1 hrel).1

theorem below (h : Matches ρ k c₁ c₂) :
    ρ.Relates (fun σ => Forall₂ (Program.Renamed σ)) (c₁.stack.tail.take k) (c₂.stack.tail.take k) := by
  intro σ hσ
  have hrel := h.programs σ hσ
  rw [stack_eq c₁, stack_eq c₂] at hrel
  exact (forall₂_cons.1 hrel).2

theorem updateCurrent {f₁ f₂ : Program → Program} (h : Matches ρ k c₁ c₂)
    (hf : ρ.Relates Program.Renamed (f₁ c₁.current) (f₂ c₂.current)) :
    Matches ρ k (c₁.updateCurrent f₁) (c₂.updateCurrent f₂) := by
  refine ⟨h.completes, h.earlier, h.active, h.config, h.verbatim, h.gates, h.calibrations, h.params, ?_,
    fun σ hσ => ?_⟩
  · rw [length_inner_updateCurrent, length_inner_updateCurrent]
    exact h.deep
  · rw [stack_updateCurrent, stack_updateCurrent]
    exact .cons (hf σ hσ) (h.below σ hσ)

theorem enterProgram {p₁ p₂ : Program} (h : Matches ρ k c₁ c₂) (hp : ρ.Relates Program.Renamed p₁ p₂) :
    Matches ρ (k + 1) (c₁.enterProgram p₁) (c₂.enterProgram p₂) := by
  refine ⟨h.completes, h.earlier, h.active, h.config, h.verbatim, h.gates, h.calibrations, h.params, ?_,
    fun σ hσ => .cons (hp σ hσ) (h.programs σ hσ)⟩
  exact ⟨Nat.succ_lt_succ h.deep.1, Nat.succ_lt_succ h.deep.2⟩

theorem leaveProgram (h : Matches ρ (k + 1) c₁ c₂) : Matches ρ k c₁.leaveProgram c₂.leaveProgram := by
  have hstack : ∀ {c : Context}, k + 1 < c.inner.length → c.leaveProgram.stack = c.stack.tail := by
    intro c hc
    unfold Context.leaveProgram stack
    cases hi : c.inner with
    | nil => simp [hi] at hc
    | cons p ps => rfl
  obtain ⟨hdeep₁, hdeep₂⟩ := h.deep
  refine ⟨h.completes, h.earlier, h.active, h.config, h.verbatim, h.gates, h.calibrations, h.params, ?_, ?_⟩
  · simp only [Context.leaveProgram, length_tail]
    omega
  · rw [hstack hdeep₁, hstack hdeep₂]
    exact h.below

theorem enterGate {r : GateRecord} (h : Matches ρ k c₁ c₂) (hr : ∀ p ∈ r.params, ¬ IsGenerated p.name) :
    Matches ρ k (c₁.enterGate r) (c₂.enterGate r) := by
  refine ⟨h.completes, h.earlier, h.active, h.config, h.verbatim, congrArg (r :: ·) h.gates,
    h.calibrations, fun g hg => ?_, h.deep, h.programs⟩
  rcases mem_cons.1 hg with rfl | hg
  · exact hr
  · exact h.params g hg

theorem leaveGate (h : Matches ρ k c₁ c₂) : Matches ρ k c₁.leaveGate c₂.leaveGate :=
  ⟨h.completes, h.earlier, h.active, h.config, h.verbatim, congrArg List.tail h.gates,
    h.calibrations, fun g hg => h.params g (mem_of_mem_tail hg), h.deep, h.programs⟩

theorem enterCalibration (h : Matches ρ k c₁ c₂) (r₁ r₂ : CalibrationRecord) :
    Matches ρ k (c₁.enterCalibration r₁) (c₂.enterCalibration r₂) :=
  ⟨h.completes, h.earlier, h.active, h.config, h.verbatim, h.gates, congrArg Nat.succ h.calibrations,
    h.params, h.deep, h.programs⟩

theorem leaveCalibration (h : Matches ρ k c₁ c₂) : Matches ρ k c₁.leaveCalibration c₂.leaveCalibration := by
  refine ⟨h.completes, h.earlier, h.active, h.config, h.verbatim, h.gates, ?_, h.params, h.deep, h.programs⟩
  simp only [Context.leaveCalibration, length_tail, h.calibrations]

theorem fresh {kind : Kind} {stem : String} (h : Matches ρ k c₁ c₂) (hstem : nameStem? kind = some stem)
    (h₁ : 0 ≤ c₁.nextVar ∧ c₁.nextVar < Word.largest) (h₂ : 0 ≤ c₂.nextVar ∧ c₂.nextVar < Word.largest) :
    Matches ((generatedName stem c₁.nextVar, generatedName stem c₂.nextVar) :: ρ) k
      (c₁.giveOut stem) (c₂.giveOut stem) := by
  have hnew : ∀ {c : Context} {x : String}, 0 ≤ c.nextVar ∧ c.nextVar < Word.largest → c.Earlier x →
      x ≠ generatedName stem c.nextVar := by
    rintro c x hc ⟨kind', stem', n, hstem', rfl, hpos, hlt⟩ heq
    have := generatedName_inj hstem' hstem heq
    omega
  have hnext : ∀ {c : Context}, 0 ≤ c.nextVar ∧ c.nextVar < Word.largest →
      c.nextVar < (c.giveOut stem).nextVar := by
    intro c hc
    rw [nextVar_giveOut, Word.add_one hc]
    omega
  refine ⟨?_, fun p hp => ?_, h.active, h.config, h.verbatim, h.gates, h.calibrations, h.params, h.deep, ?_⟩
  · refine Pairing.completes_cons h.completes (isGenerated_generatedName hstem h₁.1)
      (isGenerated_generatedName hstem h₂.1) fun p hp => ?_
    obtain ⟨hp₁, hp₂⟩ := h.earlier p hp
    exact ⟨hnew h₁ hp₁, hnew h₂ hp₂⟩
  · rcases mem_cons.1 hp with rfl | hp
    · exact ⟨⟨kind, stem, _, hstem, rfl, h₁.1, hnext h₁⟩, ⟨kind, stem, _, hstem, rfl, h₂.1, hnext h₂⟩⟩
    · obtain ⟨hp₁, hp₂⟩ := h.earlier p hp
      exact ⟨hp₁.mono (Int.le_of_lt (hnext h₁)), hp₂.mono (Int.le_of_lt (hnext h₂))⟩
  · exact h.programs.mono (subset_cons_self ..)

theorem refusal (h : Matches ρ k c₁ c₂) (mode : Mode) : (c₂.refusal? mode).isSome = (c₁.refusal? mode).isSome := by
  have hcals := h.calibrations
  unfold refusal?
  rw [h.gates]
  cases c₁.gates <;> cases hc₁ : c₁.calibrations <;> cases hc₂ : c₂.calibrations <;>
    simp only [hc₁, hc₂, length_cons, length_nil, Nat.add_one_ne_zero, reduceCtorEq] at hcals <;>
    dsimp only <;> split <;> rfl

end Matches

end Context

/-! ### States and conversions -/

/-- The contexts match, and what is bound differs by the pairing. -/
structure State.Matches (ρ : Pairing) (k : Nat) (s₁ s₂ : State) : Prop where
  ctx : s₁.ctx.Matches ρ k s₂.ctx
  bindings : ρ.Relates Bindings.Renamed s₁.bindings s₂.bindings

theorem State.Matches.update {ρ : Pairing} {k k' : Nat} {s₁ s₂ : State} {c₁ c₂ : Context}
    (h : s₁.Matches ρ k s₂) (hc : c₁.Matches ρ k' c₂) :
    State.Matches ρ k' { s₁ with ctx := c₁ } { s₂ with ctx := c₂ } := ⟨hc, h.bindings⟩

namespace Convert
variable {α β : Type} {ρ ρ' : Pairing} {k : Nat} {m₁ m₂ : Convert α} {s₁ s₂ : State}

/-- Nobody can catch it. -/
def IsHard (r : Except Stop α) : Prop := ∃ stop, r = .error stop ∧ ∀ e, stop ≠ .error e

/-- Both leave the states as they are, and both stop or both give results that `Q` relates. -/
def Peeks (m₁ m₂ : Convert α) (s₁ s₂ : State) (Q : α → α → Prop) : Prop :=
  (m₁ s₁).2 = s₁ ∧ (m₂ s₂).2 = s₂ ∧ Outcomes Q (m₁ s₁).1 (m₂ s₂).1

def Alike (ρ : Pairing) (k : Nat) (m₁ m₂ : Convert α) (s₁ s₂ : State) (Q : Pairing → α → α → Prop) : Prop :=
  IsHard (m₁ s₁).1 ∨ IsHard (m₂ s₂).1 ∨
    ∃ ρ', ρ ⊆ ρ' ∧ (m₁ s₁).2.Matches ρ' k (m₂ s₂).2 ∧ Outcomes (Q ρ') (m₁ s₁).1 (m₂ s₂).1

/-- Alike from all states that match. -/
def Twin (m₁ m₂ : Convert α) (Q : Pairing → α → α → Prop) : Prop :=
  ∀ ρ k s₁ s₂, State.Matches ρ k s₁ s₂ → Alike ρ k m₁ m₂ s₁ s₂ Q

theorem not_isHard_ok (a : α) : ¬ IsHard (.ok a : Except Stop α) := by
  rintro ⟨_, heq, -⟩
  cases heq

/-! ### Readings -/

namespace Peeks
variable {P Q : α → α → Prop} {R : β → β → Prop} {f₁ f₂ : α → Convert β}

theorem pure {a b : α} (h : Q a b) : Peeks (pure a) (pure b) s₁ s₂ Q := ⟨rfl, rfl, .ok h⟩

theorem raise {e e' : Error} : Peeks (raise e) (raise e') s₁ s₂ Q := ⟨rfl, rfl, .error _ _⟩

theorem refuse {e e' : DomainError} : Peeks (refuse e) (refuse e') s₁ s₂ Q := ⟨rfl, rfl, .error _ _⟩

theorem mono (h : Peeks m₁ m₂ s₁ s₂ P) (hQ : ∀ a b, P a b → Q a b) : Peeks m₁ m₂ s₁ s₂ Q :=
  ⟨h.1, h.2.1, h.2.2.mono hQ⟩

/-- Both stop, or both go on from where they were. -/
theorem bind_apply (h : Peeks m₁ m₂ s₁ s₂ P) (f₁ f₂ : α → Convert β) :
    (∃ e e', (m₁ >>= f₁) s₁ = (.error e, s₁) ∧ (m₂ >>= f₂) s₂ = (.error e', s₂)) ∨
      ∃ a b, P a b ∧ (m₁ >>= f₁) s₁ = f₁ a s₁ ∧ (m₂ >>= f₂) s₂ = f₂ b s₂ := by
  obtain ⟨h₁, h₂, hout⟩ := h
  rcases hm₁ : m₁ s₁ with ⟨r₁, t₁⟩
  rcases hm₂ : m₂ s₂ with ⟨r₂, t₂⟩
  rw [hm₁] at h₁ hout
  rw [hm₂] at h₂ hout
  obtain rfl : t₁ = s₁ := h₁
  obtain rfl : t₂ = s₂ := h₂
  cases hout with
  | error e e' => exact .inl ⟨e, e', bind_of_error hm₁ f₁, bind_of_error hm₂ f₂⟩
  | ok hab => exact .inr ⟨_, _, hab, bind_of_ok hm₁ f₁, bind_of_ok hm₂ f₂⟩

theorem bind (h : Peeks m₁ m₂ s₁ s₂ P) (hf : ∀ a b, P a b → Peeks (f₁ a) (f₂ b) s₁ s₂ R) :
    Peeks (m₁ >>= f₁) (m₂ >>= f₂) s₁ s₂ R := by
  unfold Peeks
  rcases h.bind_apply f₁ f₂ with ⟨e, e', h₁, h₂⟩ | ⟨a, b, hab, h₁, h₂⟩
  · rw [h₁, h₂]
    exact ⟨rfl, rfl, .error e e'⟩
  · rw [h₁, h₂]
    exact hf a b hab

theorem map {g₁ g₂ : α → β} (h : Peeks m₁ m₂ s₁ s₂ P) (hg : ∀ a b, P a b → R (g₁ a) (g₂ b)) :
    Peeks (g₁ <$> m₁) (g₂ <$> m₂) s₁ s₂ R := by
  rw [map_eq_pure_bind, map_eq_pure_bind]
  exact h.bind fun a b hab => .pure (hg a b hab)

theorem mapM {γ : Type} {S : γ → γ → Prop} {g₁ g₂ : γ → Convert α} {as bs : List γ}
    (h : Forall₂ S as bs) (hg : ∀ a b, S a b → Peeks (g₁ a) (g₂ b) s₁ s₂ Q) :
    Peeks (as.mapM g₁) (bs.mapM g₂) s₁ s₂ (Forall₂ Q) := by
  induction h with
  | nil => exact .pure .nil
  | cons hab _ ih =>
    rw [mapM_cons, mapM_cons]
    exact (hg _ _ hab).bind fun _ _ hcd => ih.bind fun _ _ hcds => .pure (.cons hcd hcds)

theorem liftFault {x y : Except Fault α} (h : Outcomes Q x y) : Peeks (liftFault x) (liftFault y) s₁ s₂ Q := by
  cases h with
  | error e e' => exact ⟨rfl, rfl, .error _ _⟩
  | ok h => exact .pure h

theorem liftOperand {x y : Except ExprError α} (h : Outcomes Q x y) :
    Peeks (liftOperand x) (liftOperand y) s₁ s₂ Q := by
  cases h with
  | error e e' => exact ⟨rfl, rfl, .error _ _⟩
  | ok h => exact .pure h

theorem liftDomain {x y : Except DomainError α} (h : Outcomes Q x y) :
    Peeks (liftDomain x) (liftDomain y) s₁ s₂ Q := by
  cases h with
  | error e e' => exact ⟨rfl, rfl, .error _ _⟩
  | ok h => exact .pure h

end Peeks

/-! ### Conversions -/

namespace Alike
variable {P Q : Pairing → α → α → Prop} {R : Pairing → β → β → Prop} {f₁ f₂ : α → Convert β}

theorem mono (h : Alike ρ k m₁ m₂ s₁ s₂ P) (hQ : ∀ ρ' a b, ρ ⊆ ρ' → P ρ' a b → Q ρ' a b) :
    Alike ρ k m₁ m₂ s₁ s₂ Q := by
  rcases h with h | h | ⟨ρ', hρ, h, hout⟩
  · exact .inl h
  · exact .inr (.inl h)
  · exact .inr (.inr ⟨ρ', hρ, h, hout.mono fun a b => hQ ρ' a b hρ⟩)

theorem since (h : Alike ρ' k m₁ m₂ s₁ s₂ Q) (hρ : ρ ⊆ ρ') : Alike ρ k m₁ m₂ s₁ s₂ Q := by
  rcases h with h | h | ⟨ρ'', hρ', h⟩
  · exact .inl h
  · exact .inr (.inl h)
  · exact .inr (.inr ⟨ρ'', List.Subset.trans hρ hρ', h⟩)

theorem of_peeks {S : α → α → Prop} (h : s₁.Matches ρ k s₂) (hm : Peeks m₁ m₂ s₁ s₂ S)
    (hQ : ∀ a b, S a b → Q ρ a b) : Alike ρ k m₁ m₂ s₁ s₂ Q := by
  obtain ⟨h₁, h₂, hout⟩ := hm
  exact .inr (.inr ⟨ρ, List.Subset.refl ρ, by rwa [h₁, h₂], hout.mono hQ⟩)

theorem pure {a b : α} (h : s₁.Matches ρ k s₂) (hQ : Q ρ a b) : Alike ρ k (pure a) (pure b) s₁ s₂ Q :=
  of_peeks h (S := Q ρ) (.pure hQ) fun _ _ h => h

theorem stop {e e' : Stop} (h : s₁.Matches ρ k s₂) : Alike ρ k (throw e) (throw e') s₁ s₂ Q :=
  of_peeks h (S := Q ρ) ⟨rfl, rfl, .error _ _⟩ fun _ _ h => h

theorem refuse {e e' : DomainError} (h : s₁.Matches ρ k s₂) : Alike ρ k (refuse e) (refuse e') s₁ s₂ Q := stop h

theorem bind (h : Alike ρ k m₁ m₂ s₁ s₂ P)
    (hf : ∀ ρ' a b t₁ t₂, ρ ⊆ ρ' → State.Matches ρ' k t₁ t₂ → P ρ' a b → Alike ρ' k (f₁ a) (f₂ b) t₁ t₂ R) :
    Alike ρ k (m₁ >>= f₁) (m₂ >>= f₂) s₁ s₂ R := by
  unfold Alike at h
  rcases hm₁ : m₁ s₁ with ⟨r₁, t₁⟩
  rcases hm₂ : m₂ s₂ with ⟨r₂, t₂⟩
  rw [hm₁, hm₂] at h
  rcases h with ⟨stop, rfl, hstop⟩ | ⟨stop, rfl, hstop⟩ | ⟨ρ', hρ, h, hout⟩
  · refine .inl ?_
    rw [bind_of_error hm₁ f₁]
    exact ⟨stop, rfl, hstop⟩
  · refine .inr (.inl ?_)
    rw [bind_of_error hm₂ f₂]
    exact ⟨stop, rfl, hstop⟩
  · cases hout with
    | error e e' =>
      refine .inr (.inr ⟨ρ', hρ, ?_⟩)
      rw [bind_of_error hm₁ f₁, bind_of_error hm₂ f₂]
      exact ⟨h, .error e e'⟩
    | ok hab =>
      have hrest := (hf ρ' _ _ t₁ t₂ hρ h hab).since hρ
      unfold Alike at hrest ⊢
      rwa [bind_of_ok hm₁ f₁, bind_of_ok hm₂ f₂]

theorem seq {S : α → α → Prop} (h : s₁.Matches ρ k s₂) (hm : Peeks m₁ m₂ s₁ s₂ S)
    (hf : ∀ a b, S a b → Alike ρ k (f₁ a) (f₂ b) s₁ s₂ R) :
    Alike ρ k (m₁ >>= f₁) (m₂ >>= f₂) s₁ s₂ R := by
  unfold Alike
  rcases hm.bind_apply f₁ f₂ with ⟨e, e', h₁, h₂⟩ | ⟨a, b, hab, h₁, h₂⟩
  · rw [h₁, h₂]
    exact .inr (.inr ⟨ρ, List.Subset.refl ρ, h, .error e e'⟩)
  · rw [h₁, h₂]
    exact hf a b hab

theorem refuseThen {e e' : DomainError} (h : s₁.Matches ρ k s₂) :
    Alike ρ k (Convert.refuse e >>= f₁) (Convert.refuse e' >>= f₂) s₁ s₂ R :=
  .seq h (S := fun _ _ => False) .refuse fun _ _ => False.elim

theorem context {f₁ f₂ : Context → Convert β} (h : Alike ρ k (f₁ s₁.ctx) (f₂ s₂.ctx) s₁ s₂ R) :
    Alike ρ k (context >>= f₁) (context >>= f₂) s₁ s₂ R := h

theorem updateThen {g₁ g₂ : Context → Context} {f₁ f₂ : Unit → Convert β}
    (h : Alike ρ k (f₁ ()) (f₂ ()) { s₁ with ctx := g₁ s₁.ctx } { s₂ with ctx := g₂ s₂.ctx } R) :
    Alike ρ k (updateContext g₁ >>= f₁) (updateContext g₂ >>= f₂) s₁ s₂ R := h

theorem update {g₁ g₂ : Context → Context} (h : s₁.Matches ρ k s₂) (hg : (g₁ s₁.ctx).Matches ρ k (g₂ s₂.ctx)) :
    Alike ρ k (updateContext g₁) (updateContext g₂) s₁ s₂ Pairing.Done :=
  .inr (.inr ⟨ρ, List.Subset.refl ρ, h.update hg, .ok trivial⟩)

theorem asides {a b : α} {c₁ c₂ : Context} (h : s₁.Matches ρ k s₂)
    (h₁ : m₁ s₁ = (.ok a, { s₁ with ctx := c₁ })) (hc₁ : s₁.ctx.Aside c₁)
    (h₂ : m₂ s₂ = (.ok b, { s₂ with ctx := c₂ })) (hc₂ : s₂.ctx.Aside c₂) (hQ : Q ρ a b) :
    Alike ρ k m₁ m₂ s₁ s₂ Q := by
  refine .inr (.inr ⟨ρ, List.Subset.refl ρ, ?_⟩)
  rw [h₁, h₂]
  exact ⟨h.update (h.ctx.aside hc₁ hc₂), .ok hQ⟩

theorem emit {st₁ st₂ : Stmt} (h : s₁.Matches ρ k s₂) (hst : ρ.Relates Stmt.Renamed st₁ st₂) :
    Alike ρ k (emit st₁) (emit st₂) s₁ s₂ Pairing.Done :=
  update h (h.ctx.updateCurrent fun σ hσ => (h.ctx.current σ hσ).add (hst σ hσ))

theorem mapError {g₁ g₂ : Error → Error} (h : Alike ρ k m₁ m₂ s₁ s₂ Q) :
    Alike ρ k (mapError g₁ m₁) (mapError g₂ m₂) s₁ s₂ Q := by
  have hhard : ∀ {g : Error → Error} {m : Convert α} {s : State}, IsHard (m s).1 →
      IsHard (Convert.mapError g m s).1 := by
    rintro g m s ⟨stop, hm, hstop⟩
    rw [mapError_of_ne (Prod.ext hm rfl) fun e he => hstop e (Except.error.inj he)]
    exact ⟨stop, rfl, hstop⟩
  have hstate : ∀ (g : Error → Error) (m : Convert α) (s : State),
      (Convert.mapError g m s).2 = (m s).2 := fun g m s => (mapError_apply g m s).1
  rcases h with h | h | ⟨ρ', hρ, h, hout⟩
  · exact .inl (hhard h)
  · exact .inr (.inl (hhard h))
  · refine .inr (.inr ⟨ρ', hρ, by rwa [hstate, hstate], ?_⟩)
    generalize hr₁ : (m₁ s₁).1 = r₁ at hout
    generalize hr₂ : (m₂ s₂).1 = r₂ at hout
    cases hout with
    | error e e' =>
      have herror : ∀ {g : Error → Error} {m : Convert α} {s : State} {e : Stop}, (m s).1 = .error e →
          ∃ e', (Convert.mapError g m s).1 = .error e' := by
        intro g m s e hm
        cases hr : (Convert.mapError g m s).1 with
        | error e' => exact ⟨e', rfl⟩
        | ok a =>
          rw [((mapError_apply g m s).2 a).1 hr] at hm
          cases hm
      obtain ⟨_, h₁⟩ := herror (g := g₁) hr₁
      obtain ⟨_, h₂⟩ := herror (g := g₂) hr₂
      rw [h₁, h₂]
      exact .error _ _
    | ok hab =>
      rw [((mapError_apply g₁ m₁ s₁).2 _).2 hr₁, ((mapError_apply g₂ m₂ s₂).2 _).2 hr₂]
      exact .ok hab

theorem bracketContext {j : Nat} {enter₁ enter₂ leave : Context → Context}
    (h : Alike ρ j m₁ m₂ { s₁ with ctx := enter₁ s₁.ctx } { s₂ with ctx := enter₂ s₂.ctx } Q)
    (hleave : ∀ ρ' c₁ c₂, Context.Matches ρ' j c₁ c₂ → Context.Matches ρ' k (leave c₁) (leave c₂)) :
    Alike ρ k (bracketContext enter₁ leave m₁) (bracketContext enter₂ leave m₂) s₁ s₂ Q := by
  rcases h with h | h | ⟨ρ', hρ, h, hout⟩
  · exact .inl h
  · exact .inr (.inl h)
  · exact .inr (.inr ⟨ρ', hρ, h.update (hleave ρ' _ _ h.ctx), hout⟩)

theorem withBindings {b₁ b₂ : Bindings} (h : s₁.Matches ρ k s₂)
    (hm : Alike ρ k m₁ m₂ { s₁ with bindings := b₁ } { s₂ with bindings := b₂ } Q) :
    Alike ρ k (withBindings b₁ m₁) (withBindings b₂ m₂) s₁ s₂ Q := by
  rcases hm with hm | hm | ⟨ρ', hρ, hm, hout⟩
  · exact .inl hm
  · exact .inr (.inl hm)
  · exact .inr (.inr ⟨ρ', hρ, ⟨hm.ctx, h.bindings.mono hρ⟩, hout⟩)

end Alike

theorem alike_block {m₁ m₂ : Convert Unit} (h : s₁.Matches ρ k s₂)
    (hm : ∀ t₁ t₂, State.Matches ρ k t₁ t₂ → Alike ρ k m₁ m₂ t₁ t₂ Pairing.Done) :
    Alike ρ k (block m₁) (block m₂) s₁ s₂ fun ρ => ρ.Relates Stmt.RenamedAll := by
  have hopen := h.ctx.updateCurrent fun σ hσ => (h.ctx.current σ hσ).openBlock
  refine .bracketContext (j := k) ?_ fun ρ' c₁ c₂ hc =>
    hc.updateCurrent fun σ hσ => (hc.current σ hσ).closeBlock
  refine (hm _ _ (h.update hopen)).bind fun ρ' _ _ t₁ t₂ _ ht _ => .context (.pure ht ?_)
  exact fun σ hσ => (ht.ctx.current σ hσ).innermost

end Convert

end QasmStudio

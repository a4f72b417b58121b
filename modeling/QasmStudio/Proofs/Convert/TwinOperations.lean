import QasmStudio.Proofs.Convert.Pairing

/-!
# Operations that run twice

From states that match, an operation without bodies does in one run what it does in the other, up to the
names that it generates on the way. Whatever it decides, it decides by types, by data, by the configuration,
by the definition in progress or by comparing names, and on all of that the two runs agree.
-/

namespace QasmStudio

open Pairing List

mutual
theorem Expr.rename_of_over {σ : String → String} : ∀ {e : Expr}, e.Over (fun _ => False) → e.rename σ = e
  | .index _ _, h => by rw [rename, rename_of_over h.1, rename_of_over h.2]
  | .binary _ _ _, h => by rw [rename, rename_of_over h.1, rename_of_over h.2]
  | .unary _ x, h => by rw [rename, rename_of_over (e := x) h]
  | .call _ args _, h => by rw [rename, renameAll_of_over (l := args) h]
  | .measure q, h => by rw [rename, rename_of_over (e := q) h]
  | .range _ _ none, h => by rw [rename, rename_of_over h.1, rename_of_over h.2]
  | .range _ _ (some _), h => by
    rw [rename, rename_of_over h.1, rename_of_over h.2.1, rename_of_over h.2.2]
  | .array elems _, h => by rw [rename, renameAll_of_over (l := elems) h]
  | .int _, _ | .float _, _ | .angle _, _ | .bool _, _ | .bits _, _ | .duration _, _ | .physical _, _
  | .frame _, _ | .waveform _, _ => rfl

theorem Expr.renameAll_of_over {σ : String → String} : ∀ {l : List Expr},
    Expr.OverAll (fun _ => False) l → Expr.renameAll σ l = l
  | [], _ => rfl
  | _ :: _, h => by rw [renameAll, rename_of_over h.1, renameAll_of_over h.2]
end

/-! ### Decisions -/

section fixed
variable {σ : String → String} (hσ : Function.Injective σ)
include hσ

theorem any_name_rename {vs : List Var} (h : ∀ v ∈ vs, σ v.name = v.name) (name : String) :
    vs.any (·.name == σ name) = vs.any (·.name == name) := by
  rw [Bool.eq_iff_iff, any_eq_true, any_eq_true]
  refine exists_congr fun v => and_congr_right fun hv => ?_
  rw [beq_iff_eq, beq_iff_eq, ← hσ.eq_iff (a := v.name) (b := name), h v hv]

variable {r : GateRecord} (hr : ∀ p ∈ r.params, σ p.name = p.name)
include hr

omit hσ in
theorem GateRecord.name_of_mem {q : GateParam → Bool} {v : Var}
    (hv : v ∈ (r.params.filter q).map GateParam.var) : σ v.name = v.name := by
  obtain ⟨p, hp, rfl⟩ := mem_map.1 hv
  have hname := hr p (mem_filter.1 hp).1
  cases p <;> exact hname

theorem GateRecord.hasQubit_rename (e : Expr) : r.hasQubit (e.rename σ) = r.hasQubit e := by
  cases e with
  | var name ty init =>
    rw [Expr.rename_var]
    exact any_name_rename hσ (fun _ hv => name_of_mem hr hv) name
  | range start stop step => cases step <;> rfl
  | _ => rfl

theorem GateRecord.hasAngle_rename (name : String) : r.hasAngle (σ name) = r.hasAngle name :=
  any_name_rename hσ (fun _ hv => name_of_mem hr hv) name

end fixed

namespace Context

theorem foreign_rename {c : Context} {σ : String → String} (hσ : Function.Injective σ)
    (hc : ∀ g ∈ c.gates, ∀ p ∈ g.params, σ p.name = p.name) (qs as : List Expr) :
    (c.foreign? (qs.map (Expr.rename σ)) (as.map (Expr.rename σ))).isSome = (c.foreign? qs as).isSome := by
  unfold foreign?
  cases hg : c.gates with
  | nil => rfl
  | cons r rs =>
    have hr := hc r (hg ▸ mem_cons_self ..)
    have hqubit : (fun e => !r.hasQubit e) ∘ Expr.rename σ = fun e => !r.hasQubit e :=
      funext fun e => congrArg not (r.hasQubit_rename hσ hr e)
    simp only [List.find?_map, hqubit]
    cases qs.find? (fun e => !r.hasQubit e) with
    | some q => rfl
    | none =>
      simp only [Option.map_none, findSome?_map, isSome_findSome?]
      refine congrArg as.any (funext fun e => ?_)
      cases e with
      | var name ty init =>
        simp only [Function.comp, Expr.rename_var, r.hasAngle_rename hσ hr]
        split <;> rfl
      | range start stop step => cases step <;> rfl
      | _ => rfl

theorem resolve_expr {c : Context} {e : Expr} (h : ∀ n, e ≠ .physical n) : c.resolve (.expr e) = match e.ty with
      | some t =>
        if t.kind = .qubit then .ok ⟨e, none⟩
        else if t.kind = .int then
          match c.config.declared? with
          | some _ => .ok ⟨.index registerExpr e, none⟩
          | none => .error .unknownQubitCount
        else .error (badQubit (.notQubitExpr (some t) e.render))
      | none => .error (badQubit (.notQubitExpr none e.render)) := by
  cases e with
  | physical n => exact absurd rfl (h n)
  | _ => rfl

end Context

def Target.rename (σ : String → String) (t : Target) : Target := ⟨t.expr.rename σ, t.index⟩

theorem Context.outcomes_resolve {c₁ c₂ : Context} {σ : String → String} (hv : c₂.verbatim = c₁.verbatim)
    (hf : c₂.config = c₁.config) (hreg : registerExpr.rename σ = registerExpr) {v w : Value}
    (h : v.Renamed σ w) : Outcomes (fun t u => u = t.rename σ) (c₁.resolve v) (c₂.resolve w) := by
  rw [resolve_congr hv hf]
  cases v with
  | int f n =>
    obtain rfl : w = .int f n := h
    cases f with
    | word =>
      simp only [resolve]
      split
      · exact .error _ _
      · split
        · exact .ok rfl
        · exact .ok (by simp [Target.rename, Expr.rename, hreg])
    | _ => exact .error _ _
  | string s =>
    obtain rfl : w = .string s := h
    simp only [resolve]
    split
    · exact .ok rfl
    · exact .error _ _
  | expr e =>
    obtain rfl : w = .expr (e.rename σ) := h
    by_cases hphysical : ∃ n, e = .physical n
    · obtain ⟨n, rfl⟩ := hphysical
      exact .ok rfl
    · have he : ∀ n, e ≠ .physical n := fun n hn => hphysical ⟨n, hn⟩
      have he' : ∀ n, e.rename σ ≠ .physical n := by
        intro n hn
        cases e with
        | physical m => exact he m rfl
        | var name ty init => cases init <;> cases hn
        | range start stop step => cases step <;> cases hn
        | _ => cases hn
      rw [resolve_expr he, resolve_expr he', Expr.ty_rename]
      cases e.ty with
      | none => exact .error _ _
      | some t =>
        dsimp only
        split
        · exact .ok rfl
        · split
          · cases c₁.config.declared? with
            | none => exact .error _ _
            | some n => exact .ok (by rw [Target.rename, Expr.rename, hreg])
          · exact .error _ _
  | list shape items =>
    obtain ⟨_, rfl, -⟩ := h
    exact .error _ _
  | program p =>
    obtain ⟨_, rfl⟩ := h
    exact .error _ _
  | draft n p =>
    obtain ⟨_, _, rfl⟩ := h
    exact .error _ _
  | none | bool | float | float32 | duration =>
    subst h
    exact .error _ _

/-- How two values differ that differ by a pairing. -/
inductive Value.Paired (ρ : Pairing) : Value → Value → Prop
  | expr {e e' : Expr} (h : ρ.Exprs e e') : Paired ρ (.expr e) (.expr e')
  | list {shape : ListShape} {us vs : List Value} (h : Forall₂ ρ.Values us vs) :
      Paired ρ (.list shape us) (.list shape vs)
  | program (p q : BuiltProgram) : Paired ρ (.program p) (.program q)
  | draft (m n : Nat) (p q : BuiltProgram) : Paired ρ (.draft m p) (.draft n q)
  | none : Paired ρ .none .none
  | bool (b : Bool) : Paired ρ (.bool b) (.bool b)
  | int (f : IntFormat) (n : Int) : Paired ρ (.int f n) (.int f n)
  | float (x : Float) : Paired ρ (.float x) (.float x)
  | float32 (x : Float32) : Paired ρ (.float32 x) (.float32 x)
  | string (s : String) : Paired ρ (.string s) (.string s)
  | duration (ns : Int) : Paired ρ (.duration ns) (.duration ns)

section paired
variable {ρ : Pairing} {k : Nat} {s₁ s₂ : State} (hs : s₁.Matches ρ k s₂)
include hs

theorem State.Matches.paired {u v : Value} (h : ρ.Values u v) : u.Paired ρ v := by
  obtain ⟨σ, hσ⟩ := hs.ctx.completes
  have hself := h σ hσ
  cases u with
  | expr e =>
    obtain rfl : v = .expr (e.rename σ) := hself
    exact .expr fun τ hτ => Value.expr.inj (h τ hτ)
  | list shape us =>
    obtain ⟨vs, rfl, -⟩ := hself
    refine .list ((relates_forall₂ hs.ctx.completes).1 fun τ hτ => ?_)
    obtain ⟨ws, heq, hws⟩ := h τ hτ
    cases heq
    exact Value.renamedAll_iff.1 hws
  | program p =>
    obtain ⟨q, rfl⟩ := hself
    exact .program p q
  | draft n p =>
    obtain ⟨m, q, rfl⟩ := hself
    exact .draft n m p q
  | none | bool | int | float | float32 | string | duration =>
    subst hself
    constructor

theorem State.Matches.ty {e e' : Expr} (he : ρ.Exprs e e') : e'.ty = e.ty := by
  obtain ⟨σ, hσ⟩ := hs.ctx.completes
  rw [he σ hσ, Expr.ty_rename]

end paired

def Value.isPlain : Value → Bool
  | .expr _ | .list .. | .program _ | .draft .. => false
  | _ => true

theorem Value.Paired.plain {ρ : Pairing} {u v : Value} (h : u.Paired ρ v) :
    u = v ∨ u.isPlain = false ∧ v.isPlain = false := by
  cases h with
  | expr | list | program | draft => exact .inr ⟨rfl, rfl⟩
  | _ => exact .inl rfl

theorem data_of_not_plain {a b : Value} (h : a.isPlain = false ∨ b.isPlain = false) (c : Comparison)
    (op : Arithmetic) : (∃ e, c.data a b = .error e) ∧ ∃ e, op.data a b = .error e := by
  rcases h with h | h
  · cases a with
    | expr | list | program | draft => exact ⟨⟨_, rfl⟩, _, rfl⟩
    | _ => cases h
  · cases b with
    | expr | list | program | draft =>
      cases a with
      | int f n => cases f <;> exact ⟨⟨_, rfl⟩, _, rfl⟩
      | _ => exact ⟨⟨_, rfl⟩, _, rfl⟩
    | _ => cases h

theorem Arithmetic.data_renamed (op : Arithmetic) {a b v : Value} (h : op.data a b = .ok v)
    (σ : String → String) : v.Renamed σ v := by
  unfold Arithmetic.data at h
  split at h
  · rename_i m n
    cases hw : op.words m n <;> rw [hw] at h <;> cases h
    rfl
  · split at h
    · cases h
      rfl
    · cases h

section data
variable {ρ : Pairing} {a a' b b' : Value} (ha : a.Paired ρ a') (hb : b.Paired ρ b')
include ha hb

theorem outcomes_of_plain {ε γ : Type} {f : Value → Value → Except ε γ} {R : γ → γ → Prop}
    (hf : ∀ a b, a.isPlain = false ∨ b.isPlain = false → ∃ e, f a b = .error e)
    (hR : ∀ c, f a b = .ok c → R c c) : Outcomes R (f a b) (f a' b') := by
  rcases ha.plain with rfl | ⟨h, h'⟩
  · rcases hb.plain with rfl | ⟨h, h'⟩
    · cases hab : f a b with
      | error e => exact .error e e
      | ok c => exact .ok (hR c hab)
    · obtain ⟨e, he⟩ := hf a b (.inr h)
      obtain ⟨e', he'⟩ := hf a b' (.inr h')
      rw [he, he']
      exact .error e e'
  · obtain ⟨e, he⟩ := hf a b (.inl h)
    obtain ⟨e', he'⟩ := hf a' b' (.inl h')
    rw [he, he']
    exact .error e e'

theorem Comparison.outcomes_data (c : Comparison) : Outcomes Eq (c.data a b) (c.data a' b') :=
  outcomes_of_plain ha hb (fun _ _ h => (data_of_not_plain h c .add).1) fun _ _ => rfl

theorem Arithmetic.outcomes_data (op : Arithmetic) : Outcomes ρ.Values (op.data a b) (op.data a' b') :=
  outcomes_of_plain ha hb (fun _ _ h => (data_of_not_plain h .eq op).2) fun _ h σ _ => op.data_renamed h σ

end data

namespace Convert
variable {ρ : Pairing} {k : Nat} {s₁ s₂ : State}

/-! ### Checks and operands -/

theorem peeks_liftFault {α : Type} (x : Except Fault α) : Peeks (liftFault x) (liftFault x) s₁ s₂ Eq := by
  cases x with
  | error f => exact .liftFault (.error f f)
  | ok a => exact .pure rfl

theorem not_generated_of_mem {os : List Operand} {n : String} (ho : ∀ o ∈ os, ∀ n ∈ o.names, ¬ IsGenerated n)
    (hn : n ∈ Operand.namesAll os) : ¬ IsGenerated n := by
  obtain ⟨o, hos, hno⟩ := Operand.mem_namesAll.1 hn
  exact ho o hos n hno

section peeks
variable (h : s₁.Matches ρ k s₂)
include h

theorem peeks_isActive : Peeks (isActive .own) (isActive .own) s₁ s₂ (fun a b => a = true ∧ b = true) := by
  refine ⟨rfl, rfl, .ok ⟨?_, ?_⟩⟩
  · simp [handed?, h.ctx.active.1]
  · simp [handed?, h.ctx.active.2]

theorem peeks_requireActive (operation : String) :
    Peeks (requireActive .own operation) (requireActive .own operation) s₁ s₂ (fun _ _ => True) := by
  refine (peeks_isActive h).bind ?_
  rintro a b ⟨rfl, rfl⟩
  exact .pure trivial

theorem peeks_allow (mode : Mode) : Peeks (allow mode) (allow mode) s₁ s₂ (fun _ _ => True) := by
  have hsame := h.ctx.refusal mode
  have hcontext : Peeks context context s₁ s₂ (fun c c' => c = s₁.ctx ∧ c' = s₂.ctx) := ⟨rfl, rfl, .ok ⟨rfl, rfl⟩⟩
  refine hcontext.bind fun c c' hc => ?_
  obtain ⟨rfl, rfl⟩ := hc
  cases h₁ : s₁.ctx.refusal? mode <;> cases h₂ : s₂.ctx.refusal? mode <;> rw [h₁, h₂] at hsame
  · exact .pure trivial
  · cases hsame
  · cases hsame
  · exact .refuse

theorem peeks_requireClassical (operation : String) :
    Peeks (requireClassical .own operation) (requireClassical .own operation) s₁ s₂ (fun _ _ => True) :=
  (peeks_requireActive h operation).bind fun _ _ _ => peeks_allow h .classical

theorem peeks_value {o : Operand} (ho : ∀ n ∈ o.names, ¬ IsGenerated n) :
    Peeks (value o) (value o) s₁ s₂ ρ.Values := by
  refine .liftOperand (relates_outcomes h.ctx.completes fun σ hσ => ?_)
  exact o.eval_renamed (h.bindings σ hσ) fun n hn => hσ.ordinary n (ho n hn)

theorem peeks_values {os : List Operand} (ho : ∀ o ∈ os, ∀ n ∈ o.names, ¬ IsGenerated n) :
    Peeks (values os) (values os) s₁ s₂ (Forall₂ ρ.Values) := by
  refine .liftOperand ((relates_outcomes h.ctx.completes fun σ hσ => ?_).mono fun _ _ =>
    (relates_forall₂ h.ctx.completes).1)
  exact Operand.evals_renamed (h.bindings σ hσ) os fun n hn => hσ.ordinary n (not_generated_of_mem ho hn)

theorem peeks_exprs {os : List Operand} (ho : ∀ o ∈ os, ∀ n ∈ o.names, ¬ IsGenerated n) :
    Peeks (exprs os) (exprs os) s₁ s₂ (ρ.Relates Expr.RenamedAll) := by
  refine .liftOperand (relates_outcomes h.ctx.completes fun σ hσ => ?_)
  exact Operand.exprs_renamed (h.bindings σ hσ) os fun n hn => hσ.ordinary n (not_generated_of_mem ho hn)

variable {v w : Value} (hv : ρ.Values v w)
include hv

theorem outcomes_toExpr : Outcomes ρ.Exprs v.toExpr w.toExpr :=
  relates_outcomes h.ctx.completes fun σ hσ => .of_eq_map (Value.toExpr_renamed (hv σ hσ))

theorem peeks_expression : Peeks (expression v) (expression w) s₁ s₂ ρ.Exprs := by
  unfold expression
  have hout := outcomes_toExpr h hv
  generalize v.toExpr = x at hout ⊢
  generalize w.toExpr = y at hout ⊢
  cases hout with
  | error e e' => exact .raise
  | ok he => exact .pure he

theorem peeks_conditionExpr : Peeks (conditionExpr v) (conditionExpr w) s₁ s₂ ρ.Exprs := by
  cases h.paired hv with
  | bool b => exact .pure fun _ _ => rfl
  | @expr e e' he =>
    simp only [conditionExpr, h.ty he]
    split
    · exact .pure he
    · exact .refuse
  | _ => exact .refuse

theorem peeks_resolve : Peeks (liftDomain (s₁.ctx.resolve v)) (liftDomain (s₂.ctx.resolve w)) s₁ s₂
    (ρ.Relates fun σ t u => u = Target.rename σ t) :=
  .liftDomain (relates_outcomes h.ctx.completes fun σ hσ =>
    Context.outcomes_resolve h.ctx.verbatim h.ctx.config hσ.registerExpr (hv σ hσ))

theorem peeks_angleOperand : Peeks (angleOperand v) (angleOperand w) s₁ s₂ ρ.Exprs := by
  obtain ⟨σ, hσ⟩ := h.ctx.completes
  unfold angleOperand
  rw [Value.toFloat?_renamed (hv σ hσ)]
  cases v.toFloat? with
  | some x => exact .pure fun _ _ => rfl
  | none =>
    refine (peeks_expression h hv).bind fun e e' he => ?_
    rw [h.ty he]
    cases e.ty with
    | none => exact .pure he
    | some t =>
      dsimp only
      split
      · exact .pure he
      · exact .refuse

end peeks

theorem relates_targets {ts us : List Target} (h : ρ.Relates (fun σ ts us => us = ts.map (Target.rename σ)) ts us) :
    ρ.Relates Expr.RenamedAll (ts.map (·.expr)) (us.map (·.expr)) := by
  intro σ hσ
  rw [h σ hσ, Expr.RenamedAll, map_map, map_map]
  rfl

theorem peeks_resolveAll (h : s₁.Matches ρ k s₂) {vs ws : List Value}
    (hv : Forall₂ ρ.Values vs ws) : Peeks (resolveAll vs) (resolveAll ws) s₁ s₂
      (ρ.Relates fun σ ts us => us = ts.map (Target.rename σ)) := by
  refine .liftDomain (relates_outcomes h.ctx.completes fun σ hσ => ?_)
  unfold Context.resolveAll
  induction hv with
  | nil => exact .ok rfl
  | cons hvw _ ih =>
    rw [mapM_cons, mapM_cons]
    refine (Context.outcomes_resolve h.ctx.verbatim h.ctx.config hσ.registerExpr (hvw σ hσ)).bind ?_
    rintro t _ rfl
    refine ih.bind ?_
    rintro ts _ rfl
    exact .ok rfl

theorem peeks_angleOperands (h : s₁.Matches ρ k s₂) {vs ws : List Value} (hv : Forall₂ ρ.Values vs ws) :
    Peeks (vs.mapM angleOperand) (ws.mapM angleOperand) s₁ s₂ (ρ.Relates Expr.RenamedAll) :=
  (Peeks.mapM hv fun _ _ hvw => peeks_angleOperand h hvw).mono fun _ _ => Expr.renamedAll_of_forall₂

/-- The operands of a gate are foreign to both definitions in progress or to none. -/
theorem foreign_cases {qs₁ qs₂ as₁ as₂ : List Expr} (h : s₁.Matches ρ k s₂)
    (hq : ρ.Relates Expr.RenamedAll qs₁ qs₂) (ha : ρ.Relates Expr.RenamedAll as₁ as₂) :
    (s₁.ctx.foreign? qs₁ as₁ = none ∧ s₂.ctx.foreign? qs₂ as₂ = none) ∨
      ∃ e e', s₁.ctx.foreign? qs₁ as₁ = some e ∧ s₂.ctx.foreign? qs₂ as₂ = some e' := by
  obtain ⟨σ, hσ⟩ := h.ctx.completes
  have hsame := Context.foreign_rename (c := s₁.ctx) σ.injective
    (fun g hg p hp => hσ.ordinary _ (h.ctx.params g hg p hp)) qs₁ as₁
  rw [← hq σ hσ, ← ha σ hσ, ← Context.foreign_congr h.ctx.gates] at hsame
  cases h₁ : s₁.ctx.foreign? qs₁ as₁ <;> cases h₂ : s₂.ctx.foreign? qs₂ as₂ <;> rw [h₁, h₂] at hsame
  · exact .inl ⟨rfl, rfl⟩
  · cases hsame
  · cases hsame
  · exact .inr ⟨_, _, rfl, rfl⟩

/-! ### Names and variables -/

/-- Another name can be generated in both runs. -/
def Room (s₁ s₂ : State) : Prop :=
  (0 ≤ s₁.ctx.nextVar ∧ s₁.ctx.nextVar < Word.largest) ∧ 0 ≤ s₂.ctx.nextVar ∧ s₂.ctx.nextVar < Word.largest

theorem alike_freshName (h : s₁.Matches ρ k s₂) (hn : Room s₁ s₂) (kind : Kind) :
    Alike ρ k (freshName kind) (freshName kind) s₁ s₂ (fun ρ => ρ.Relates fun σ x y => y = σ x) := by
  unfold freshName
  cases hstem : nameStem? kind with
  | none => exact .stop h
  | some stem =>
    have hfresh := h.ctx.fresh hstem hn.1 hn.2
    refine .inr (.inr ⟨_, subset_cons_self .., ⟨hfresh, h.bindings.mono (subset_cons_self ..)⟩, .ok fun σ hσ => ?_⟩)
    exact (hσ.pairs _ (mem_cons_self ..)).symm

theorem alike_declare {v w : Var} (h : s₁.Matches ρ k s₂) (hv : ρ.Vars v w) :
    Alike ρ k (declare v) (declare w) s₁ s₂ Done := by
  have hcurrent := h.ctx.current
  refine .context ?_
  obtain ⟨σ, hσ⟩ := h.ctx.completes
  rcases (hcurrent σ hσ).declare? σ.injective (hv σ hσ) with ⟨h₁, h₂⟩ | ⟨p, q, h₁, h₂, -⟩
  · rw [h₁, h₂]
    exact .stop h
  · rw [h₁, h₂]
    refine .update h (h.ctx.updateCurrent fun τ hτ => ?_)
    rcases (hcurrent τ hτ).declare? τ.injective (hv τ hτ) with ⟨h₁', -⟩ | ⟨p', q', h₁', h₂', hpq⟩
    · rw [h₁] at h₁'
      cases h₁'
    · cases h₁.symm.trans h₁'
      cases h₂.symm.trans h₂'
      exact hpq

theorem lookup_cases {name : String} (h : s₁.Matches ρ k s₂) (hname : ¬ IsGenerated name) :
    (s₁.ctx.current.lookup? name = none ∧ s₂.ctx.current.lookup? name = none) ∨
      ∃ v w, s₁.ctx.current.lookup? name = some v ∧ s₂.ctx.current.lookup? name = some w ∧ ρ.Vars v w := by
  have hlookup : ∀ σ : Equiv.Perm String, ρ.Agrees σ →
      s₂.ctx.current.lookup? name = (s₁.ctx.current.lookup? name).map (Var.rename σ) := by
    intro σ hσ
    have hsame := (h.ctx.current σ hσ).lookup? σ.injective name
    rwa [hσ.ordinary name hname] at hsame
  obtain ⟨σ, hσ⟩ := h.ctx.completes
  cases h₁ : s₁.ctx.current.lookup? name with
  | none =>
    have h₂ := hlookup σ hσ
    rw [h₁] at h₂
    exact .inl ⟨rfl, h₂⟩
  | some v =>
    have h₂ := hlookup σ hσ
    rw [h₁] at h₂
    refine .inr ⟨v, _, rfl, h₂, fun τ hτ => ?_⟩
    have h₂' := hlookup τ hτ
    rw [h₁, h₂] at h₂'
    exact Option.some.inj h₂'

theorem peeks_variableType {v w : Var} (h : s₁.Matches ρ k s₂) (hv : ρ.Vars v w) :
    Peeks (variableType v) (variableType w) s₁ s₂ Eq := by
  obtain ⟨σ, hσ⟩ := h.ctx.completes
  have hty : w.ty = v.ty := by rw [hv σ hσ, Var.rename]
  unfold variableType
  rw [hty]
  cases v.ty with
  | none => exact peeks_liftFault _
  | some t => exact .pure rfl

theorem relates_expr {v w : Var} (hv : ρ.Vars v w) : ρ.Exprs v.expr w.expr :=
  fun σ hσ => by rw [Expr.Renamed, hv σ hσ, Var.expr_rename]

theorem relates_value {e e' : Expr} (he : ρ.Exprs e e') :
    ρ.Values (.expr e) (.expr e') := fun σ hσ => congrArg Value.expr (he σ hσ)

theorem relates_var {x y : String} {t : Option Ty} {i j : Option Expr} (hx : ρ.Relates (fun σ x y => y = σ x) x y)
    (hi : ρ.Relates (fun σ i j => j = i.map (Expr.rename σ)) i j) :
    ρ.Vars ⟨x, t, i⟩ ⟨y, t, j⟩ := fun σ hσ => by
  rw [Var.Renamed, Var.rename, hx σ hσ, hi σ hσ]

section newVariables
variable (h : s₁.Matches ρ k s₂) (hn : Room s₁ s₂)
include h hn

theorem alike_truthResult {e e' : Expr} (he : ρ.Exprs e e') :
    Alike ρ k (truthResult .own e) (truthResult .own e') s₁ s₂ Values := by
  refine .seq h (peeks_requireClassical h _) fun _ _ _ => ?_
  refine (alike_freshName h hn _).bind fun ρ' x y t₁ t₂ hρ ht hxy => ?_
  have hv : ρ'.Vars ⟨x, some Ty.bool, none⟩ ⟨y, some Ty.bool, none⟩ := relates_var hxy fun _ _ => rfl
  refine (Alike.update ht (ht.ctx.updateCurrent fun σ hσ => ?_)).bind fun ρ'' _ _ u₁ u₂ hρ' hu _ =>
    .pure hu (relates_value (relates_expr (hv.mono hρ')))
  refine ((ht.ctx.current σ hσ).addPending σ.injective (hv σ hσ)).add ?_
  rw [Stmt.rename, ← relates_expr hv σ hσ, ← he.mono hρ σ hσ]

theorem alike_newVar {t : Ty} {i j : Option Value} (hij : Option.Rel ρ.Values i j) :
    Alike ρ k (newVar .own t i) (newVar .own t j) s₁ s₂ Vars := by
  refine .seq h (peeks_requireClassical h _) fun _ _ _ => ?_
  refine (alike_freshName h hn _).bind fun ρ' x y t₁ t₂ hρ ht hxy => ?_
  have hend : ∀ a b, ρ'.Relates (fun σ (a b : Option Expr) => b = a.map (Expr.rename σ)) a b →
      Alike ρ' k (do updateCurrent (·.addPending ⟨x, some t, a⟩); pure (⟨x, some t, a⟩ : Var))
        (do updateCurrent (·.addPending ⟨y, some t, b⟩); pure (⟨y, some t, b⟩ : Var)) t₁ t₂
        Vars := by
    intro a b hab
    have hv := relates_var (t := some t) hxy hab
    refine (Alike.update ht (ht.ctx.updateCurrent fun σ hσ => ?_)).bind fun ρ'' _ _ u₁ u₂ hρ' hu _ =>
      .pure hu (hv.mono hρ')
    exact (ht.ctx.current σ hσ).addPending σ.injective (hv σ hσ)
  cases hij with
  | none => exact hend none none fun _ _ => rfl
  | some hvw =>
    -- an initial value is accepted in both runs or in none
    refine .seq ht (peeks_expression ht (hvw.mono hρ)) fun e e' he => ?_
    rw [ht.ty he]
    refine .seq ht (peeks_liftFault _) ?_
    rintro a _ rfl
    split
    · exact hend (some e) (some e') fun σ hσ => congrArg some (he σ hσ)
    · exact .refuseThen ht

end newVariables

/-! ### Operations without bodies -/

theorem rel_initial {v w : Value} (h : s₁.Matches ρ k s₂) (hv : ρ.Values v w) :
    Option.Rel ρ.Values (initial? v) (initial? w) := by
  cases h.paired hv with
  | none => exact .none
  | _ => exact .some hv

section computed
variable (h : s₁.Matches ρ k s₂) (hn : Room s₁ s₂)
include h hn

theorem alike_newArray {elem : Option Ty} {dims : List Int} {v w : Value} (hv : ρ.Values v w) :
    Alike ρ k (newArray .own elem dims v) (newArray .own elem dims w) s₁ s₂ Vars := by
  have hinit := rel_initial h hv
  unfold newArray
  generalize initial? v = i at hinit ⊢
  generalize initial? w = j at hinit ⊢
  cases hinit with
  | some hvw => exact alike_newVar h hn (.some hvw)
  | none =>
    dsimp only
    cases hz : (Ty.array elem dims).zero with
    | error f => exact .stop h
    | ok z =>
      cases z with
      | absent => exact alike_newVar h hn .none
      | value e =>
        have hself : ∀ σ : String → String, e.rename σ = e := fun σ => Expr.rename_of_over (Ty.over_zero hz).1
        exact alike_newVar h hn (.some (relates_value fun σ _ => (hself σ).symm))
      | hollow =>
        refine (alike_newVar h hn .none).bind fun ρ' _ _ t₁ t₂ _ ht _ => ?_
        exact .stop ht

theorem alike_compare {c : Comparison} {a a' b b' : Value} (ha : ρ.Values a a') (hb : ρ.Values b b') :
    Alike ρ k (compare .own c a b) (compare .own c a' b') s₁ s₂ Values := by
  obtain ⟨σ, hσ⟩ := id h.ctx.completes
  unfold compare
  rw [Value.isExpr_renamed (ha σ hσ), Value.isExpr_renamed (hb σ hσ)]
  split
  · refine .seq h (peeks_expression h ha) fun l l' hl => ?_
    refine .seq h (peeks_expression h hb) fun r r' hr => alike_truthResult h hn fun σ hσ => ?_
    rw [Expr.Renamed, Expr.rename, ← hl σ hσ, ← hr σ hσ]
  · have hdata := Comparison.outcomes_data (h.paired ha) (h.paired hb) c
    generalize c.data a b = x at hdata ⊢
    generalize c.data a' b' = y at hdata ⊢
    cases hdata with
    | error e e' => exact .refuse h
    | ok heq => exact .pure h fun _ _ => congrArg Value.bool heq.symm

theorem alike_logical {c : Connective} {a a' b b' : Value} (ha : ρ.Values a a') (hb : ρ.Values b b') :
    Alike ρ k (logical .own c a b) (logical .own c a' b') s₁ s₂ Values := by
  -- as soon as one of them is no truth value, both are conditions
  have hconditions : Alike ρ k
      (do let l ← conditionExpr a; let r ← conditionExpr b; truthResult .own (.binary c.symbol l r))
      (do let l ← conditionExpr a'; let r ← conditionExpr b'; truthResult .own (.binary c.symbol l r))
      s₁ s₂ Values := by
    refine .seq h (peeks_conditionExpr h ha) fun l l' hl => ?_
    refine .seq h (peeks_conditionExpr h hb) fun r r' hr => alike_truthResult h hn fun σ hσ => ?_
    rw [Expr.Renamed, Expr.rename, ← hl σ hσ, ← hr σ hσ]
  cases h.paired ha with
  | bool x =>
    cases h.paired hb with
    | bool y => exact .pure h fun _ _ => rfl
    | _ => exact hconditions
  | _ => exact hconditions

theorem alike_negate {a a' : Value} (ha : ρ.Values a a') : Alike ρ k (negate .own a) (negate .own a') s₁ s₂ Values := by
  have hcondition : Alike ρ k (do let e ← conditionExpr a; truthResult .own (.unary "!" e))
      (do let e ← conditionExpr a'; truthResult .own (.unary "!" e)) s₁ s₂
      Values := by
    refine .seq h (peeks_conditionExpr h ha) fun e e' he => alike_truthResult h hn fun σ hσ => ?_
    rw [Expr.Renamed, Expr.rename, ← he σ hσ]
  cases h.paired ha with
  | bool x => exact .pure h fun _ _ => rfl
  | _ => exact hcondition

omit hn in
theorem alike_assign {name : String} {v w : Value} (hname : ¬ IsGenerated name) (hv : ρ.Values v w) :
    Alike ρ k (assign .own name v) (assign .own name w) s₁ s₂ Values := by
  cases h.paired hv with
  | @expr e e' he =>
    refine .seq h (peeks_requireClassical h _) fun _ _ _ => .context ?_
    rw [h.ty he]
    rcases lookup_cases h hname with ⟨h₁, h₂⟩ | ⟨u, u', h₁, h₂, hu⟩
    · rw [h₁, h₂]
      dsimp only
      split
      · have hnew : ρ.Vars ⟨name, e.ty, some e⟩ ⟨name, e.ty, some e'⟩ :=
          relates_var (fun σ hσ => (hσ.ordinary name hname).symm) fun σ hσ => congrArg some (he σ hσ)
        refine (alike_declare h hnew).bind fun ρ' _ _ t₁ t₂ hρ ht _ => .pure ht ?_
        exact relates_value (relates_expr (hnew.mono hρ))
      · exact .refuse h
    · rw [h₁, h₂]
      refine .seq h (peeks_variableType h hu) ?_
      rintro t _ rfl
      refine .seq h (peeks_liftFault _) ?_
      rintro a _ rfl
      split
      · refine (Alike.emit h fun σ hσ => ?_).bind fun ρ' _ _ t₁ t₂ hρ ht _ => .pure ht ?_
        · rw [Stmt.Renamed, Stmt.rename, ← relates_expr hu σ hσ, ← he σ hσ]
        · exact relates_value (relates_expr (hu.mono hρ))
      · exact .refuse h
  | _ => exact .pure h hv

omit hn in
theorem alike_arithmetic {op : Arithmetic} {a a' b b' : Value} (ha : ρ.Values a a') (hb : ρ.Values b b') :
    Alike ρ k (arithmetic op a b) (arithmetic op a' b') s₁ s₂ Values := by
  obtain ⟨σ, hσ⟩ := id h.ctx.completes
  unfold arithmetic
  rw [Value.isExpr_renamed (ha σ hσ), Value.isExpr_renamed (hb σ hσ)]
  split
  · refine .seq h (peeks_expression h ha) fun l l' hl => ?_
    refine .seq h (peeks_expression h hb) fun r r' hr => ?_
    rw [h.ty hl, h.ty hr]
    split
    · refine .pure h (relates_value fun σ hσ => ?_)
      rw [Expr.Renamed, Expr.rename, ← hl σ hσ, ← hr σ hσ]
    · exact .refuse h
  · have hdata := Arithmetic.outcomes_data (h.paired ha) (h.paired hb) op
    generalize op.data a b = x at hdata ⊢
    generalize op.data a' b' = y at hdata ⊢
    cases hdata with
    | error e e' => exact .refuse h
    | ok hvw => exact .pure h hvw

end computed

section operations
variable (h : s₁.Matches ρ k s₂)
include h

theorem Alike.registerThen {γ : Type} {is₁ is₂ : List Int} {f₁ f₂ : Unit → Convert γ} {Q : Pairing → γ → γ → Prop}
    (hf : ∀ t₁ t₂, State.Matches ρ k t₁ t₂ → (Room s₁ s₂ → Room t₁ t₂) → Alike ρ k (f₁ ()) (f₂ ()) t₁ t₂ Q) :
    Alike ρ k (register is₁ >>= f₁) (register is₂ >>= f₂) s₁ s₂ Q := by
  obtain ⟨qs₁, h₁⟩ := Context.registered_foldl is₁ s₁.ctx
  obtain ⟨qs₂, h₂⟩ := Context.registered_foldl is₂ s₂.ctx
  refine .updateThen ?_
  rw [h₁, h₂]
  exact hf _ _ (h.update (h.ctx.aside (.of_eq rfl rfl rfl rfl rfl rfl rfl) (.of_eq rfl rfl rfl rfl rfl rfl rfl)))
    fun hn => hn

theorem alike_qubitOperand {v w : Value} (hv : ρ.Values v w) :
    Alike ρ k (qubitOperand v) (qubitOperand w) s₁ s₂ Exprs := by
  refine .context (.seq h (peeks_resolve h hv) fun t u htu => ?_)
  exact .registerThen h fun t₁ t₂ ht _ => .pure ht fun σ hσ => congrArg Target.expr (htu σ hσ)

theorem alike_applyGate {name : String} {qs qs' as as' : List Value}
    (hq : Forall₂ ρ.Values qs qs') (ha : Forall₂ ρ.Values as as') :
    Alike ρ k (applyGate .own name qs as) (applyGate .own name qs' as') s₁ s₂ Done := by
  refine .seq h (peeks_requireActive h _) fun _ _ _ => .seq h (peeks_allow h _) fun _ _ _ => ?_
  refine .seq h (peeks_resolveAll h hq) fun ts us htu => ?_
  refine .seq h (peeks_angleOperands h ha) fun es es' hes => .context ?_
  have hexprs := relates_targets htu
  dsimp only
  rcases foreign_cases h hexprs hes with ⟨h₁, h₂⟩ | ⟨e, e', h₁, h₂⟩
  · rw [h₁, h₂]
    refine .registerThen h fun t₁ t₂ ht _ => .emit ht fun σ hσ => ?_
    rw [Stmt.Renamed, Stmt.rename, ← hes σ hσ, ← hexprs σ hσ]
  · rw [h₁, h₂]
    exact .refuseThen h

theorem alike_applyNative {g : NativeGate} {vs ws : List Value} (hv : Forall₂ ρ.Values vs ws) :
    Alike ρ k (applyNative .own g vs) (applyNative .own g ws) s₁ s₂ Done := by
  have hoperand : ∀ i, ρ.Values (vs.getD i .none) (ws.getD i .none) := by
    intro i
    induction hv generalizing i with
    | nil => exact fun _ _ => rfl
    | cons hvw _ ih =>
      cases i with
      | zero => exact hvw
      | succ i => exact ih i
  have hlist : ∀ {f : Nat → Nat} (n : Nat), Forall₂ ρ.Values
      ((List.range n).map fun i => vs.getD (f i) .none) ((List.range n).map fun i => ws.getD (f i) .none) := by
    intro f n
    rw [forall₂_map_left_iff, forall₂_map_right_iff]
    exact forall₂_same.2 fun i _ => hoperand (f i)
  exact alike_applyGate h (hlist (f := id) g.qubits) (hlist g.angles)

omit h in
theorem alike_measureInto {ρ' : Pairing} {v w : Var} {i : Nat} {qs qs' : List Expr}
    (hv : ρ.Vars v w) (hq : Forall₂ ρ.Exprs qs qs') (hρ : ρ ⊆ ρ')
    (h : s₁.Matches ρ' k s₂) :
    Alike ρ' k (measureInto v i qs) (measureInto w i qs') s₁ s₂ Done := by
  induction hq generalizing ρ' s₁ s₂ i with
  | nil => exact .pure h trivial
  | cons hqq' _ ih =>
    refine (Alike.emit h fun σ hσ => ?_).bind fun ρ'' _ _ t₁ t₂ hρ' ht _ =>
      ih (List.Subset.trans hρ hρ') ht
    rw [Stmt.Renamed, Stmt.rename, Expr.rename, Expr.rename, ← relates_expr hv σ (hσ.mono hρ),
      ← hqq' σ (hσ.mono hρ)]
    rfl

theorem alike_measure {vs ws : List Value} (hn : Room s₁ s₂) (hv : Forall₂ ρ.Values vs ws) :
    Alike ρ k (measure .own vs) (measure .own ws) s₁ s₂ Vars := by
  have hempty : ws.isEmpty = vs.isEmpty := by cases hv <;> rfl
  refine .seq h (peeks_requireClassical h _) fun _ _ _ => ?_
  dsimp only
  rw [hempty]
  split
  · exact .refuseThen h
  refine .seq h (peeks_resolveAll h hv) fun ts us htu => .registerThen h fun t₁ t₂ ht hroom => ?_
  refine (alike_freshName ht (hroom hn) _).bind fun ρ' x y u₁ u₂ hρ hu hxy => ?_
  have hqs : Forall₂ ρ'.Exprs (ts.map (·.expr)) (us.map (·.expr)) := by
    refine (relates_forall₂ hu.ctx.completes).1 fun σ hσ => ?_
    exact forall₂_eq_map.2 (relates_targets htu σ (hσ.mono hρ))
  generalize ts.map (·.expr) = qs at hqs ⊢
  generalize us.map (·.expr) = qs' at hqs ⊢
  have hlength := hqs.length_eq
  -- several qubits, or none at all
  have hregister : Alike ρ' k
      (do let v : Var := ⟨x, some (Ty.bit qs.length), some (.bits (String.ofList (List.replicate qs.length '0')))⟩
          declare v; measureInto v 0 qs; pure v)
      (do let v : Var := ⟨y, some (Ty.bit qs'.length), some (.bits (String.ofList (List.replicate qs'.length '0')))⟩
          declare v; measureInto v 0 qs'; pure v) u₁ u₂ Vars := by
    rw [← hlength]
    have hnew : ρ'.Vars ⟨x, some (Ty.bit qs.length), some (.bits (String.ofList (List.replicate qs.length '0')))⟩
        ⟨y, some (Ty.bit qs.length), some (.bits (String.ofList (List.replicate qs.length '0')))⟩ :=
      relates_var hxy fun _ _ => rfl
    refine (alike_declare hu hnew).bind fun ρ₁ _ _ w₁ w₂ hρ₁ hw _ => ?_
    refine (alike_measureInto hnew hqs hρ₁ hw).bind fun ρ₂ _ _ w₁ w₂ hρ₂ hw _ => .pure hw ?_
    exact (hnew.mono hρ₁).mono hρ₂
  cases hqs with
  | nil => exact hregister
  | @cons q q' _ _ hqq' hrest =>
    cases hrest with
    | nil =>
      have hnew : ρ'.Vars ⟨x, some (Ty.bit 0), some (.measure q)⟩ ⟨y, some (Ty.bit 0), some (.measure q')⟩ :=
        relates_var hxy fun σ hσ => congrArg (fun q => some (Expr.measure q)) (hqq' σ hσ)
      exact (alike_declare hu hnew).bind fun ρ₁ _ _ w₁ w₂ hρ₁ hw _ => .pure hw (hnew.mono hρ₁)
    | cons _ _ => exact hregister

theorem alike_reset {v w : Value} (hv : ρ.Values v w) :
    Alike ρ k (reset .own v) (reset .own w) s₁ s₂ Done := by
  refine .seq h (peeks_requireClassical h _) fun _ _ _ => ?_
  refine (alike_qubitOperand h hv).bind fun ρ' e e' t₁ t₂ _ ht he => .emit ht fun σ hσ => ?_
  rw [Stmt.Renamed, Stmt.rename, ← he σ hσ]

theorem alike_barrier {vs ws : List Value} (hv : Forall₂ ρ.Values vs ws) :
    Alike ρ k (barrier .own vs) (barrier .own ws) s₁ s₂ Done := by
  refine .seq h (peeks_requireClassical h _) fun _ _ _ => ?_
  refine .seq h (peeks_resolveAll h hv) fun ts us htu => .registerThen h fun t₁ t₂ ht _ => .emit ht ?_
  intro σ hσ
  rw [Stmt.Renamed, Stmt.rename, ← relates_targets htu σ hσ]

theorem Alike.pulseThen {γ : Type} {operation : String} {f₁ f₂ : Unit → Convert γ} {Q : Pairing → γ → γ → Prop}
    (hf : ∀ t₁ t₂, State.Matches ρ k t₁ t₂ → Alike ρ k (f₁ ()) (f₂ ()) t₁ t₂ Q) :
    Alike ρ k (requirePulse .own operation >>= f₁) (requirePulse .own operation >>= f₂) s₁ s₂ Q := by
  refine Alike.bind (P := fun ρ' _ _ => ρ' = ρ) ?_ ?_
  · refine .seq h (peeks_requireActive h _) fun _ _ _ => .seq h (peeks_allow h _) fun _ _ _ => ?_
    exact .inr (.inr ⟨ρ, List.Subset.refl ρ, h.update (h.ctx.aside (.of_eq rfl rfl rfl rfl rfl rfl rfl)
      (.of_eq rfl rfl rfl rfl rfl rfl rfl)), .ok rfl⟩)
  · rintro ρ' _ _ t₁ t₂ - ht rfl
    exact hf t₁ t₂ ht

theorem alike_play (frame waveform : String) :
    Alike ρ k (play .own frame waveform) (play .own frame waveform) s₁ s₂ Done :=
  .pulseThen h fun _ _ ht => .emit ht fun _ _ => rfl

theorem alike_frameCall {op : FrameOp} {frame : String} {v w : Value} (hv : ρ.Values v w) :
    Alike ρ k (frameCall .own op frame v) (frameCall .own op frame w) s₁ s₂ Done := by
  refine .pulseThen h fun t₁ t₂ ht => ?_
  refine .seq ht (peeks_expression ht hv) fun e e' he => .emit ht fun σ hσ => ?_
  rw [he σ hσ]
  rfl

theorem alike_delayTarget {v w : Value} (hv : ρ.Values v w) :
    Alike ρ k (delayTarget v) (delayTarget w) s₁ s₂ Exprs := by
  have hqubit := alike_qubitOperand h hv
  obtain ⟨σ, hσ⟩ := id h.ctx.completes
  cases h.paired hv with
  | @expr e e' he =>
    cases e with
    | frame name =>
      obtain rfl : e' = .frame name := he σ hσ
      exact .pure h he
    | var name ty init =>
      rw [he σ hσ, Expr.rename_var] at hqubit ⊢
      exact hqubit
    | range start stop step =>
      rw [he σ hσ, Expr.rename_range] at hqubit ⊢
      exact hqubit
    | _ =>
      rw [he σ hσ] at hqubit ⊢
      exact hqubit
  | _ => exact hqubit

omit h in
theorem alike_delayTargets {ρ' : Pairing} {vs ws : List Value}
    (hv : Forall₂ ρ.Values vs ws) (hρ : ρ ⊆ ρ') (h : s₁.Matches ρ' k s₂) :
    Alike ρ' k (vs.mapM delayTarget) (ws.mapM delayTarget) s₁ s₂ (fun ρ => ρ.Relates Expr.RenamedAll) := by
  induction hv generalizing ρ' s₁ s₂ with
  | nil => exact .pure h fun _ _ => rfl
  | cons hvw _ ih =>
    rw [mapM_cons, mapM_cons]
    refine (alike_delayTarget h (hvw.mono hρ)).bind fun ρ₁ e e' t₁ t₂ hρ₁ ht he => ?_
    refine (ih (List.Subset.trans hρ hρ₁) ht).bind fun ρ₂ es es' u₁ u₂ hρ₂ hu hes => .pure hu fun σ hσ => ?_
    rw [Expr.RenamedAll, map_cons, ← hes σ hσ, ← he.mono hρ₂ σ hσ]

theorem alike_delay {ns : Int} {vs ws : List Value} (hv : Forall₂ ρ.Values vs ws) :
    Alike ρ k (delay .own ns vs) (delay .own ns ws) s₁ s₂ Done := by
  refine .pulseThen h fun t₁ t₂ ht => ?_
  refine (alike_delayTargets hv (List.Subset.refl ρ) ht).bind fun ρ' es es' u₁ u₂ _ hu hes =>
    .emit hu fun σ hσ => ?_
  rw [Stmt.Renamed, Stmt.rename, ← hes σ hσ]
  rfl

theorem alike_emitPlain (operation : String) (st : Stmt) (hst : ∀ σ, st.rename σ = st) :
    Alike ρ k (do requireClassical .own operation; emit st) (do requireClassical .own operation; emit st) s₁ s₂
      Done :=
  .seq h (peeks_requireClassical h _) fun _ _ _ => .emit h fun σ _ => (hst σ).symm

theorem alike_leaveRoutine {v w : Value} (hv : ρ.Values v w) :
    Alike ρ k (leaveRoutine .own v) (leaveRoutine .own w) s₁ s₂ Done := by
  refine .seq h (peeks_requireClassical h _) fun _ _ _ => ?_
  have hsome : Alike ρ k (do let e ← expression v; emit (.return (some e)))
      (do let e ← expression w; emit (.return (some e))) s₁ s₂ Done := by
    refine .seq h (peeks_expression h hv) fun e e' he => .emit h fun σ hσ => ?_
    rw [Stmt.Renamed, Stmt.rename, he σ hσ]
    rfl
  cases h.paired hv with
  | none => exact .emit h fun _ _ => rfl
  | _ => exact hsome

end operations

end Convert

end QasmStudio

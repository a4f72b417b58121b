import QasmStudio.Proofs.Convert.Supply
import QasmStudio.Proofs.Convert.TwinOperations

/-!
# Bodies that run twice

`alike_perform`: from states that match, an operation that runs no routine does in one run what it does in
the other, given that its bodies do.

Calls are another matter: one of the two places may have a definition that the other one lacks, and then a
body is converted in one run only. But all of that is done aside, and calls that succeed in both runs leave
states that match (`matches_of_call`). So a body does the same in both runs, as long as it is `Steady`
(`twin_run`).
-/

namespace QasmStudio

open Pairing List

variable {α : Type} {action : Action} {name : String}

namespace Convert
variable {ρ : Pairing} {k : Nat} {s₁ s₂ : State}

/-! ### Operations with bodies -/

section bodies
variable (h : s₁.Matches ρ k s₂) {m₁ m₂ : Convert Unit}
include h

theorem alike_branch {v w : Value} {thn₁ thn₂ : Convert Unit} {els₁ els₂ : Option (Convert Unit)}
    (hv : ρ.Values v w) (hthn : Twin thn₁ thn₂ Done)
    (hels : Option.Rel (fun m₁ m₂ => Twin m₁ m₂ Done) els₁ els₂) :
    Alike ρ k (branch .own v thn₁ els₁) (branch .own w thn₂ els₂) s₁ s₂ Done := by
  -- what is no truth value is a condition of the program
  have hemitted : ∀ f₁ f₂ : Expr → List Stmt → Convert Unit,
      (∀ ρ₁ e e' a a' t₁ t₂, State.Matches ρ₁ k t₁ t₂ → ρ₁.Exprs e e' →
        ρ₁.Relates Stmt.RenamedAll a a' → Alike ρ₁ k (f₁ e a) (f₂ e' a') t₁ t₂ Done) →
      Alike ρ k
        (do let e ← conditionExpr v
            requireClassical .own "if"
            tagging do
              let a ← block thn₁
              f₁ e a)
        (do let e ← conditionExpr w
            requireClassical .own "if"
            tagging do
              let a ← block thn₂
              f₂ e a) s₁ s₂ Done := by
    intro f₁ f₂ hf
    refine .seq h (peeks_conditionExpr h hv) fun e e' he => ?_
    refine .seq h (peeks_requireClassical h _) fun _ _ _ => Alike.mapError ?_
    exact (alike_block h (hthn ρ k)).bind fun ρ₁ a a' t₁ t₂ hρ₁ ht ha =>
      hf ρ₁ e e' a a' t₁ t₂ ht (he.mono hρ₁) ha
  have hend : ∀ {ρ₁ e e' a a' b b' u₁ u₂}, State.Matches ρ₁ k u₁ u₂ → ρ₁.Exprs e e' →
      ρ₁.Relates Stmt.RenamedAll a a' → ρ₁.Relates Stmt.RenamedAll b b' →
      Alike ρ₁ k (emit (.branch e a b)) (emit (.branch e' a' b')) u₁ u₂ Done := by
    intro ρ₁ e e' a a' b b' u₁ u₂ hu he ha hb
    refine .emit hu fun σ hσ => ?_
    rw [Stmt.Renamed, Stmt.rename, Stmt.renameAll_eq_map, Stmt.renameAll_eq_map, ← hb σ hσ, ← ha σ hσ, ← he σ hσ]
  cases hels with
  | none =>
    have hcond := hemitted (fun e a => emit (.branch e a [])) (fun e a => emit (.branch e a []))
      fun ρ₁ e e' a a' t₁ t₂ ht he ha => hend ht he ha fun _ _ => rfl
    cases h.paired hv with
    | bool b =>
      cases b with
      | true => exact (hthn ρ k s₁ s₂ h).mapError
      | false => exact .pure h trivial
    | _ => exact hcond
  | @some els₁ els₂ hbody =>
    have hcond := hemitted (fun e a => block els₁ >>= fun b => emit (.branch e a b))
      (fun e a => block els₂ >>= fun b => emit (.branch e a b)) fun ρ₁ e e' a a' t₁ t₂ ht he ha =>
        (alike_block ht (hbody ρ₁ k)).bind fun ρ₂ b b' u₁ u₂ hρ₂ hu hb => hend hu (he.mono hρ₂) (ha.mono hρ₂) hb
    cases h.paired hv with
    | bool b =>
      cases b with
      | true => exact (hthn ρ k s₁ s₂ h).mapError
      | false => exact (hbody ρ k s₁ s₂ h).mapError
    | _ => exact hcond

section loops
variable {body₁ body₂ : Value → Convert Unit}

theorem alike_repeatFrom (hbody : ∀ i, Twin (body₁ (.int .word i)) (body₂ (.int .word i)) Done) (i : Int)
    (n : Nat) :
    Alike ρ k (repeatFrom body₁ i n) (repeatFrom body₂ i n) s₁ s₂ Done := by
  induction n generalizing ρ s₁ s₂ i with
  | zero => exact .pure h trivial
  | succ n ih => exact (hbody i ρ k s₁ s₂ h).bind fun ρ' _ _ t₁ t₂ _ ht _ => ih ht (i + 1)

/-- A body that is run with values that differ by the pairing. -/
def TwinBody (ρ : Pairing) (body₁ body₂ : Value → Convert Unit) : Prop :=
  ∀ ρ' k s₁ s₂ v w, ρ ⊆ ρ' → State.Matches ρ' k s₁ s₂ → ρ'.Values v w →
    Alike ρ' k (body₁ v) (body₂ w) s₁ s₂ Done

omit h in
theorem alike_forEach {ρ' : Pairing} {vs ws : List Value} (hbody : TwinBody ρ body₁ body₂)
    (hv : Forall₂ ρ.Values vs ws) (hρ : ρ ⊆ ρ') (h : s₁.Matches ρ' k s₂) :
    Alike ρ' k (forEach body₁ vs) (forEach body₂ ws) s₁ s₂ Done := by
  induction hv generalizing ρ' s₁ s₂ with
  | nil => exact .pure h trivial
  | cons hvw _ ih =>
    exact (hbody ρ' k s₁ s₂ _ _ hρ h (hvw.mono hρ)).bind fun ρ'' _ _ t₁ t₂ hρ' ht _ =>
      ih (List.Subset.trans hρ hρ') ht

theorem alike_unroll {v w : Value} (hv : ρ.Values v w) (hbody : ∀ ρ, TwinBody ρ body₁ body₂) :
    Alike ρ k (unroll v body₁) (unroll w body₂) s₁ s₂ Done := by
  cases h.paired hv with
  | int f n =>
    cases f with
    | word =>
      refine (alike_repeatFrom h (fun i ρ' k' t₁ t₂ ht => ?_) 0 n.toNat).mapError
      exact hbody ρ' ρ' k' t₁ t₂ _ _ (List.Subset.refl _) ht fun _ _ => rfl
    | _ => exact .refuse h
  | list hitems => exact (alike_forEach (hbody ρ) hitems (List.Subset.refl ρ) h).mapError
  | _ => exact .refuse h

theorem descending_eq {r r' : RangeSpec} (hstep : Option.Rel ρ.Values r.step r'.step) :
    r'.descending = r.descending := by
  unfold RangeSpec.descending
  generalize r.step = i at hstep ⊢
  generalize r'.step = j at hstep ⊢
  cases hstep with
  | none => rfl
  | some hvw => cases h.paired hvw <;> rfl

theorem peeks_rangeExpr {r r' : RangeSpec} (hstart : ρ.Values r.start r'.start)
    (hstop : ρ.Values r.stop r'.stop) (hstep : Option.Rel ρ.Values r.step r'.step) :
    Peeks (RangeSpec.expr r) (RangeSpec.expr r') s₁ s₂ ρ.Exprs := by
  have hdescending := descending_eq h hstep
  refine (peeks_expression h hstart).bind fun a a' ha => ?_
  dsimp only
  rw [hdescending]
  generalize r.descending = d
  generalize r.stop = stop at hstop ⊢
  generalize r'.stop = stop' at hstop ⊢
  -- an end that is known is moved by one on the spot
  have hknown : ∀ (n : Int) c c', ρ.Relates (fun σ (c c' : Option Expr) => c' = c.map (Expr.rename σ)) c c' →
      Peeks (pure (.range a (.int n) c)) (pure (.range a' (.int n) c')) s₁ s₂ ρ.Exprs := by
    refine fun n c c' hc => .pure fun σ hσ => ?_
    rw [Expr.Renamed, Expr.rename_range, ← ha σ hσ, ← hc σ hσ]
    rfl
  have hexpr : ∀ c c', ρ.Relates (fun σ (c c' : Option Expr) => c' = c.map (Expr.rename σ)) c c' →
      Peeks (do let e ← expression stop; pure (.range a (.binary (if d then "+" else "-") e (.int 1)) c))
        (do let e ← expression stop'; pure (.range a' (.binary (if d then "+" else "-") e (.int 1)) c'))
        s₁ s₂ ρ.Exprs := by
    refine fun c c' hc => (peeks_expression h hstop).bind fun e e' he => .pure fun σ hσ => ?_
    rw [Expr.Renamed, Expr.rename_range, Expr.rename, ← ha σ hσ, ← he σ hσ, ← hc σ hσ]
    rfl
  generalize r.step = i at hstep ⊢
  generalize r'.step = j at hstep ⊢
  cases hstep with
  | none =>
    cases h.paired hstop with
    | int f n =>
      cases f with
      | word => exact hknown _ none none fun _ _ => rfl
      | _ => exact hexpr none none fun _ _ => rfl
    | _ => exact hexpr none none fun _ _ => rfl
  | @some v w hvw =>
    have hsome : Peeks (some <$> expression v) (some <$> expression w) s₁ s₂
        (ρ.Relates fun σ (c c' : Option Expr) => c' = c.map (Expr.rename σ)) :=
      (peeks_expression h hvw).map fun e e' he σ hσ => congrArg some (he σ hσ)
    cases h.paired hstop with
    | int f n =>
      cases f with
      | word => exact hsome.bind (hknown _)
      | _ => exact hsome.bind hexpr
    | _ => exact hsome.bind hexpr

theorem alike_loopOver {r r' : RangeSpec} (hn : Room s₁ s₂) (hstart : ρ.Values r.start r'.start)
    (hstop : ρ.Values r.stop r'.stop) (hstep : Option.Rel ρ.Values r.step r'.step)
    (hbody : ∀ ρ, TwinBody ρ body₁ body₂) :
    Alike ρ k (loopOver .own r body₁) (loopOver .own r' body₂) s₁ s₂ Done := by
  refine .seq h (peeks_rangeExpr h hstart hstop hstep) fun e e' he => ?_
  refine .seq h (peeks_requireClassical h _) fun _ _ _ => ?_
  refine (alike_freshName h hn _).bind fun ρ₁ x y t₁ t₂ hρ₁ ht hxy => Alike.mapError ?_
  have hv : ρ₁.Vars ⟨x, some Ty.int, none⟩ ⟨y, some Ty.int, none⟩ :=
    relates_var hxy fun _ _ => rfl
  refine .updateThen ?_
  have hmark : Context.Matches ρ₁ k (t₁.ctx.updateCurrent (·.markDeclared ⟨x, some Ty.int, none⟩))
      (t₂.ctx.updateCurrent (·.markDeclared ⟨y, some Ty.int, none⟩)) :=
    ht.ctx.updateCurrent fun σ hσ => (ht.ctx.current σ hσ).markDeclared σ.injective (hv σ hσ)
  refine (alike_block (ht.update hmark) fun u₁ u₂ hu => ?_).bind fun ρ₂ b b' u₁ u₂ hρ₂ hu hb =>
    .emit hu fun σ hσ => ?_
  · exact hbody ρ₁ ρ₁ k u₁ u₂ _ _ (List.Subset.refl _) hu (relates_value (relates_expr hv))
  · rw [Stmt.Renamed, Stmt.rename, Stmt.renameAll_eq_map, ← hb σ hσ, ← he σ ((hσ.mono hρ₂).mono hρ₁),
      ← hv σ (hσ.mono hρ₂)]

variable {cond₁ cond₂ : Convert Value} (hcond : Twin cond₁ cond₂ Values) (hbody : Twin m₁ m₂ Done) (n₁ n₂ : Nat)
include hcond hbody

theorem alike_repeatWhile :
    Alike ρ k (repeatWhile cond₁ m₁ n₁) (repeatWhile cond₂ m₂ n₂) s₁ s₂ Done := by
  induction n₁ generalizing ρ s₁ s₂ n₂ with
  | zero => exact .inl ⟨.exhausted, rfl, nofun⟩
  | succ n₁ ih =>
    cases n₂ with
    | zero => exact .inr (.inl ⟨.exhausted, rfl, nofun⟩)
    | succ n₂ =>
      refine (hbody ρ k s₁ s₂ h).mapError.bind fun ρ₁ _ _ t₁ t₂ _ ht _ => ?_
      refine (hcond ρ₁ k t₁ t₂ ht).mapError.bind fun ρ₂ v w u₁ u₂ _ hu hv => ?_
      cases hu.paired hv with
      | bool b =>
        cases b with
        | true => exact ih hu n₂
        | false => exact .pure hu trivial
      | _ => exact .refuse hu

theorem alike_whileLoop :
    Alike ρ k (whileLoop .own n₁ cond₁ m₁) (whileLoop .own n₂ cond₂ m₂) s₁ s₂ Done := by
  refine (hcond ρ k s₁ s₂ h).mapError.bind fun ρ₁ v w t₁ t₂ _ ht hv => ?_
  have hemitted : Alike ρ₁ k
      (do let e ← conditionExpr v
          requireClassical .own "while"
          tagging do
            let stmts ← block m₁
            emit (.while e stmts))
      (do let e ← conditionExpr w
          requireClassical .own "while"
          tagging do
            let stmts ← block m₂
            emit (.while e stmts)) t₁ t₂ Done := by
    refine .seq ht (peeks_conditionExpr ht hv) fun e e' he => ?_
    refine .seq ht (peeks_requireClassical ht _) fun _ _ _ => Alike.mapError ?_
    refine (alike_block ht (hbody ρ₁ k)).bind fun ρ₂ b b' u₁ u₂ hρ₂ hu hb => .emit hu fun σ hσ => ?_
    rw [Stmt.Renamed, Stmt.rename, Stmt.renameAll_eq_map, ← hb σ hσ, ← he σ (hσ.mono hρ₂)]
  cases ht.paired hv with
  | bool b =>
    cases b with
    | true => exact alike_repeatWhile ht hcond hbody n₁ n₂
    | false => exact .pure ht trivial
  | _ => exact hemitted

end loops

theorem alike_verbatim : Alike ρ k (verbatim .own m₁) (verbatim .own m₂) s₁ s₂ Done := by
  have hrefusal : ∀ {c : Context}, k < c.inner.length → ∃ why, verbatimRefusal? c = some why := by
    intro c hc
    unfold verbatimRefusal?
    split
    · exact ⟨_, rfl⟩
    · have hinner : c.inner ≠ [] := ne_nil_of_length_pos (Nat.lt_of_le_of_lt (Nat.zero_le k) hc)
      rw [if_pos hinner]
      exact ⟨_, rfl⟩
  refine .seq h (peeks_requireClassical h _) fun _ _ _ => .context ?_
  obtain ⟨_, h₁⟩ := hrefusal h.ctx.deep.1
  obtain ⟨_, h₂⟩ := hrefusal h.ctx.deep.2
  dsimp only
  rw [h₁, h₂]
  exact .refuseThen h

theorem alike_defineGate {params : List GateParam} (hp : ∀ p ∈ params, ¬ IsGenerated p.name)
    (hm : ∀ t₁ t₂, State.Matches ρ k t₁ t₂ → Alike ρ k m₁ m₂ t₁ t₂ Done) :
    Alike ρ k (defineGate name params m₁) (defineGate name params m₂) s₁ s₂ Done := by
  refine .bracketContext (j := k) ?_ fun _ _ _ hc => hc.leaveGate
  have hin := h.update (h.ctx.enterGate (r := ⟨name, params⟩) hp)
  refine .seq hin (peeks_allow hin _) fun _ _ _ => ?_
  refine (alike_block hin hm).bind fun ρ' b b' t₁ t₂ _ ht _ => .context ?_
  -- the gate may be defined in one of the runs and not yet in the other
  have hdefined : ∀ (t : State) (x : GateDef), x.name = name →
      ∃ c, t.ctx.Aside c ∧
        (if !t.ctx.root.hasGate name then updateRoot (·.addGate x) else pure ()) t =
          (.ok (), { t with ctx := c }) := by
    rintro t x rfl
    by_cases hx : t.ctx.root.hasGate x.name = true
    · exact ⟨t.ctx, .refl _, by simp [hx]⟩
    · refine ⟨_, .updateRoot (f := (·.addGate x)) (.addGate (by simpa using hx)), ?_⟩
      simp [hx]
  obtain ⟨c₁, hc₁, h₁⟩ :=
    hdefined t₁ ⟨name, GateParam.angles params, GateParam.qubits params, b⟩ rfl
  obtain ⟨c₂, hc₂, h₂⟩ :=
    hdefined t₂ ⟨name, GateParam.angles params, GateParam.qubits params, b'⟩ rfl
  exact .asides ht h₁ hc₁ h₂ hc₂ trivial

theorem alike_defineCalibration {gate : String} {qs₁ qs₂ as₁ as₂ : List Expr} (hm : Twin m₁ m₂ Done) :
    Alike ρ k (defineCalibration gate qs₁ as₁ m₁) (defineCalibration gate qs₂ as₂ m₂) s₁ s₂
      Done := by
  refine .bracketContext (j := k) ?_ fun _ _ _ hc => hc.leaveCalibration
  have hin := h.update (h.ctx.enterCalibration ⟨gate, qs₁, as₁⟩ ⟨gate, qs₂, as₂⟩)
  refine .seq hin (peeks_allow hin _) fun _ _ _ => ?_
  exact (alike_block hin (hm ρ k)).bind fun ρ' b b' t₁ t₂ _ ht _ => .pure ht trivial

end bodies

/-! ### Steps -/

end Convert

def Report.value? : Report → Option Value
  | .value v => some v
  | _ => none

/-- Values that are reported differ by the pairing. What is reported besides is not compared. -/
def Report.Paired (ρ : Pairing) (r r' : Report) : Prop :=
  Option.Rel ρ.Values r.value? r'.value?

/-- The names of variables that stand in the operation itself. -/
def Action.written : Action → List String
  | .assign target o => target :: o.names
  | .gateDef _ params _ => params.map (·.name)
  | .validateTargets qs as | .calibrationDef _ qs as _ => Operand.namesAll (qs ++ as)
  | action => Operand.namesAll action.operands

def Action.runsRoutine : Action → Bool
  | .call .. | .build .. => true
  | _ => false

namespace Convert
variable {ρ : Pairing} {k : Nat} {s₁ s₂ : State} {lib : Library}

section report
variable {m₁ m₂ : Convert α}

theorem alike_reported {f₁ f₂ : α → Report} {Q : Pairing → α → α → Prop} (h : Alike ρ k m₁ m₂ s₁ s₂ Q)
    (h₁ : ∀ a, (f₁ a).value? = none) (h₂ : ∀ a, (f₂ a).value? = none) :
    Alike ρ k (m₁ >>= fun a => pure (f₁ a)) (m₂ >>= fun a => pure (f₂ a)) s₁ s₂
      (fun ρ => Report.Paired ρ) := by
  refine h.bind fun ρ' a b t₁ t₂ _ ht _ => .pure ht ?_
  rw [Report.Paired, h₁, h₂]
  exact .none

theorem alike_done {Q : Pairing → α → α → Prop} (h : Alike ρ k m₁ m₂ s₁ s₂ Q) :
    Alike ρ k (m₁ >>= fun _ => pure .done) (m₂ >>= fun _ => pure .done) s₁ s₂ (fun ρ => Report.Paired ρ) :=
  alike_reported h (fun _ => rfl) fun _ => rfl

theorem alike_valued {f : α → Value} {Q : Pairing → α → α → Prop} (h : Alike ρ k m₁ m₂ s₁ s₂ Q)
    (hf : ∀ ρ' a b, Q ρ' a b → ρ'.Values (f a) (f b)) :
    Alike ρ k (m₁ >>= fun a => pure (.value (f a))) (m₂ >>= fun a => pure (.value (f a))) s₁ s₂
      (fun ρ => Report.Paired ρ) :=
  h.bind fun ρ' a b _ _ _ ht hab => .pure ht (.some (hf ρ' a b hab))

end report

theorem makeProgram_aside (s : State) :
    ∃ p c, makeProgram s = (.ok p, { s with ctx := c }) ∧ s.ctx.Aside c := by
  unfold makeProgram
  cases hp : s.ctx.pulse with
  | true =>
    refine ⟨s.ctx.result, _, ?_, .updateRoot (f := (·.enablePulse)) (.enablePulse _)⟩
    simp only [bind_apply, context_apply, hp, if_true]
    rfl
  | false =>
    refine ⟨s.ctx.result, s.ctx, ?_, .refl _⟩
    simp only [bind_apply, context_apply, hp]
    rfl

theorem alike_bindName {name : Option String} {v w : Value} (h : s₁.Matches ρ k s₂)
    (hv : ρ.Values v w) :
    Alike ρ k (bindName name v) (bindName name w) s₁ s₂ Done := by
  cases name with
  | none => exact .pure h trivial
  | some n =>
    refine .inr (.inr ⟨ρ, List.Subset.refl ρ, ⟨h.ctx, fun σ hσ => ?_⟩, .ok trivial⟩)
    exact (h.bindings σ hσ).bind n (hv σ hσ)

theorem alike_inspect (h : s₁.Matches ρ k s₂) {f : Context → Report} (hf : ∀ c, (f c).value? = none) :
    Alike ρ k (inspect .own f) (inspect .own f) s₁ s₂ (fun ρ => Report.Paired ρ) := by
  show Alike ρ k (context >>= fun c => pure (f c)) (context >>= fun c => pure (f c)) s₁ s₂ _
  refine .context (.pure h ?_)
  rw [Report.Paired, hf, hf]
  exact .none

theorem alike_draftOf {main : Bool} {mode : Mode} (h : s₁.Matches ρ k s₂) :
    Alike ρ k (draftOf main mode) (draftOf main mode) s₁ s₂ (fun ρ => Report.Paired ρ) := by
  refine .seq h (peeks_allow h mode) fun _ _ _ => .context ?_
  dsimp only
  generalize (if main = true then s₁.ctx.root else s₁.ctx.current) = p
  generalize (if main = true then s₂.ctx.root else s₂.ctx.current) = q
  -- a definition that cannot be written is not to be caught
  cases hp : p.isHollow with
  | true => exact .inl ⟨.fault .missingPart, rfl, nofun⟩
  | false =>
    cases hq : q.isHollow with
    | true => exact .inr (.inl ⟨.fault .missingPart, rfl, nofun⟩)
    | false => exact .pure h .none

theorem alike_nextName (h : s₁.Matches ρ k s₂) (hn : Room s₁ s₂) (kind : Kind) :
    Alike ρ k (nextName .own kind) (nextName .own kind) s₁ s₂ Done := by
  unfold nextName
  split
  · exact .stop h
  · exact (alike_freshName h hn kind).mono fun _ _ _ _ _ => trivial

theorem relates_bindParams {σ : Equiv.Perm String} (hσ : ρ.Agrees σ) {params : List GateParam}
    (hp : ∀ p ∈ params, ¬ IsGenerated p.name) {b c : Bindings} (hb : b.Renamed σ c) :
    (bindParams b params).Renamed σ (bindParams c params) := by
  induction params generalizing b c with
  | nil => exact hb
  | cons p ps ih =>
    refine ih (fun q hq => hp q (mem_cons_of_mem _ hq)) (hb.bind p.name ?_)
    have hname := hσ.ordinary p.name (hp p (mem_cons_self ..))
    refine Value.renamed_self _ fun n hn => ?_
    cases p <;> exact mem_singleton.1 hn ▸ hname

section perform
variable {again₁ again₂ : Runner} {f₁ f₂ : Nat}

/-- From states that match, an operation that runs no routine does the same in both runs. -/
theorem alike_perform (hrun : ∀ steps, Twin (again₁ steps) (again₂ steps) Done)
    (h : s₁.Matches ρ k s₂) (hn : Room s₁ s₂) (hroutine : ¬ action.runsRoutine = true)
    (hreturned : action ≠ .returned) (hnames : ∀ n ∈ action.written, ¬ IsGenerated n) :
    Alike ρ k (perform again₁ lib f₁ .own action) (perform again₂ lib f₂ .own action) s₁ s₂
      (fun ρ => Report.Paired ρ) := by
  have hall : ∀ os : List Operand, (∀ n ∈ Operand.namesAll os, ¬ IsGenerated n) → ∀ o ∈ os,
      ∀ n ∈ o.names, ¬ IsGenerated n :=
    fun os hos o ho n hno => hos n (Operand.mem_namesAll.2 ⟨o, ho, hno⟩)
  have hone : ∀ {os : List Operand} {o : Operand}, (∀ n ∈ Operand.namesAll os, ¬ IsGenerated n) → o ∈ os →
      Peeks (value o) (value o) s₁ s₂ ρ.Values := fun hos ho => peeks_value h (hall _ hos _ ho)
  have hbind : ∀ (name : Option String) (body : List Step) (ρ : Pairing),
      TwinBody ρ (fun v => do bindName name v; again₁ body) (fun v => do bindName name v; again₂ body) :=
    fun name body ρ ρ' k t₁ t₂ v w _ ht hv =>
      (alike_bindName ht hv).bind fun ρ'' _ _ u₁ u₂ _ hu _ => hrun body ρ'' k u₁ u₂ hu
  cases action with
  | gate g os =>
    refine .seq h (peeks_values h (hall os hnames)) fun vs ws hv => ?_
    exact alike_done (alike_applyNative h hv)
  | measure os =>
    refine .seq h (peeks_values h (hall os hnames)) fun vs ws hv => ?_
    exact alike_valued (alike_measure h hn hv) fun _ _ _ hv => relates_value (relates_expr hv)
  | reset o =>
    refine .seq h (hone hnames mem_cons_self) fun v w hv => ?_
    exact alike_done (alike_reset h hv)
  | barrier os =>
    refine .seq h (peeks_values h (hall os hnames)) fun vs ws hv => ?_
    exact alike_done (alike_barrier h hv)
  | compare c l r =>
    refine .seq h (hone hnames mem_cons_self) fun a a' ha =>
      .seq h (hone hnames (mem_cons_of_mem _ mem_cons_self)) fun b b' hb => ?_
    exact alike_valued (f := id) (alike_compare h hn ha hb) fun _ _ _ hv => hv
  | logical c l r =>
    refine .seq h (hone hnames mem_cons_self) fun a a' ha =>
      .seq h (hone hnames (mem_cons_of_mem _ mem_cons_self)) fun b b' hb => ?_
    exact alike_valued (f := id) (alike_logical h hn ha hb) fun _ _ _ hv => hv
  | not o =>
    refine .seq h (hone hnames mem_cons_self) fun v w hv => ?_
    exact alike_valued (f := id) (alike_negate h hn hv) fun _ _ _ hv => hv
  | arithmetic op l r =>
    refine .seq h (hone hnames mem_cons_self) fun a a' ha =>
      .seq h (hone hnames (mem_cons_of_mem _ mem_cons_self)) fun b b' hb => ?_
    exact alike_valued (f := id) (alike_arithmetic h ha hb) fun _ _ _ hv => hv
  | newVar kind o =>
    refine .seq h (hone hnames mem_cons_self) fun v w hv => ?_
    exact alike_valued (alike_newVar h hn (rel_initial h hv)) fun _ _ _ hv =>
      relates_value (relates_expr hv)
  | newArray elem dims o =>
    refine .seq h (hone hnames mem_cons_self) fun v w hv => ?_
    exact alike_valued (alike_newArray h hn hv) fun _ _ _ hv => relates_value (relates_expr hv)
  | assign target o =>
    have ho : ∀ n ∈ o.names, ¬ IsGenerated n := fun n hno => hnames n (mem_cons_of_mem _ hno)
    refine .seq h (peeks_value h ho) fun v w hv => ?_
    exact alike_valued (f := id) (alike_assign h (hnames target (mem_cons_self ..)) hv)
      fun _ _ _ hv => hv
  | call | build => exact absurd rfl hroutine
  | name o =>
    refine .seq h (hone hnames mem_cons_self) fun v w hv => ?_
    exact .pure h (.some hv)
  | branch cond thn els =>
    refine .seq h (hone hnames mem_cons_self) fun v w hv => ?_
    refine alike_done (alike_branch h hv (hrun _) ?_)
    cases els with
    | none => exact .none
    | some els => exact .some (hrun els)
  | unroll target iter body =>
    refine .seq h (hone hnames mem_cons_self) fun v w hv => ?_
    exact alike_done (alike_unroll h hv (hbind target body))
  | loopOver target start stop step body =>
    have hstart : ∀ n ∈ start.names, ¬ IsGenerated n := by
      cases step <;> exact hall _ hnames start (by simp [Action.operands])
    have hstop : ∀ n ∈ stop.names, ¬ IsGenerated n := by
      cases step <;> exact hall _ hnames stop (by simp [Action.operands])
    refine .seq h (peeks_value h hstart) fun a a' ha => .seq h (peeks_value h hstop) fun b b' hb => ?_
    have hend : ∀ c c', Option.Rel ρ.Values c c' →
        Alike ρ k (do loopOver .own ⟨a, b, c⟩ fun v => do bindName target v; again₁ body
                      pure .done)
          (do loopOver .own ⟨a', b', c'⟩ fun v => do bindName target v; again₂ body
              pure .done) s₁ s₂ (fun ρ => Report.Paired ρ) := fun c c' hc =>
      alike_done (alike_loopOver h hn ha hb hc (hbind target body))
    cases step with
    | none => exact hend none none .none
    | some st =>
      have hst := hall _ hnames st (by simp [Action.operands])
      exact .seq h ((peeks_value h hst).map fun v w hv => rel_initial h hv) hend
  | whileLoop cond test body =>
    refine alike_done (alike_whileLoop h ?_ (hrun body) f₁ f₂)
    intro ρ' k' t₁ t₂ ht
    refine (hrun cond ρ' k' t₁ t₂ ht).bind fun ρ'' _ _ u₁ u₂ _ hu _ => ?_
    exact .of_peeks hu (peeks_value hu (hall [test] hnames test (mem_singleton.2 rfl))) fun _ _ hv => hv
  | leaveLoop =>
    exact alike_done (alike_emitPlain h "break" .break fun _ => rfl)
  | nextTurn =>
    exact alike_done (alike_emitPlain h "continue" .continue fun _ => rfl)
  | leaveRoutine o =>
    refine .seq h (hone hnames mem_cons_self) fun v w hv => ?_
    exact alike_done (alike_leaveRoutine h hv)
  | verbatim body => exact alike_done (alike_verbatim h)
  | play frame waveform => exact alike_done (alike_play h frame waveform)
  | frameCall op frame arg =>
    refine .seq h (hone hnames mem_cons_self) fun v w hv => ?_
    exact alike_done (alike_frameCall h hv)
  | delay ns os =>
    refine .seq h (peeks_values h (hall os hnames)) fun vs ws hv => ?_
    exact alike_done (alike_delay h hv)
  | fail message => exact .stop h
  | isActive => exact .seq h (peeks_isActive h) fun _ _ _ => .pure h .none
  | «stacks» | qubits | isVarUsed | declaredQubits | config | buildId =>
    exact alike_inspect h fun _ => rfl
  | returned => exact absurd rfl hreturned
  | nextName kind =>
    have heq : ∀ (run : Runner) (n : Nat), perform run lib n .own (.nextName kind) =
        nextName .own kind >>= fun name => pure (.text name) := fun _ _ => map_eq_pure_bind ..
    rw [heq, heq]
    exact alike_reported (alike_nextName h hn kind) (fun _ => rfl) fun _ => rfl
  | registerQubit n => exact .registerThen h fun t₁ t₂ ht _ => .context (.pure ht .none)
  | draft main mode => exact alike_draftOf h
  | result =>
    obtain ⟨p, c₁, h₁, hc₁⟩ := makeProgram_aside s₁
    obtain ⟨q, c₂, h₂, hc₂⟩ := makeProgram_aside s₂
    refine (Alike.asides (Q := Done) h h₁ hc₁ h₂ hc₂ trivial).bind
      fun ρ' p q t₁ t₂ _ ht _ => .context (.pure ht (.some fun _ _ => ?_))
    exact ⟨_, _, rfl⟩
  | inProgram body =>
    refine alike_done (Q := Done) ?_
    refine .bracketContext (j := k + 1) ?_ fun _ _ _ hc => hc.leaveProgram
    exact hrun body ρ (k + 1) _ _ (h.update (h.ctx.enterProgram fun _ _ => ⟨rfl, rfl, rfl, rfl⟩))
  | gateDef name params body =>
    have hp : ∀ p ∈ params, ¬ IsGenerated p.name := fun p hp => hnames _ (mem_map.2 ⟨p, hp, rfl⟩)
    refine alike_reported (alike_defineGate h hp fun t₁ t₂ ht => ?_) (fun _ => rfl) fun _ => rfl
    refine .withBindings ht (hrun body ρ k _ _ ⟨ht.ctx, fun σ hσ => ?_⟩)
    exact relates_bindParams hσ hp (h.bindings σ hσ)
  | calibrationDef gate qs as body =>
    have hos := hall (qs ++ as) hnames
    refine .seq h (peeks_exprs h fun o ho => hos o (mem_append_left _ ho)) fun es es' _ => ?_
    refine .seq h (peeks_exprs h fun o ho => hos o (mem_append_right _ ho)) fun fs fs' _ => ?_
    exact alike_reported (alike_defineCalibration h (hrun body)) (fun _ => rfl) fun _ => rfl
  | validateTargets qs as =>
    have hos := hall (qs ++ as) hnames
    refine .seq h (peeks_exprs h fun o ho => hos o (mem_append_left _ ho)) fun es es' hes => ?_
    refine .seq h (peeks_exprs h fun o ho => hos o (mem_append_right _ ho)) fun fs fs' hfs => ?_
    refine .context ?_
    rcases foreign_cases h hes hfs with ⟨h₁, h₂⟩ | ⟨e, e', h₁, h₂⟩
    · rw [h₁, h₂]
      exact .pure h .none
    · rw [h₁, h₂]
      exact .refuse h
  | nestedBuild config body =>
    refine .seq h (peeks_isActive h) ?_
    rintro _ _ ⟨rfl, rfl⟩
    exact alike_done (hrun body ρ k s₁ s₂ h)

end perform

/-! ### Calls -/

theorem Alike.elim {m₁ m₂ : Convert α} {Q : Pairing → α → α → Prop} {a b : α} {t₁ t₂ : State}
    (h : Alike ρ k m₁ m₂ s₁ s₂ Q) (h₁ : m₁ s₁ = (.ok a, t₁)) (h₂ : m₂ s₂ = (.ok b, t₂)) :
    ∃ ρ', ρ ⊆ ρ' ∧ t₁.Matches ρ' k t₂ ∧ Q ρ' a b := by
  unfold Alike at h
  rw [h₁, h₂] at h
  rcases h with h | h | ⟨ρ', hρ, h, hout⟩
  · exact absurd h (not_isHard_ok a)
  · exact absurd h (not_isHard_ok b)
  · cases hout with
    | ok hab => exact ⟨ρ', hρ, h, hab⟩

/-- Conversions of which no error can be caught need to be compared where both succeed. -/
theorem Alike.of_ok {m₁ m₂ : Convert α} {Q : Pairing → α → α → Prop}
    (h₁ : ∀ e, (m₁ s₁).1 ≠ .error (.error e)) (h₂ : ∀ e, (m₂ s₂).1 ≠ .error (.error e))
    (h : ∀ a b t₁ t₂, m₁ s₁ = (.ok a, t₁) → m₂ s₂ = (.ok b, t₂) → ∃ ρ', ρ ⊆ ρ' ∧ t₁.Matches ρ' k t₂ ∧ Q ρ' a b) :
    Alike ρ k m₁ m₂ s₁ s₂ Q := by
  unfold Alike
  rcases hm₁ : m₁ s₁ with ⟨e₁ | a, t₁⟩
  · rw [hm₁] at h₁
    exact .inl ⟨e₁, rfl, fun e he => h₁ e (congrArg _ he)⟩
  · rcases hm₂ : m₂ s₂ with ⟨e₂ | b, t₂⟩
    · rw [hm₂] at h₂
      exact .inr (.inl ⟨e₂, rfl, fun e he => h₂ e (congrArg _ he)⟩)
    · obtain ⟨ρ', hρ, ht, hab⟩ := h a b t₁ t₂ hm₁ hm₂
      exact .inr (.inr ⟨ρ', hρ, ht, .ok hab⟩)

theorem alike_bindArgument {p : Param} {v w : Value} (h : s₁.Matches ρ k s₂)
    (hv : ρ.Values v w) :
    Alike ρ k (bindArgument name p v) (bindArgument name p w) s₁ s₂ Exprs := by
  unfold bindArgument
  cases p.ty with
  | none => exact .stop h
  | some t =>
    dsimp only
    split
    · exact alike_qubitOperand h hv
    · have hout := outcomes_toExpr h hv
      generalize v.toExpr = x at hout ⊢
      generalize w.toExpr = y at hout ⊢
      cases hout with
      | error e e' => exact .refuse h
      | @ok e e' he =>
        dsimp only
        rw [h.ty he]
        refine .seq h (peeks_liftFault _) ?_
        rintro ok _ rfl
        split
        · exact .pure h he
        · exact .refuse h

/-- The arguments are bound from left to right, so the values are those from before all of it. -/
theorem alike_bindArguments {ρ' : Pairing} {vs ws : List Value}
    (hv : Forall₂ ρ.Values vs ws) (hρ : ρ ⊆ ρ') (h : s₁.Matches ρ' k s₂)
    (ps : List Param) :
    Alike ρ' k (bindArguments name ps vs) (bindArguments name ps ws) s₁ s₂
      (fun ρ => Forall₂ ρ.Exprs) := by
  induction ps generalizing vs ws ρ' s₁ s₂ with
  | nil => exact .pure h .nil
  | cons p ps ih =>
    cases hv with
    | nil => exact .pure h .nil
    | cons hvw hvs =>
      refine (alike_bindArgument h (hvw.mono hρ)).bind fun ρ₁ e e' t₁ t₂ hρ₁ ht he => ?_
      refine (ih hvs (List.Subset.trans hρ hρ₁) ht).bind fun ρ₂ es es' u₁ u₂ hρ₂ hu hes => .pure hu ?_
      exact .cons (he.mono hρ₂) hes

theorem alike_emitCall {r : Routine} {es es' : List Expr} (h : s₁.Matches ρ k s₂) (hn : Room s₁ s₂)
    (he : ρ.Relates Expr.RenamedAll es es') :
    Alike ρ k (emitCall r es) (emitCall r es') s₁ s₂ (fun ρ => Option.Rel ρ.Vars) := by
  have hcall : ρ.Exprs (.call r.name es r.returns) (.call r.name es' r.returns) := by
    intro σ hσ
    rw [Expr.Renamed, Expr.rename_call, he σ hσ]
  have hreturned : ∀ {c₁ c₂ : Context} {ρ' : Pairing} {v w : Option Var}, Context.Matches ρ' k c₁ c₂ →
      Context.Matches ρ' k { c₁ with returned := v } { c₂ with returned := w } := fun hc =>
    hc.aside (.of_eq rfl rfl rfl rfl rfl rfl rfl) (.of_eq rfl rfl rfl rfl rfl rfl rfl)
  unfold emitCall
  cases hr : r.returns with
  | none =>
    rw [hr] at hcall
    refine (Alike.emit h fun σ hσ => ?_).bind fun ρ₁ _ _ t₁ t₂ _ ht _ => ?_
    · rw [Stmt.Renamed, Stmt.rename, ← hcall σ hσ]
    · exact .updateThen (.pure (ht.update (hreturned ht.ctx)) .none)
  | some t =>
    rw [hr] at hcall
    refine (alike_freshName h hn _).bind fun ρ₁ x y t₁ t₂ hρ₁ ht hxy => ?_
    have hv : ρ₁.Vars ⟨x, some t, some (.call r.name es (some t))⟩
        ⟨y, some t, some (.call r.name es' (some t))⟩ :=
      relates_var hxy fun σ hσ => congrArg some (hcall σ (hσ.mono hρ₁))
    refine (alike_declare ht hv).bind fun ρ₂ _ _ u₁ u₂ hρ₂ hu _ => .updateThen ?_
    exact .pure (hu.update (hreturned hu.ctx)) (.some (hv.mono hρ₂))

theorem relates_argumentsFor {p : Param → Bool} {ps : List Param} {vs ws : List Value}
    (hv : Forall₂ ρ.Values vs ws) :
    Forall₂ ρ.Values (argumentsFor p ps vs) (argumentsFor p ps ws) := by
  induction ps generalizing vs ws with
  | nil => exact .nil
  | cons q ps ih =>
    cases hv with
    | nil => exact .nil
    | cons hvw hvs =>
      have hrest := ih hvs
      unfold argumentsFor at hrest ⊢
      rw [zip_cons_cons, zip_cons_cons, filter_cons, filter_cons]
      dsimp only
      split
      · exact .cons hvw hrest
      · exact hrest

theorem Peeks.of_bind_ok {β : Type} {m₁ m₂ : Convert α} {f₁ f₂ : α → Convert β} {Q : α → α → Prop} {a b : β}
    {t₁ t₂ : State} (h : Peeks m₁ m₂ s₁ s₂ Q) (h₁ : (m₁ >>= f₁) s₁ = (.ok a, t₁))
    (h₂ : (m₂ >>= f₂) s₂ = (.ok b, t₂)) :
    ∃ x y, Q x y ∧ f₁ x s₁ = (.ok a, t₁) ∧ f₂ y s₂ = (.ok b, t₂) := by
  rcases h.bind_apply f₁ f₂ with ⟨e, e', he, -⟩ | ⟨x, y, hxy, hf₁, hf₂⟩
  · cases (Prod.ext_iff.1 (he.symm.trans h₁)).1
  · exact ⟨x, y, hxy, hf₁.symm.trans h₁, hf₂.symm.trans h₂⟩

theorem peeks_routine (id : String) :
    Peeks (routine lib id) (routine lib id) s₁ s₂ fun x y => x = y ∧ lib.find? id = some x := by
  unfold routine
  cases lib.find? id with
  | none => exact ⟨rfl, rfl, .error _ _⟩
  | some x => exact .pure ⟨rfl, rfl⟩

theorem aside_of_build {again : Runner} {r : Routine} {settings : List Setting} {p : BuiltProgram} {s t : State}
    (h : build again r settings s = (.ok p, t)) : t.ctx = s.ctx ∧ t.bindings = s.bindings := by
  unfold build at h
  split at h
  · obtain ⟨_, u, hu, -⟩ := exists_of_bind_ok h
    cases hu
  obtain ⟨_, -, h⟩ := (reads_checkQubits s).exists_of_bind_ok h
  have h := eq_of_mapError_ok h
  obtain ⟨u, hin, rfl⟩ := exists_of_inNewContext_ok h
  obtain ⟨v, u₁, hbody, hend⟩ := exists_of_bind_ok hin
  obtain ⟨_, u₂, hdeclare, hmake⟩ := exists_of_bind_ok hend
  obtain ⟨q, c, hq, -⟩ := makeProgram_aside u₂
  refine ⟨rfl, ?_⟩
  calc u.bindings = u₂.bindings := congrArg (·.2.bindings) (hmake.symm.trans hq)
    _ = u₁.bindings := by rcases declareRegister_ok hdeclare with ⟨-, -, rfl⟩ | ⟨-, -, rfl⟩ <;> rfl
    _ = s.bindings := congrArg (·.2.bindings) hbody.symm

end Convert

/-! ### Bodies under observation -/

/-- Nothing about the step depends on the place where it is carried out. It does not ask for the result of a
call that may have been made elsewhere, it uses no name that a build may generate, and the routines that it
runs succeed. -/
structure Step.Portable (lib : Library) (t : State) (st : Step) : Prop where
  handle : st.handle = .own
  returned : st.action ≠ .returned
  names : ∀ n ∈ st.action.written, ¬ IsGenerated n
  succeeds : st.action.runsRoutine = true → ∀ fuel e,
    (Convert.perform (Convert.run lib fuel) lib fuel .own st.action t).1 ≠ .error (.error e)

/-- There are names left, and the step is portable. -/
def Steady (lib : Library) (o : Option Step) (t : State) : Prop :=
  t.HasNames ∧ ∀ st, o = some st → st.Portable lib t

/-- What is done for a definition cannot be seen. -/
theorem State.Matches.asides {ρ : Pairing} {k : Nat} {s₁ s₂ t₁ t₂ : State} (h : s₁.Matches ρ k s₂)
    (h₁ : s₁.ctx.Aside t₁.ctx ∧ t₁.bindings = s₁.bindings)
    (h₂ : s₂.ctx.Aside t₂.ctx ∧ t₂.bindings = s₂.bindings) : t₁.Matches ρ k t₂ := by
  refine ⟨h.ctx.aside h₁.1 h₂.1, ?_⟩
  rw [h₁.2, h₂.2]
  exact h.bindings

namespace Convert
variable {ρ : Pairing} {k : Nat} {s₁ s₂ : State} {lib : Library} {n₁ n₂ : Nat}

/-- Runs bodies as long as they are steady. -/
noncomputable def steadyRun (lib : Library) (fuel : Nat) : Runner :=
  observed (insist (Steady lib) .exhausted) lib fuel

/-- Routines come from the library, names are counted, and the run may be stopped. -/
def steadyPolicy (lib : Library) : Policy where
  routine := lib.Holds
  number n := 0 ≤ n ∧ n < Word.largest
  excuses := (· = .exhausted)
  caught := error_ne_exhausted

theorem counts_steadyPolicy : (steadyPolicy lib).Counts := fun _ hn => hn

theorem runs_steady (lib : Library) (fuel : Nat) :
    Runs (steadyPolicy lib).discipline (fun _ => True) (fun _ => True) (steadyRun lib fuel)
      (steadyRun lib fuel) :=
  runs_insist (π := steadyPolicy lib) rfl (fun _ _ _ _ _ => trivial) (fun _ _ _ hr => Library.holds_of_find? hr)
    (fun _ _ hu => ⟨hu.1, fun _ _ => obeys_discipline _ lib _ _ (fun _ _ _ _ _ _ _ _ => trivial) fun _ => trivial,
      fun _ _ _ _ _ _ _ _ _ _ _ => trivial, fun _ _ => .of_forall,
      fun _ _ _ _ => trivial⟩)
    (fun _ _ _ _ _ _ _ _ _ => trivial) (fun _ _ hu _ _ => if_pos hu) fuel

section calls
variable {key : Nat} {r : Routine} {vs ws : List Value} {t₁ t₂ : State} (hr : lib.Holds key r)
include hr

theorem matches_of_callGate (hk : r.kind = .gate) (h : s₁.Matches ρ k s₂)
    (hv : Forall₂ ρ.Values vs ws)
    (h₁ : callGate (steadyRun lib n₁) .own r vs s₁ = (.ok (), t₁))
    (h₂ : callGate (steadyRun lib n₂) .own r ws s₂ = (.ok (), t₂)) :
    ∃ ρ', ρ ⊆ ρ' ∧ t₁.Matches ρ' k t₂ := by
  have hdefined : ∀ {n : Nat} {s u : State}, s.ctx.active = true →
      u = s ∨ defineGateRoutine (steadyRun lib n) r s = (.ok (), u) →
      s.ctx.Aside u.ctx ∧ u.bindings = s.bindings := by
    rintro n s u hact (rfl | hu)
    · exact ⟨.refl _, rfl⟩
    · exact aside_of_defineGateRoutine (runs_steady lib n) counts_steadyPolicy hr hk hact hu
  obtain ⟨u₁, hu₁, happly₁⟩ := callGate_ok h₁
  obtain ⟨u₂, hu₂, happly₂⟩ := callGate_ok h₂
  have hu := h.asides (hdefined h.ctx.active.1 hu₁) (hdefined h.ctx.active.2 hu₂)
  obtain ⟨ρ', hρ, ht, -⟩ :=
    (alike_applyGate hu (relates_argumentsFor hv) (relates_argumentsFor hv)).elim happly₁ happly₂
  exact ⟨ρ', hρ, ht⟩

theorem aside_of_bound {n : Nat} {s u t : State} {es : List Expr} (hk : r.kind ≠ .gate)
    (hp : s.ctx.Permits .classical) (hn : 0 ≤ s.ctx.nextVar ∧ s.ctx.nextVar < Word.largest)
    (hbind : bindArguments r.name r.params vs s = (.ok es, u)) (hsup : Supplied (steadyRun lib n) key r u t) :
    (u.ctx.Aside t.ctx ∧ t.bindings = u.bindings) ∧ 0 ≤ t.ctx.nextVar ∧ t.ctx.nextVar < Word.largest := by
  obtain ⟨qs, rfl⟩ := bindArguments_ok hbind
  obtain ⟨haside, hbindings, hnumber⟩ := aside_of_supplied (s := { s with ctx := { s.ctx with qubits := qs } })
    (runs_steady lib n) counts_steadyPolicy hr hk hp hn hsup
  exact ⟨⟨haside, hbindings⟩, hnumber⟩

theorem matches_of_callSubroutine {x y : Option Var} (hk : r.kind ≠ .gate) (h : s₁.Matches ρ k s₂)
    (hn : Room s₁ s₂) (hv : Forall₂ ρ.Values vs ws)
    (h₁ : callSubroutine (steadyRun lib n₁) key r vs s₁ = (.ok x, t₁))
    (h₂ : callSubroutine (steadyRun lib n₂) key r ws s₂ = (.ok y, t₂)) :
    ∃ ρ', ρ ⊆ ρ' ∧ t₁.Matches ρ' k t₂ ∧ Option.Rel ρ'.Vars x y := by
  obtain ⟨hp₁, es, u₁, v₁, hbind₁, hsup₁, hemit₁⟩ := callSubroutine_ok h₁
  obtain ⟨hp₂, es', u₂, v₂, hbind₂, hsup₂, hemit₂⟩ := callSubroutine_ok h₂
  obtain ⟨ρ₁, hρ₁, hu, hes⟩ := (alike_bindArguments hv (List.Subset.refl ρ) h r.params).elim hbind₁ hbind₂
  obtain ⟨ha₁, hn₁⟩ := aside_of_bound hr hk ⟨h.ctx.active.1, hp₁⟩ hn.1 hbind₁ hsup₁
  obtain ⟨ha₂, hn₂⟩ := aside_of_bound hr hk ⟨h.ctx.active.2, hp₂⟩ hn.2 hbind₂ hsup₂
  obtain ⟨ρ₂, hρ₂, ht, hxy⟩ := (alike_emitCall (hu.asides ha₁ ha₂) ⟨hn₁, hn₂⟩
    (Expr.renamedAll_of_forall₂ hes)).elim hemit₁ hemit₂
  exact ⟨ρ₂, List.Subset.trans hρ₁ hρ₂, ht, hxy⟩

/-- Places differ in the definitions that are missing, and calls that succeed do the same. -/
theorem matches_of_call {v w : Value} (h : s₁.Matches ρ k s₂) (hn : Room s₁ s₂)
    (hv : Forall₂ ρ.Values vs ws)
    (h₁ : call (steadyRun lib n₁) .own key r vs s₁ = (.ok v, t₁))
    (h₂ : call (steadyRun lib n₂) .own key r ws s₂ = (.ok w, t₂)) :
    ∃ ρ', ρ ⊆ ρ' ∧ t₁.Matches ρ' k t₂ ∧ ρ'.Values v w := by
  rcases call_ok h.ctx.active.1 h₁ with ⟨hk, hnone, hcall₁⟩ | ⟨hk, x, hx, hcall₁⟩
  · rcases call_ok h.ctx.active.2 h₂ with ⟨-, hnone', hcall₂⟩ | ⟨hk', -⟩
    · obtain ⟨ρ', hρ, ht⟩ := matches_of_callGate hr hk h hv hcall₁ hcall₂
      refine ⟨ρ', hρ, ht, ?_⟩
      rw [hnone, hnone']
      exact fun _ _ => rfl
    · exact absurd hk hk'
  · rcases call_ok h.ctx.active.2 h₂ with ⟨hk', -⟩ | ⟨-, y, hy, hcall₂⟩
    · exact absurd hk' hk
    · obtain ⟨ρ', hρ, ht, hxy⟩ := matches_of_callSubroutine hr hk h hn hv hcall₁ hcall₂
      refine ⟨ρ', hρ, ht, ?_⟩
      rw [hx, hy]
      cases hxy with
      | none => exact fun _ _ => rfl
      | some hvw => exact relates_value (relates_expr hvw)

end calls

theorem alike_routine (hroutine : action.runsRoutine = true) (h : s₁.Matches ρ k s₂)
    (hn : Room s₁ s₂) (hnames : ∀ n ∈ action.written, ¬ IsGenerated n)
    (h₁ : ∀ e, (perform (steadyRun lib n₁) lib n₁ .own action s₁).1 ≠ .error (.error e))
    (h₂ : ∀ e, (perform (steadyRun lib n₂) lib n₂ .own action s₂).1 ≠ .error (.error e)) :
    Alike ρ k (perform (steadyRun lib n₁) lib n₁ .own action) (perform (steadyRun lib n₂) lib n₂ .own action)
      s₁ s₂ (fun ρ => Report.Paired ρ) := by
  refine .of_ok h₁ h₂ fun a b t₁ t₂ hok₁ hok₂ => ?_
  cases action with
  | call id os =>
    obtain ⟨⟨key, r⟩, _, ⟨rfl, hfind⟩, hok₁, hok₂⟩ := (peeks_routine id).of_bind_ok hok₁ hok₂
    obtain ⟨vs, ws, hv, hok₁, hok₂⟩ :=
      (peeks_values h fun o ho n hno => hnames n (Operand.mem_namesAll.2 ⟨o, ho, hno⟩)).of_bind_ok hok₁ hok₂
    obtain ⟨v, u₁, hcall₁, hend₁⟩ := exists_of_bind_ok hok₁
    obtain ⟨w, u₂, hcall₂, hend₂⟩ := exists_of_bind_ok hok₂
    cases hend₁
    cases hend₂
    obtain ⟨ρ', hρ, ht, hvw⟩ := matches_of_call (Library.holds_of_find? hfind) h hn hv hcall₁ hcall₂
    exact ⟨ρ', hρ, ht, .some hvw⟩
  | build id settings =>
    obtain ⟨⟨key, r⟩, _, ⟨rfl, -⟩, hok₁, hok₂⟩ := (peeks_routine id).of_bind_ok hok₁ hok₂
    obtain ⟨p, u₁, hbuild₁, hend₁⟩ := exists_of_bind_ok hok₁
    obtain ⟨q, u₂, hbuild₂, hend₂⟩ := exists_of_bind_ok hok₂
    cases hend₁
    cases hend₂
    obtain ⟨hctx₁, hbindings₁⟩ := aside_of_build hbuild₁
    obtain ⟨hctx₂, hbindings₂⟩ := aside_of_build hbuild₂
    refine ⟨ρ, List.Subset.refl ρ, h.asides ⟨hctx₁ ▸ .refl _, hbindings₁⟩
      ⟨hctx₂ ▸ .refl _, hbindings₂⟩, .some fun _ _ => ?_⟩
    exact ⟨_, rfl⟩
  | _ => cases hroutine

/-! ### Runs -/

theorem alike_concluded {m₁ m₂ : Convert Report} {word : String} {target : Option String} {guarded : Bool}
    (h : Alike ρ k m₁ m₂ s₁ s₂ fun ρ => Report.Paired ρ) :
    Alike ρ k (fun s => concluded word target guarded (m₁ s).1 (m₁ s).2)
      (fun s => concluded word target guarded (m₂ s).1 (m₂ s).2) s₁ s₂ Done := by
  have hhard : ∀ {e : Stop} {t : State}, (∀ x, e ≠ .error x) →
      IsHard (concluded word target guarded (.error e) t).1 := by
    intro e t he
    cases e with
    | error x => exact absurd rfl (he x)
    | _ => exact ⟨_, rfl, nofun⟩
  unfold Alike at h ⊢
  dsimp only
  generalize (m₁ s₁).1 = r₁ at h ⊢
  generalize (m₂ s₂).1 = r₂ at h ⊢
  generalize (m₁ s₁).2 = t₁ at h ⊢
  generalize (m₂ s₂).2 = t₂ at h ⊢
  rcases h with ⟨e, rfl, he⟩ | ⟨e, rfl, he⟩ | ⟨ρ', hρ, h, hout⟩
  · exact .inl (hhard he)
  · exact .inr (.inl (hhard he))
  · cases hout with
    | error e e' =>
      by_cases hsoft : ∃ x, e = .error x
      · obtain ⟨x, rfl⟩ := hsoft
        by_cases hsoft' : ∃ x, e' = .error x
        · obtain ⟨x', rfl⟩ := hsoft'
          refine .inr (.inr ⟨ρ', hρ, ⟨h.ctx, h.bindings⟩, ?_⟩)
          cases guarded with
          | true => exact .ok trivial
          | false => exact .error _ _
        · exact .inr (.inl (hhard fun x hx => hsoft' ⟨x, hx⟩))
      · exact .inl (hhard fun x hx => hsoft ⟨x, hx⟩)
    | @ok a b hab =>
      have hnoted : (note word (.ok a) t₁).Matches ρ' k (note word (.ok b) t₂) := ⟨h.ctx, h.bindings⟩
      unfold Report.Paired at hab
      cases a with
      | value v =>
        cases b with
        | value w =>
          cases hab with
          | some hvw => exact (alike_bindName hnoted hvw).since hρ
        | _ => cases hab
      | _ =>
        cases b with
        | value w => cases hab
        | _ => exact .inr (.inr ⟨ρ', hρ, hnoted, .ok trivial⟩)

theorem alike_insistThen {β : Type} {M : Option Step → State → Prop} {o : Option Step} {f₁ f₂ : Unit → Convert β}
    {Q : Pairing → β → β → Prop}
    (h : M o s₁ → M o s₂ → Alike ρ k (f₁ ()) (f₂ ()) s₁ s₂ Q) :
    Alike ρ k (insist M .exhausted o >>= f₁) (insist M .exhausted o >>= f₂) s₁ s₂ Q := by
  have hstop : ∀ {f : Unit → Convert β} {s : State}, ¬ M o s → IsHard ((insist M .exhausted o >>= f) s).1 := by
    intro f s hs
    rw [bind_of_error (if_neg hs)]
    exact ⟨.exhausted, rfl, nofun⟩
  by_cases h₁ : M o s₁
  · by_cases h₂ : M o s₂
    · have hrest := h h₁ h₂
      unfold Alike at hrest ⊢
      rwa [bind_of_ok (if_pos h₁), bind_of_ok (if_pos h₂)]
    · exact .inr (.inl (hstop h₂))
  · exact .inl (hstop h₁)

theorem twin_forM {f₁ f₂ : α → Convert Unit} (hf : ∀ a, Twin (f₁ a) (f₂ a) Done)
    (as : List α) : Twin (as.forM f₁) (as.forM f₂) Done := by
  induction as with
  | nil => exact fun ρ k s₁ s₂ h => .pure h trivial
  | cons a as ih =>
    intro ρ k s₁ s₂ h
    exact (hf a ρ k s₁ s₂ h).bind fun ρ' _ _ t₁ t₂ _ ht _ => ih ρ' k t₁ t₂ ht

theorem perform_steadyRun_ne {fuel : Nat} {t : State}
    (h : ∀ e, (perform (run lib fuel) lib fuel .own action t).1 ≠ .error (.error e)) (e : Error) :
    (perform (steadyRun lib fuel) lib fuel .own action t).1 ≠ .error (.error e) := by
  intro heq
  refine h e ?_
  rw [perform_cut (X := (· = .exhausted)) error_ne_exhausted (insist_apply (Steady lib) .exhausted) (.inl rfl)]
  · exact heq
  · exact heq ▸ not_excused_error _ e

/-- A body that is steady does the same from all states that match. -/
theorem twin_run (lib : Library) (n₁ n₂ : Nat) (steps : List Step) :
    Twin (steadyRun lib n₁ steps) (steadyRun lib n₂ steps) Done := by
  -- the bounds need not agree: a run whose bound is spent has stopped, and there is nothing to compare
  induction n₁ generalizing n₂ steps with
  | zero => exact fun ρ k s₁ s₂ h => .inl ⟨.exhausted, rfl, nofun⟩
  | succ n₁ ih =>
    cases n₂ with
    | zero => exact fun ρ k s₁ s₂ h => .inr (.inl ⟨.exhausted, rfl, nofun⟩)
    | succ n₂ =>
      intro ρ k s₁ s₂ h
      refine (twin_forM (fun st => ?_) steps ρ k s₁ s₂ h).bind fun ρ' _ _ t₁ t₂ _ ht _ => ?_
      · intro ρ k s₁ s₂ h
        refine alike_insistThen fun h₁ h₂ => ?_
        obtain ⟨action, target, guarded, hd⟩ := st
        have hp₁ := h₁.2 _ rfl
        have hp₂ := h₂.2 _ rfl
        obtain rfl : hd = .own := hp₁.handle
        have hstep : ∀ n, step (steadyRun lib n) lib n (.mk action target guarded .own) = fun s =>
            concluded action.word target guarded (perform (steadyRun lib n) lib n .own action s).1
              (perform (steadyRun lib n) lib n .own action s).2 :=
          fun n => funext fun s => step_apply ..
        have hn : Room s₁ s₂ := ⟨h₁.1.1, h₂.1.1⟩
        show Alike ρ k (step (steadyRun lib n₁) lib n₁ _) (step (steadyRun lib n₂) lib n₂ _) s₁ s₂ _
        rw [hstep, hstep]
        refine alike_concluded ?_
        -- what a call or a build converts on the side may be there already in one of the runs
        by_cases hroutine : action.runsRoutine = true
        · exact alike_routine hroutine h hn hp₁.names (perform_steadyRun_ne (hp₁.succeeds hroutine n₁))
            (perform_steadyRun_ne (hp₂.succeeds hroutine n₂))
        · exact alike_perform (ih n₂) h hn hroutine hp₁.returned hp₁.names
      · have hend : Alike ρ' k (insist (Steady lib) .exhausted none >>= pure)
            (insist (Steady lib) .exhausted none >>= pure) t₁ t₂ Done :=
          alike_insistThen fun _ _ => .pure ht trivial
        rwa [bind_pure] at hend

end Convert

end QasmStudio

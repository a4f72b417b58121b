import QasmStudio.Proofs.Convert.Advance
import QasmStudio.Proofs.Convert.Apply

/-!
# Operations without bodies

`Goes d m s Q`: from `s` the conversion `m` changes nothing but the context, and that as `Acts` says,
whether it succeeds or stops; what it returns satisfies `Q` with the context it leaves. Each operation
that runs no body goes, given that its operands keep to the discipline and that the number of the next
generated name, if it takes one, may be given out.
-/

namespace QasmStudio

open List Context

variable {name : String} {v : Value} {e : Expr}

/-! ### Facts that last -/

namespace Context
variable {d : Discipline} {c c' : Context}

theorem Permits.mono {mode : Mode} (hp : c.Permits mode) (h : c.Advance c') : c'.Permits mode := by
  refine ⟨h.active.trans hp.1, ?_⟩
  have heq : c'.refusal? mode = c.refusal? mode := by simp only [refusal?, h.gates, h.calibrations]
  rw [heq, hp.2]

theorem resolve_congr (hv : c'.verbatim = c.verbatim) (hf : c'.config = c.config) (v : Value) :
    c'.resolve v = c.resolve v := by
  simp only [resolve, hv, hf]

/-- An operand is a number that fixes an element of the register, or it fixes none. -/
theorem resolve_cases {t : Target} (h : c.resolve v = .ok t) :
    (∃ n, 0 ≤ n ∧ v = .int .word n ∧ t = ⟨.index registerExpr (.int n), some n⟩) ∨ t.index = none := by
  unfold resolve at h
  split at h
  · split at h
    · cases h
    · rename_i hneg
      split at h
      · cases h
        exact .inr rfl
      · cases h
        exact .inl ⟨_, Int.not_lt.1 hneg, rfl, rfl⟩
  · split at h
    · cases h
      exact .inr rfl
    · cases h
  · cases h
    exact .inr rfl
  · split at h
    · split at h
      · cases h
        exact .inr rfl
      · split at h
        · split at h
          · cases h
            exact .inr rfl
          · cases h
        · cases h
    · cases h
  · cases h

theorem foreign_congr (hg : c'.gates = c.gates) (qs as : List Expr) : c'.foreign? qs as = c.foreign? qs as := by
  simp only [foreign?, hg]

theorem Generated.updateCurrent (h : c.Generated name) (f : Program → Program) :
    (c.updateCurrent f).Generated name := by
  obtain ⟨kind, stem, names, hs, hn, hgiven⟩ := h
  exact ⟨kind, stem, names, hs, hn, hgiven⟩

theorem Numbered.generated {π : Policy} (h : c.Numbered π name) : c.Generated name := by
  obtain ⟨kind, stem, names, hs, hn, hgiven, -⟩ := h
  exact ⟨kind, stem, names, hs, hn, hgiven⟩

theorem Generated.over (h : c.Generated name) : d.name name := by
  obtain ⟨_, stem, names, _, rfl, _⟩ := h
  exact d.generated stem _

theorem mem_registered {i : Int} (is : List Int) (c : Context) :
    i ∈ (is.foldl register c).qubits ↔ i ∈ is ∨ i ∈ c.qubits := by
  induction is generalizing c with
  | nil => simp
  | cons j is ih =>
    rw [foldl_cons, ih, register, mem_insertAscending, mem_cons]
    tauto

/-- Only the indices in use have changed. -/
def Registered (c c' : Context) : Prop := ∃ qs, c' = { c with qubits := qs }

theorem Registered.refl (c : Context) : c.Registered c := ⟨c.qubits, rfl⟩

theorem Registered.trans {c₁ c₂ : Context} (h₁ : c.Registered c₁) (h₂ : c₁.Registered c₂) : c.Registered c₂ := by
  obtain ⟨qs, rfl⟩ := h₁
  obtain ⟨qs', rfl⟩ := h₂
  exact ⟨qs', rfl⟩

theorem Registered.nextVar (h : c.Registered c') : c'.nextVar = c.nextVar := by
  obtain ⟨qs, rfl⟩ := h
  rfl

theorem Registered.stack (h : c.Registered c') : c'.stack = c.stack := by
  obtain ⟨qs, rfl⟩ := h
  rfl

theorem Registered.current (h : c.Registered c') : c'.current = c.current := by
  obtain ⟨qs, rfl⟩ := h
  rfl

theorem registered_foldl (is : List Int) (c : Context) : c.Registered (is.foldl register c) := by
  induction is generalizing c with
  | nil => exact .refl c
  | cons j is ih => exact .trans ⟨insertAscending j c.qubits, rfl⟩ (ih _)

end Context

namespace Discipline
variable {d : Discipline} {c c' : Context}

/-- A value that may stand for a qubit. -/
def Qubit (d : Discipline) (v : Value) : Prop := v.Over d.name ∧ d.wire v

/-- A value that a variable may start with. -/
def Starts (d : Discipline) (v : Value) : Prop := v.Over d.name ∧ ∀ e, v.toExpr = .ok e → d.Grants e

theorem Addressed.mono {t : Target} (ht : d.Addressed c t) (h : c.Advance c') : d.Addressed c' t := by
  obtain ⟨⟨v, hv, hw, hr⟩, hi⟩ := ht
  exact ⟨⟨v, hv, hw, by rw [resolve_congr h.verbatim h.config, hr]⟩, fun i hti => h.qubits (hi i hti)⟩

theorem Argument.mono (he : d.Argument c e) (h : c.Advance c') : d.Argument c' e := by
  rcases he with he | ⟨t, ht, rfl⟩
  · exact .inl he
  · exact .inr ⟨t, ht.mono h, rfl⟩

theorem Knows.mono (hk : d.Knows c name) (h : c.Advance c') : d.Knows c' name := by
  rcases hk with hk | ⟨key, stub, r, hmem, hr, hn⟩
  · exact .inl (h.hasSubroutine hk)
  · exact .inr ⟨key, stub, r, h.converting ▸ hmem, hr, hn⟩

theorem Applies.mono (hn : d.Applies c name) (h : c.Advance c') : d.Applies c' name := hn.imp_right h.hasGate

theorem grants_of_callee? (h : e.callee? = none) : d.Grants e := fun name hn => by
  rw [h] at hn
  cases hn

end Discipline

open Discipline

theorem Acts.registers {d : Discipline} {c : Context} {is : List Int}
    (h : ∀ i ∈ is, d.Registers c i) : Acts d c (is.foldl Context.register c) := by
  induction is generalizing c with
  | nil => exact .refl
  | cons i is ih =>
    refine .trans (.register (h i (mem_cons_self ..))) (ih fun j hj => ?_)
    rcases h j (mem_cons_of_mem _ hj) with ⟨v, t, hw, hr, hi⟩ | hj
    · exact .inl ⟨v, t, hw, by rw [← hr]; exact resolve_congr rfl rfl v, hi⟩
    · exact .inr hj

theorem Program.tables_declare? {p q : Program} {v : Var} (h : p.declare? v = some q) :
    p.isDeclared v.name = false ∧ q.isDeclared v.name = true ∧ q.isPending v.name = false := by
  unfold declare? at h
  split at h
  · cases h
  · rename_i hnew
    cases h
    refine ⟨by simpa using hnew, ?_, ?_⟩
    · simp [isDeclared, add, markDeclared]
    · simp [isPending, add, markDeclared]

namespace Convert

variable {α β : Type} {d : Discipline} {s : State} {h : Handle} {vs qubits : List Value}

/-- From `s` only the context changes, as operations change it, and the result satisfies `Q`. -/
def Goes (d : Discipline) (m : Convert α) (s : State) (Q : α → Context → Prop) : Prop :=
  (∀ e, (m s).1 = .error e → e.IsOwn) ∧
  ∃ c', (m s).2 = { s with ctx := c' } ∧ Acts d s.ctx c' ∧ ∀ a, (m s).1 = .ok a → Q a c'

namespace Goes
variable {m : Convert α} {P : α → Prop} {Q R : α → Context → Prop}

theorem of_error {e : Stop} (he : e.IsOwn) (h : m s = (.error e, s)) : Goes d m s Q := by
  refine ⟨?_, s.ctx, by rw [h], .refl, ?_⟩ <;> rw [h]
  · exact fun e' heq => Except.error.inj heq ▸ he
  · exact fun _ h => by cases h

theorem of_ok {a : α} (h : m s = (.ok a, s)) (ha : Q a s.ctx) : Goes d m s Q := by
  refine ⟨?_, s.ctx, by rw [h], .refl, ?_⟩ <;> rw [h]
  · exact fun _ h => by cases h
  · exact fun b hb => Except.ok.inj hb ▸ ha

theorem pure {a : α} (h : Q a s.ctx) : Goes d (pure a) s Q := of_ok rfl h

theorem raise {e : Error} (he : e.IsBare) : Goes d (raise e : Convert α) s Q := of_error (e := .error e) he rfl

theorem refuse {e : DomainError} : Goes d (refuse e : Convert α) s Q := raise (Error.isBare_domain e)

theorem of_reads (h : Reads m s P) (hQ : ∀ a, P a → Q a s.ctx) : Goes d m s Q := by
  rcases h with ⟨e, he, h⟩ | ⟨a, h, ha⟩
  · exact of_error he.own h
  · exact of_ok h (hQ a ha)

theorem mono (h : Goes d m s Q) (hR : ∀ a c, Q a c → R a c) : Goes d m s R := by
  obtain ⟨hend, c', hs, hw, ha⟩ := h
  exact ⟨hend, c', hs, hw, fun a h => hR a c' (ha a h)⟩

/-- A result comes with the equation that gives it. -/
theorem traced (h : Goes d m s Q) : Goes d m s fun a c => Q a c ∧ m s = (.ok a, { s with ctx := c }) := by
  obtain ⟨hend, c', hs, hw, ha⟩ := h
  exact ⟨hend, c', hs, hw, fun a h => ⟨ha a h, Prod.ext h hs⟩⟩

theorem bind {f : α → Convert β} {T : β → Context → Prop} (h : Goes d m s Q)
    (hf : ∀ a c, Acts d s.ctx c → Q a c → Goes d (f a) { s with ctx := c } T) :
    Goes d (m >>= f) s T := by
  obtain ⟨hend, c', hs, hw, ha⟩ := h
  rcases hm : m s with ⟨e | a, s'⟩
  · rw [hm] at hs hend
    refine ⟨?_, c', by rw [bind_of_error hm, hs], hw, ?_⟩ <;> rw [bind_of_error hm]
    · exact fun e' heq => hend e' (congrArg _ (Except.error.inj heq))
    · exact fun _ h => by cases h
  · rw [hm] at hs ha
    cases hs
    obtain ⟨hend', c'', hs', hw', hb⟩ := hf a c' hw (ha a rfl)
    rw [← bind_of_ok hm f] at hend' hs' hb
    exact ⟨hend', c'', hs', hw.trans hw', hb⟩

theorem seq {f : α → Convert β} {T : β → Context → Prop} (h : Reads m s P)
    (hf : ∀ a, P a → Goes d (f a) s T) : Goes d (m >>= f) s T := by
  rcases h.bind f with ⟨e, he, h⟩ | ⟨a, ha, h⟩
  · exact of_error he.own h
  · unfold Goes
    rw [h]
    exact hf a ha

theorem update {f : Context → Context} (h : Acts d s.ctx (f s.ctx)) :
    Goes d (updateContext f) s (fun _ c => c = f s.ctx) :=
  ⟨fun _ he => (by cases he), _, rfl, h, fun _ _ => rfl⟩

theorem emit {st : Stmt} (h : d.Emits s.ctx st) : Goes d (emit st) s (fun _ c => c = s.ctx.emit st) :=
  update (.emit h)

end Goes

/-! ### Checks -/

theorem reads_isActive (h : Handle) (s : State) :
    Reads (isActive h) s
      (fun b => (b = true → s.ctx.active = true) ∧ (h = .own → s.ctx.active = true → b = true)) := by
  refine .inr ⟨_, rfl, fun hb => (Bool.and_eq_true_iff.1 hb).2, ?_⟩
  rintro rfl ha
  exact Bool.and_eq_true_iff.2 ⟨ha, ha⟩

theorem reads_requireActive (h : Handle) (operation : String) (s : State) :
    Reads (requireActive h operation) s (fun _ => s.ctx.active = true) := by
  refine (reads_isActive h s).seq fun b hb => ?_
  cases b with
  | false => exact .refuse
  | true => exact .pure (hb.1 rfl)

theorem reads_allow (mode : Mode) (s : State) : Reads (allow mode) s (fun _ => s.ctx.refusal? mode = none) := by
  refine (reads_context s).seq fun c hc => ?_
  subst hc
  split
  · exact .refuse
  · exact .pure ‹_›

theorem reads_requireClassical (h : Handle) (operation : String) (s : State) :
    Reads (requireClassical h operation) s (fun _ => s.ctx.Permits .classical) :=
  (reads_requireActive h operation s).seq fun _ ha => (reads_allow _ s).mono fun _ hr => ⟨ha, hr⟩

theorem reads_conditionExpr (hv : v.Over d.name) (s : State) :
    Reads (conditionExpr v) s (fun e => e.Over d.name) := by
  unfold conditionExpr
  split
  · exact .pure trivial
  · split
    · exact .pure hv
    · exact .refuse
  · exact .refuse

theorem reads_angleOperand (v : Value) (s : State) :
    Reads (angleOperand v) s (fun e => v.Over d.name → e.Over d.name) := by
  unfold angleOperand
  split
  · exact .pure fun _ => trivial
  · refine (reads_expression v s).seq fun e he => ?_
    have hover : v.Over d.name → e.Over d.name := Value.over_toExpr he
    split
    · split
      · exact .pure hover
      · exact .refuse
    · exact .pure hover

theorem reads_angles (hv : ∀ v ∈ vs, v.Over d.name) (s : State) :
    Reads (vs.mapM angleOperand) s (fun es => ∀ e ∈ es, e.Over d.name) := by
  refine (reads_mapM (fun v => reads_angleOperand (d := d) v s) vs).mono fun es hes e he => ?_
  obtain ⟨v, hvs, hov⟩ := exists_of_forall₂ hes e he
  exact hov (hv v hvs)

theorem reads_resolveAll (vs : List Value) (s : State) :
    Reads (resolveAll vs) s (fun ts => Forall₂ (fun v t => s.ctx.resolve v = .ok t) vs ts) := by
  refine (reads_context s).seq fun c hc => ?_
  subst hc
  exact (reads_liftDomain _ s).mono fun ts hts => forall₂_of_mapM hts

theorem reads_calibrationQubit (gate : String) (v : Value) (s : State) : Reads (calibrationQubit gate v) s
      (fun e => ∃ t : Target, s.ctx.resolve v = .ok t ∧ t.index = none ∧ t.expr = e) := by
  refine (reads_context s).seq fun c hc => (reads_liftDomain _ s).seq fun t ht => ?_
  subst hc
  dsimp only
  split
  · exact Reads.seq (Q := fun _ => False) .refuse fun _ h => h.elim
  · rename_i hindex
    exact .pure ⟨t, ht, by simpa using hindex, rfl⟩

theorem goes_registerTargets {ts : List Target}
    (hv : ∀ v ∈ vs, d.Qubit v) (hr : Forall₂ (fun v t => s.ctx.resolve v = .ok t) vs ts) :
    Goes d (registerTargets ts) s (fun _ c =>
      c = (ts.filterMap (·.index)).foldl Context.register s.ctx ∧ ∀ t ∈ ts, d.Addressed c t) := by
  have hreg : Acts d s.ctx ((ts.filterMap (·.index)).foldl Context.register s.ctx) := by
    refine .registers fun i hi => ?_
    obtain ⟨t, ht, hti⟩ := mem_filterMap.1 hi
    obtain ⟨v, hvs, hvt⟩ := exists_of_forall₂ hr t ht
    exact .inl ⟨v, t, (hv v hvs).2, hvt, hti⟩
  refine (Goes.update hreg).mono fun _ c hc => ⟨hc, fun t ht => ?_⟩
  obtain ⟨v, hvs, hvt⟩ := exists_of_forall₂ hr t ht
  subst hc
  refine ⟨⟨v, (hv v hvs).1, (hv v hvs).2, ?_⟩, fun i hi => ?_⟩
  · rw [resolve_congr hreg.advance.verbatim hreg.advance.config, hvt]
  · exact (mem_registered _ _).2 (.inl (mem_filterMap.2 ⟨t, ht, hi⟩))

theorem goes_qubitOperand (hv : d.Qubit v) :
    Goes d (qubitOperand v) s (fun e c => s.ctx.Registered c ∧
      ∃ t, s.ctx.resolve v = .ok t ∧ d.Addressed c t ∧ t.expr = e) := by
  refine .seq (reads_context s) fun c hc => ?_
  subst hc
  refine .seq (reads_liftDomain _ s) fun t ht => ?_
  have hts : Forall₂ (fun v t => s.ctx.resolve v = .ok t) [v] [t] := .cons ht .nil
  refine (goes_registerTargets (by simpa using hv) hts).bind fun _ c hw hc => ?_
  refine .pure ⟨?_, t, ht, hc.2 t (mem_cons_self ..), rfl⟩
  rw [hc.1]
  exact registered_foldl _ _

theorem goes_freshName (kind : Kind) (hn : d.policy.number s.ctx.nextVar) :
    Goes d (freshName kind) s (fun name c => (∃ stem, c = s.ctx.giveOut stem) ∧ c.Numbered d.policy name) := by
  unfold freshName
  split
  · exact .raise ⟨rfl, .inr rfl⟩
  · rename_i stem hstem
    refine .seq (reads_context s) fun c hc => ?_
    subst hc
    refine (Goes.update (.fresh hstem hn)).bind fun _ c hw hc => ?_
    subst hc
    exact .pure ⟨⟨stem, rfl⟩, kind, stem, s.ctx.given, hstem, rfl, rfl, hn⟩

theorem goes_declare {v : Var} (hp : s.ctx.Permits .classical) (hv : d.Declares s.ctx v) :
    Goes d (declare v) s (fun _ c => ∃ p, s.ctx.current.declare? v = some p ∧
      c = s.ctx.updateCurrent fun _ => p) := by
  refine .seq (reads_context s) fun c hctx => ?_
  subst hctx
  split
  · exact .raise ⟨rfl, .inr rfl⟩
  · rename_i p hdecl
    exact (Goes.update (.declare hp hv hdecl)).mono fun _ c hc => ⟨p, hdecl, hc⟩

/-! ### Gates and instructions -/

theorem goes_applyGate {angles : List Value}
    (hn : d.Applies s.ctx name) (hq : ∀ v ∈ qubits, d.Qubit v) (ha : ∀ v ∈ angles, v.Over d.name) :
    Goes d (applyGate h name qubits angles) s (fun _ _ => True) := by
  refine .seq (reads_requireActive h _ s) fun _ hact => ?_
  refine .seq (reads_allow _ s) fun _ hallow => ?_
  refine .seq (reads_resolveAll qubits s) fun ts hts => ?_
  refine .seq (reads_angles ha s) fun args hargs => ?_
  refine .seq (reads_context s) fun c hc => ?_
  subst hc
  dsimp only
  split
  · exact .seq .refuse fun _ (h : False) => h.elim
  · rename_i hforeign
    refine (goes_registerTargets hq hts).bind fun _ c hw hc => ?_
    have hadv := hw.advance
    have hf : c.foreign? (ts.map (·.expr)) args = none := by
      rw [foreign_congr hadv.gates, hforeign]
    exact (Goes.emit (.gate (Context.Permits.mono ⟨hact, hallow⟩ hadv) (hn.mono hadv) hc.2 hargs hf)).mono
      fun _ _ _ => trivial

theorem goes_applyNative {g : NativeGate} {operands : List Value}
    (hn : d.policy.native g.name) (ho : ∀ v ∈ operands, v.Over d.name)
    (hq : ∀ i < g.qubits, d.wire (operands.getD i .none)) :
    Goes d (applyNative h g operands) s (fun _ _ => True) := by
  have hover : ∀ i, (operands.getD i .none).Over d.name := by
    intro i
    rw [getD_eq_getElem?_getD]
    cases hi : operands[i]? with
    | none => trivial
    | some v => exact ho v (mem_of_getElem? hi)
  refine goes_applyGate (.inl hn) (fun v hv => ?_) (fun v hv => ?_)
  · obtain ⟨i, hi, rfl⟩ := mem_map.1 hv
    exact ⟨hover i, hq i (mem_range.1 hi)⟩
  · obtain ⟨i, -, rfl⟩ := mem_map.1 hv
    exact hover _

theorem goes_measureInto {v : Var} {ts : List Target} {i : Nat}
    (hp : s.ctx.Permits .classical) (hv : s.ctx.Generated v.name) (ht : ∀ t ∈ ts, d.Addressed s.ctx t) :
    Goes d (measureInto v i (ts.map (·.expr))) s (fun _ c =>
      c.current.declared = s.ctx.current.declared ∧ c.current.pending = s.ctx.current.pending) := by
  induction ts generalizing i s with
  | nil => exact .pure ⟨rfl, rfl⟩
  | cons t ts ih =>
    refine (Goes.emit (.measure hp hv (ht t (mem_cons_self ..)))).bind fun _ c hw hc => ?_
    have hadv := hw.advance
    subst hc
    refine (ih (s := { s with ctx := s.ctx.emit _ }) (hp.mono hadv) (hv.updateCurrent _)
      fun u hu => (ht u (mem_cons_of_mem _ hu)).mono hadv).mono fun _ c hc => ?_
    rwa [Context.emit, current_updateCurrent] at hc

theorem goes_measure (hn : d.policy.number s.ctx.nextVar) (hq : ∀ v ∈ qubits, d.Qubit v) :
    Goes d (measure h qubits) s (fun v c => (∃ stem n, v.name = generatedName stem n) ∧
      s.ctx.current.isDeclared v.name = false ∧ c.current.isDeclared v.name = true ∧
      c.current.isPending v.name = false) := by
  refine .seq (reads_requireClassical h _ s) fun _ hp => ?_
  dsimp only
  split
  · exact .seq .refuse fun _ (h : False) => h.elim
  refine .seq (reads_resolveAll qubits s) fun ts hts => ?_
  refine (goes_registerTargets hq hts).bind fun _ c hw hc => ?_
  have hp := hp.mono hw.advance
  have hn : d.policy.number c.nextVar := by rwa [hc.1, (registered_foldl _ _).nextVar]
  refine (goes_freshName (s := { s with ctx := c }) .bit hn).bind fun name c' hw' hc' => ?_
  have hp := hp.mono hw'.advance
  have ht : ∀ t ∈ ts, d.Addressed c' t := fun t ht => (hc.2 t ht).mono hw'.advance
  obtain ⟨_, stem, _, _, hname, -⟩ := hc'.2.generated
  have hcur : c'.current = s.ctx.current := by
    obtain ⟨stem, rfl⟩ := hc'.1
    rw [hc.1]
    exact (registered_foldl _ _).current
  split
  · rename_i q hts
    obtain ⟨t, rfl, rfl⟩ : ∃ t, ts = [t] ∧ t.expr = q := by
      simpa [map_eq_cons_iff] using hts
    refine (goes_declare hp (.measured hc'.2 (ht t (mem_cons_self ..)))).bind fun _ c'' _ hc'' => ?_
    obtain ⟨p, hdecl, rfl⟩ := hc''
    rw [hcur] at hdecl
    refine .pure ⟨⟨stem, _, hname⟩, ?_⟩
    rw [current_updateCurrent]
    exact Program.tables_declare? hdecl
  · refine (goes_declare hp (.zeros hc'.2)).bind fun _ c'' hw'' hc'' => ?_
    obtain ⟨p, hdecl, rfl⟩ := hc''
    refine Goes.bind (goes_measureInto (hp.mono hw''.advance) (hc'.2.generated.updateCurrent _)
      fun t h => (ht t h).mono hw''.advance) fun _ c₁ _ htables => ?_
    rw [hcur] at hdecl
    rw [current_updateCurrent] at htables
    obtain ⟨hnew, hdeclared, hwaits⟩ := Program.tables_declare? hdecl
    refine .pure ⟨⟨stem, _, hname⟩, hnew, ?_, ?_⟩
    · rwa [Program.isDeclared, htables.1]
    · rwa [Program.isPending, htables.2]

theorem goes_reset {q : Value} (hq : d.Qubit q) : Goes d (reset h q) s (fun _ _ => True) := by
  refine .seq (reads_requireClassical h _ s) fun _ hp => ?_
  refine (goes_qubitOperand hq).bind fun e c hw hc => ?_
  obtain ⟨-, t, -, ht, rfl⟩ := hc
  exact (Goes.emit (.reset (hp.mono hw.advance) ht)).mono fun _ _ _ => trivial

theorem goes_barrier (hq : ∀ v ∈ qubits, d.Qubit v) : Goes d (barrier h qubits) s (fun _ _ => True) := by
  refine .seq (reads_requireClassical h _ s) fun _ hp => ?_
  refine .seq (reads_resolveAll qubits s) fun ts hts => ?_
  refine (goes_registerTargets hq hts).bind fun _ c hw hc => ?_
  exact (Goes.emit (.barrier (hp.mono hw.advance) hc.2)).mono fun _ _ _ => trivial

/-! ### Variables and operators -/

theorem goes_newVar {t : Ty} {init : Option Value}
    (hn : d.policy.number s.ctx.nextVar) (hi : ∀ v, init = some v → d.Starts v) :
    Goes d (newVar h t init) s (fun v c => d.name v.name ∧ c.current = s.ctx.current.addPending v ∧
      ∀ u, init = some u → ∃ e, u.toExpr = .ok e ∧ v.init = some e) := by
  refine .seq (reads_requireClassical h _ s) fun _ hp => ?_
  refine (goes_freshName t.kind hn).bind fun name c hw hc => ?_
  have hp := hp.mono hw.advance
  have hcur : c.current = s.ctx.current := by
    obtain ⟨stem, rfl⟩ := hc.1
    rfl
  -- whatever the initial value is, the variable is registered for declaration
  have hpend : ∀ e : Option Expr, (∀ x, e = some x → x.Over d.name ∧ d.Grants x) → Goes d (do
        updateCurrent (·.addPending ⟨name, some t, e⟩)
        pure (⟨name, some t, e⟩ : Var)) { s with ctx := c } (fun v c => d.name v.name ∧
          c.current = s.ctx.current.addPending v ∧ v.init = e) := by
    intro e he
    refine (Goes.update (.pend hp hc.2 he)).bind fun _ c' _ hc' => ?_
    subst hc'
    refine .pure ⟨hc.2.generated.over, ?_, rfl⟩
    rw [current_updateCurrent, hcur]
  dsimp only
  split
  · exact (hpend none (by simp)).mono fun v c hv => ⟨hv.1, hv.2.1, by simp⟩
  · rename_i v
    obtain ⟨hover, hgrants⟩ := hi v rfl
    refine .seq (reads_expression v _) fun e he => ?_
    refine .seq (reads_liftFault _ _) fun ok _ => ?_
    split
    · refine (hpend (some e) fun x hx => ?_).mono fun w c hw => ⟨hw.1, hw.2.1, fun u hu => ?_⟩
      · cases hx
        exact ⟨Value.over_toExpr he hover, hgrants e he⟩
      · cases hu
        exact ⟨e, he, hw.2.2⟩
    · exact .seq .refuse fun _ (h : False) => h.elim

theorem eq_of_initial {u : Value} (h : initial? v = some u) : v = u := by
  unfold initial? at h
  split at h <;> simp_all

theorem goes_newArray {elem : Option Ty} {dims : List Int} {init : Value}
    (hn : d.policy.number s.ctx.nextVar) (hi : d.Starts init) :
    Goes d (newArray h elem dims init) s (fun v _ => d.name v.name) := by
  unfold newArray
  split
  · rename_i v hv
    refine (goes_newVar hn fun u hu => ?_).mono fun _ _ hw => hw.1
    cases hu
    exact eq_of_initial hv ▸ hi
  · refine .seq (reads_liftFault _ s) fun z hz => ?_
    split
    · exact (goes_newVar hn (by simp)).mono fun _ _ hw => hw.1
    · rename_i e _
      refine (goes_newVar hn fun v hv => ?_).mono fun _ _ hw => hw.1
      cases hv
      refine ⟨(Ty.over_zero hz).1, fun x hx => ?_⟩
      cases hx
      exact grants_of_callee? (Ty.over_zero (N := d.name) hz).2
    · refine (goes_newVar hn (by simp)).bind fun _ _ _ _ => ?_
      exact .of_reads (reads_liftFault _ _) fun _ h => by cases h

theorem reads_variableType (v : Var) (s : State) : Reads (variableType v) s (fun _ => True) := by
  unfold variableType
  split
  · exact .pure trivial
  · exact .fault

theorem goes_assign (hn : d.name name)
    (hc : s.ctx.current.lookup? name = none → d.policy.chosen s.ctx.nextVar name) (hv : d.Starts v) :
    Goes d (assign h name v) s (fun v _ => v.Over d.name) := by
  cases v with
  | expr e =>
    refine .seq (reads_requireClassical h _ s) fun _ hp => ?_
    refine .seq (reads_context s) fun c hctx => ?_
    subst hctx
    split
    · rename_i u hu
      have hname : u.name = name := Program.name_of_lookup? hu
      refine .seq (reads_variableType u s) fun t _ => ?_
      refine .seq (reads_liftFault _ s) fun ok _ => ?_
      split
      · refine (Goes.emit (.assign hp hv.1)).bind fun _ _ _ _ => ?_
        exact .pure (show d.name u.name from hname ▸ hn)
      · exact .refuse
    · rename_i hu
      split
      · refine (goes_declare hp (.assigned hn (hc hu) hu hv.1 (hv.2 e rfl))).bind fun _ _ _ _ => ?_
        exact .pure (show d.name name from hn)
      · exact .refuse
  | _ => exact .pure hv.1

theorem goes_truthResult (hn : d.policy.number s.ctx.nextVar) (he : e.Over d.name) :
    Goes d (truthResult h e) s (fun v _ => v.Over d.name) := by
  refine .seq (reads_requireClassical h _ s) fun _ hp => ?_
  refine (goes_freshName .bool hn).bind fun name c hw hc => ?_
  have hp := hp.mono hw.advance
  let v : Var := ⟨name, some Ty.bool, none⟩
  -- storing into a new variable is registering it and assigning to it
  have hset : ∀ c : Context, c.updateCurrent (·.set v e) =
      (c.updateCurrent (·.addPending v)).emit (.assign v.expr e) := by
    intro c
    unfold Context.emit Context.updateCurrent
    cases c.inner <;> rfl
  have hpend : Acts d c (c.updateCurrent (·.addPending v)) := .pend hp hc.2 (by simp [v])
  have hwrite : Acts d c (c.updateCurrent (·.set v e)) := by
    rw [hset]
    exact hpend.trans (.emit (.assign (hp.mono hpend.advance) he))
  exact (Goes.update hwrite).bind fun _ _ _ _ => .pure (show d.name name from hc.2.generated.over)

theorem goes_compare {o : Comparison} {a b : Value}
    (hn : d.policy.number s.ctx.nextVar) (ha : a.Over d.name) (hb : b.Over d.name) :
    Goes d (compare h o a b) s (fun v _ => v.Over d.name) := by
  unfold compare
  split
  · refine .seq (reads_expression a s) fun l hl => .seq (reads_expression b s) fun r hr => ?_
    exact goes_truthResult hn ⟨Value.over_toExpr hl ha, Value.over_toExpr hr hb⟩
  · split
    · exact .pure trivial
    · exact .refuse

theorem goes_logical {o : Connective} {a b : Value}
    (hn : d.policy.number s.ctx.nextVar) (ha : a.Over d.name) (hb : b.Over d.name) :
    Goes d (logical h o a b) s (fun v _ => v.Over d.name) := by
  unfold logical
  split
  · exact .pure trivial
  · refine .seq (reads_conditionExpr ha s) fun l hl => .seq (reads_conditionExpr hb s) fun r hr => ?_
    exact goes_truthResult hn ⟨hl, hr⟩

theorem goes_negate {a : Value} (hn : d.policy.number s.ctx.nextVar) (ha : a.Over d.name) :
    Goes d (negate h a) s (fun v _ => v.Over d.name) := by
  unfold negate
  split
  · exact .pure trivial
  · exact .seq (reads_conditionExpr ha s) fun e he => goes_truthResult hn he

theorem over_data {op : Arithmetic} {a b : Value} {N : String → Prop} (h : op.data a b = .ok v) : v.Over N := by
  unfold Arithmetic.data at h
  split at h
  · cases hw : op.words _ _ <;> rw [hw] at h <;> cases h
    trivial
  · split at h
    · cases h
      trivial
    · cases h

theorem goes_arithmetic {op : Arithmetic} {a b : Value} (ha : a.Over d.name)
    (hb : b.Over d.name) : Goes d (arithmetic op a b) s (fun v _ => v.Over d.name) := by
  unfold arithmetic
  split
  · refine .seq (reads_expression a s) fun l hl => .seq (reads_expression b s) fun r hr => ?_
    split
    · exact .pure ⟨Value.over_toExpr hl ha, Value.over_toExpr hr hb⟩
    · exact .refuse
  · split
    · exact .pure (over_data ‹_›)
    · exact .refuse

/-! ### Leaving loops and routines -/

theorem goes_leaveLoop (hs : d.policy.stray .break) : Goes d (leaveLoop h) s (fun _ _ => True) :=
  .seq (reads_requireClassical h _ s) fun _ hp => (Goes.emit (.break hp hs)).mono fun _ _ _ => trivial

theorem goes_nextTurn (hs : d.policy.stray .continue) : Goes d (nextTurn h) s (fun _ _ => True) :=
  .seq (reads_requireClassical h _ s) fun _ hp => (Goes.emit (.continue hp hs)).mono fun _ _ _ => trivial

theorem goes_leaveRoutine (hv : v.Over d.name) (hs : s.ctx.Permits .classical → ∀ e, (e = none ↔ v = .none) →
      d.policy.stray (.return e) ∨ s.ctx.Yields e) :
    Goes d (leaveRoutine h v) s (fun _ _ => True) := by
  refine .seq (reads_requireClassical h _ s) fun _ hp => ?_
  split
  · exact (Goes.emit (.return hp (by simp) (hs hp none (by simp)))).mono fun _ _ _ => trivial
  · rename_i hne
    refine .seq (reads_expression _ s) fun e he => ?_
    refine (Goes.emit (.return hp (fun x hx => ?_) (hs hp (some e) ?_))).mono fun _ _ _ => trivial
    · exact Option.some.inj hx ▸ Value.over_toExpr he hv
    · simpa using hne

/-! ### Pulse operations -/

theorem goes_requirePulse {operation : String} :
    Goes d (requirePulse h operation) s (fun _ c => c.Permits .pulse) := by
  refine .seq (reads_requireActive h _ s) fun _ ha => .seq (reads_allow _ s) fun _ hr => ?_
  have hp : s.ctx.Permits .pulse := ⟨ha, hr⟩
  refine (Goes.update (.pulse hp)).mono fun _ c hc => ?_
  subst hc
  exact hp

theorem goes_play {frame waveform : String} : Goes d (play h frame waveform) s (fun _ _ => True) := by
  refine goes_requirePulse.bind fun _ c _ hp => ?_
  have he : (Expr.waveform waveform).Over d.name := trivial
  exact (Goes.emit (.pulse hp (by decide) he)).mono fun _ _ _ => trivial

theorem FrameOp.name_mem (op : FrameOp) : op.name ∈ pulseCalls := by cases op <;> decide

theorem goes_frameCall {op : FrameOp} {frame : String} {arg : Value}
    (ha : arg.Over d.name) : Goes d (frameCall h op frame arg) s (fun _ _ => True) := by
  refine goes_requirePulse.bind fun _ c _ hp => ?_
  refine .seq (reads_expression arg _) fun e he => ?_
  exact (Goes.emit (.pulse hp (FrameOp.name_mem op) (Value.over_toExpr he ha))).mono fun _ _ _ => trivial

/-- A frame, or an operand that stands for a qubit. -/
def IsDelayTarget (d : Discipline) (c : Context) (e : Expr) : Prop :=
  (∃ name, e = .frame name) ∨ ∃ t, d.Addressed c t ∧ t.expr = e

theorem goes_delayTarget (hv : d.Qubit v) : Goes d (delayTarget v) s (fun e c => IsDelayTarget d c e) := by
  unfold delayTarget
  split
  · exact .pure (.inl ⟨_, rfl⟩)
  · exact (goes_qubitOperand hv).mono fun e c ⟨_, t, _, ht⟩ => .inr ⟨t, ht⟩

theorem goes_delayTargets (hv : ∀ v ∈ vs, d.Qubit v) :
    Goes d (vs.mapM delayTarget) s (fun es c => ∀ e ∈ es, IsDelayTarget d c e) := by
  induction vs generalizing s with
  | nil => exact .pure (by simp)
  | cons v vs ih =>
    rw [mapM_cons]
    refine (goes_delayTarget (hv v (mem_cons_self ..))).bind fun e c _ he => ?_
    refine (ih fun u hu => hv u (mem_cons_of_mem _ hu)).bind fun es c' hw hes => .pure ?_
    intro x hx
    rcases mem_cons.1 hx with rfl | hx
    · exact he.imp_right fun ⟨t, ht, hte⟩ => ⟨t, ht.mono hw.advance, hte⟩
    · exact hes x hx

theorem goes_delay {ns : Int} {targets : List Value}
    (ht : ∀ v ∈ targets, d.Qubit v) : Goes d (delay h ns targets) s (fun _ _ => True) := by
  refine goes_requirePulse.bind fun _ c _ hp => ?_
  refine (goes_delayTargets ht).bind fun es c' hw hes => ?_
  exact (Goes.emit (.delay (hp.mono hw.advance) hes)).mono fun _ _ _ => trivial

/-! ### Arguments of calls -/

/-- What a parameter receives in a call: a qubit is resolved, and any other value is written out as an
expression that the type of the parameter takes. -/
def Param.Receives (c : Context) (p : Param) (v : Value) (e : Expr) : Prop :=
  ∃ t, p.ty = some t ∧ if t.kind = .qubit then ∃ q : Target, c.resolve v = .ok q ∧ q.expr = e
    else v.toExpr = .ok e ∧ assignable t e.ty = .ok true

theorem Param.Receives.congr {c c' : Context} {p : Param} {e : Expr} (h : Param.Receives c p v e)
    (hc : c'.Registered c) : Param.Receives c' p v e := by
  obtain ⟨t, ht, h⟩ := h
  refine ⟨t, ht, ?_⟩
  obtain ⟨qs, rfl⟩ := hc
  exact h

theorem goes_bindArgument {routine : String} {p : Param}
    (hv : v.Over d.name) (hq : Param.isQubit p = true → d.wire v) :
    Goes d (bindArgument routine p v) s
      (fun e c => s.ctx.Registered c ∧ d.Argument c e ∧ Param.Receives s.ctx p v e) := by
  unfold bindArgument
  split
  · exact .of_reads (reads_liftFault _ s) fun _ h => by cases h
  · rename_i t ht
    split
    · rename_i hkind
      have hwire : d.wire v := hq (by simpa [Param.isQubit, ht])
      refine (goes_qubitOperand ⟨hv, hwire⟩).mono fun e c ⟨hreg, q, hr, hq⟩ => ⟨hreg, .inr ⟨q, hq⟩, t, ht, ?_⟩
      rw [if_pos hkind]
      exact ⟨q, hr, hq.2⟩
    · rename_i hkind
      split
      · exact .refuse
      · rename_i e he
        refine .seq (reads_liftFault _ s) fun ok hok => ?_
        split
        · refine .pure ⟨.refl _, .inl (Value.over_toExpr he hv), t, ht, ?_⟩
          rw [if_neg hkind]
          exact ⟨he, by simp_all⟩
        · exact .refuse

/-- Arguments over the names allowed, with qubits where qubits are expected. -/
def Fits (d : Discipline) (ps : List Param) (vs : List Value) : Prop :=
  (∀ v ∈ vs, v.Over d.name) ∧ ∀ x ∈ ps.zip vs, Param.isQubit x.1 = true → d.wire x.2

theorem goes_bindArguments {routine : String} {ps : List Param} (h : Fits d ps vs) :
    Goes d (bindArguments routine ps vs) s (fun es c => s.ctx.Registered c ∧ (∀ e ∈ es, d.Argument c e) ∧
      Forall₂ (fun x e => Param.Receives s.ctx x.1 x.2 e) (ps.zip vs) es) := by
  induction ps generalizing vs s with
  | nil => exact .pure ⟨.refl _, by simp, .nil⟩
  | cons p ps ih =>
    cases vs with
    | nil => exact .pure ⟨.refl _, by simp, .nil⟩
    | cons v vs =>
      obtain ⟨hover, hwire⟩ := h
      refine (goes_bindArgument (hover v (mem_cons_self ..))
        (hwire (p, v) (mem_cons_self ..))).bind fun e c _ he => ?_
      have hrest : Fits d ps vs := ⟨fun u hu => hover u (mem_cons_of_mem _ hu),
        fun x hx => hwire x (mem_cons_of_mem _ hx)⟩
      refine (ih hrest).bind fun es c' hw hes => .pure ⟨he.1.trans hes.1, ?_, .cons he.2.2 ?_⟩
      · intro x hx
        rcases mem_cons.1 hx with rfl | hx
        · exact he.2.1.mono hw.advance
        · exact hes.2.1 x hx
      · exact hes.2.2.imp fun _ _ hx => hx.congr he.1

end Convert

end QasmStudio

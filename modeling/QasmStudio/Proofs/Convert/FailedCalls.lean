import QasmStudio.Proofs.Convert.FailedGates

/-!
# Failed calls, measurements and pulse operations

These do not check all there is to check before they change something. A build is marked as using pulse
control before the operands of a pulse operation are looked at; the targets of a delay and the arguments of
a call are registered one by one, up to the first bad one; and when a measurement has registered its qubits,
the name of its variable may still turn out to be taken. A subroutine whose body fails loses the program that
the body was written to, but the qubits that the body addressed stay registered, the build stays marked, and
definitions that came to an end on the way stay at the root.

What such a failure never reaches are the statements and the variables of the programs on the stack.
-/

namespace QasmStudio

open Discipline Context List

/-! ### Operands -/

/-- Some of the values have been registered as elements of the register, and nothing else has happened. -/
def State.Addresses (vs : List Value) (s s' : State) : Prop :=
  ∃ is : List Int, (∀ i ∈ is, Value.int .word i ∈ vs) ∧ s' = { s with ctx := is.foldl Context.register s.ctx }

def State.pulsed (s : State) : State := { s with ctx := { s.ctx with pulse := true } }

def State.skipped (s : State) : State := { s with ctx := s.ctx.giveOut "__bit_" }

theorem Context.eq_of_index {c : Context} {v : Value} {t : Target} {i : Int} (h : c.resolve v = .ok t)
    (hi : t.index = some i) : v = .int .word i := by
  rcases resolve_cases h with ⟨n, -, rfl, rfl⟩ | hnone
  · cases hi
    rfl
  · rw [hnone] at hi
    cases hi

namespace State.Addresses
variable {α β : Type} {s t u : State} {vs ws : List Value} {m : Convert α} {f : α → Convert β}

theorem refl (vs : List Value) (s : State) : s.Addresses vs s := ⟨[], by simp, rfl⟩

theorem trans (h₁ : s.Addresses vs t) (h₂ : t.Addresses vs u) : s.Addresses vs u := by
  obtain ⟨is, his, rfl⟩ := h₁
  obtain ⟨js, hjs, rfl⟩ := h₂
  refine ⟨is ++ js, fun i hi => (mem_append.1 hi).elim (his i) (hjs i), ?_⟩
  rw [foldl_append]

theorem mono (h : s.Addresses vs t) (hsub : vs ⊆ ws) : s.Addresses ws t := by
  obtain ⟨is, his, ht⟩ := h
  exact ⟨is, fun i hi => hsub (his i hi), ht⟩

theorem registered (h : s.Addresses vs t) : s.ctx.Registered t.ctx := by
  obtain ⟨is, -, rfl⟩ := h
  exact registered_foldl is s.ctx

theorem skipped (h : s.Addresses vs t) : s.skipped.Addresses vs t.skipped := by
  obtain ⟨is, his, rfl⟩ := h
  refine ⟨is, his, ?_⟩
  clear his
  induction is generalizing s with
  | nil => rfl
  | cons i is ih => exact ih (s := { s with ctx := s.ctx.register i })

theorem of_reads {T : α → Prop} (h : Convert.Reads m s T) : s.Addresses vs (m s).2 := by
  rcases h with ⟨e, -, h⟩ | ⟨a, h, -⟩ <;> rw [h] <;> exact refl vs s

theorem bind (hm : s.Addresses vs (m s).2) (hf : ∀ a t, m s = (.ok a, t) → t.Addresses vs (f a t).2) :
    s.Addresses vs ((m >>= f) s).2 := by
  rcases hr : m s with ⟨e | a, t⟩
  · rw [Convert.bind_of_error hr]
    rwa [hr] at hm
  · rw [Convert.bind_of_ok hr]
    rw [hr] at hm
    exact hm.trans (hf a t hr)

theorem seq {T : α → Prop} (h : Convert.Reads m s T) (hf : ∀ a, T a → s.Addresses vs (f a s).2) :
    s.Addresses vs ((m >>= f) s).2 := by
  rcases h.bind f with ⟨e, -, he⟩ | ⟨a, ha, he⟩ <;> rw [he]
  · exact refl vs s
  · exact hf a ha

end State.Addresses

/-! ### The subroutines of the root -/

theorem Program.subroutines_addSubroutine {p : Program} {x : SubroutineDef} (h : p.hasSubroutine x.name = false) :
    (p.addSubroutine x).subroutines = p.subroutines ++ [x] := by
  refine put_of_all_not ?_
  simpa [hasSubroutine, subroutine?] using h

namespace Context
variable {c c' c₁ : Context} {D : SubroutineDef → Prop} {f : Program → Program}

/-- Every subroutine in conversion has a program on top of the root. -/
def Housed (c : Context) : Prop := c.converting.length ≤ c.inner.length

instance (c : Context) : Decidable c.Housed := inferInstanceAs (Decidable (_ ≤ _))

theorem Housed.advance (hc : c.Housed) (h : c.Advance c') : c'.Housed := by
  have hsize := h.stackSize
  unfold stackSize at hsize
  unfold Housed at hc ⊢
  rw [h.converting]
  omega

theorem Housed.openBlock (hc : c.Housed) : c.openBlock.Housed := by
  unfold Housed Context.openBlock
  rwa [length_inner_updateCurrent]

theorem Housed.closeBlock (hc : c.Housed) : c.closeBlock.Housed := by
  unfold Housed Context.closeBlock
  rwa [length_inner_updateCurrent]

theorem Housed.inner_ne_nil (hc : c.Housed) (h : c.converting ≠ []) : c.inner ≠ [] := by
  intro hinner
  rw [Housed, hinner, length_nil, Nat.le_zero, length_eq_zero_iff] at hc
  exact h hc

theorem root_updateCurrent (h : c.inner ≠ []) : (c.updateCurrent f).root = c.root := by
  unfold updateCurrent
  cases hi : c.inner with
  | nil => exact absurd hi h
  | cons p ps => rfl

/-- Subroutines are added at the end of the table of the root, and a build that is marked as using pulse
control stays so. -/
structure Annexes (D : SubroutineDef → Prop) (c c' : Context) : Prop where
  subroutines : ∃ new, c'.root.subroutines = c.root.subroutines ++ new ∧ ∀ x ∈ new, D x
  pulse : c.pulse = true → c'.pulse = true

namespace Annexes

theorem of_eq (hs : c'.root.subroutines = c.root.subroutines) (hp : c'.pulse = c.pulse) : c.Annexes D c' :=
  ⟨⟨[], by simp [hs]⟩, fun h => hp.trans h⟩

theorem refl (D : SubroutineDef → Prop) (c : Context) : c.Annexes D c := .of_eq rfl rfl

theorem trans (h₁ : c.Annexes D c₁) (h₂ : c₁.Annexes D c') : c.Annexes D c' := by
  obtain ⟨new₁, heq₁, hnew₁⟩ := h₁.subroutines
  obtain ⟨new₂, heq₂, hnew₂⟩ := h₂.subroutines
  refine ⟨⟨new₁ ++ new₂, ?_, fun x hx => ?_⟩, fun h => h₂.pulse (h₁.pulse h)⟩
  · rw [heq₂, heq₁, append_assoc]
  · exact (mem_append.1 hx).elim (hnew₁ x) (hnew₂ x)

theorem updateCurrent (hf : c.inner = [] → (f c.current).subroutines = c.current.subroutines) :
    c.Annexes D (c.updateCurrent f) :=
  .of_eq (subroutines_root_updateCurrent hf) rfl

theorem emit (h : c.Annexes D c') (st : Stmt) : c.Annexes D (c'.emit st) :=
  h.trans (updateCurrent fun _ => rfl)

theorem closeBlock (h : c.openBlock.Annexes D c') : c.Annexes D c'.closeBlock := by
  have hopen : c.Annexes D c.openBlock := updateCurrent fun _ => rfl
  have hclose : c'.Annexes D c'.closeBlock := updateCurrent fun _ => rfl
  exact (hopen.trans h).trans hclose

end Annexes

end Context

section annexes
variable {d : Discipline} {c c' : Context} {D : SubroutineDef → Prop}

theorem Acts.annexes (h : Acts d c c') (hc : c.Housed) : c.Annexes D c' := by
  induction h with
  | refl => exact .refl _ _
  | trans h₁ _ ih₁ ih₂ => exact (ih₁ hc).trans (ih₂ (hc.advance h₁.advance))
  | register | fresh | returned | announce => exact .of_eq rfl rfl
  | emit => exact (Annexes.refl _ _).emit _
  | declare _ _ h => exact .updateCurrent fun _ => Program.subroutines_declare? h
  | pend => exact .updateCurrent fun _ => Program.subroutines_addPending _ _
  | mark => exact .updateCurrent fun _ => rfl
  | pulse => exact ⟨⟨[], by simp⟩, fun _ => rfl⟩
  | stub hp h => exact .updateCurrent fun hinner => absurd hinner (hc.inner_ne_nil (ne_nil_of_mem h))

theorem Writes.annexes (hD : ∀ n x, d.policy.defines n x → D x) (h : Writes d c c') (hc : c.Housed) :
    c.Annexes D c' := by
  induction h with
  | acts h => exact h.annexes hc
  | trans h₁ _ ih₁ ih₂ => exact (ih₁ hc).trans (ih₂ (hc.advance h₁.advance))
  | drop _ ih => exact (ih hc.openBlock).closeBlock
  | branch hp he h₁ _ ih₁ ih₂ =>
    have hfirst := hc.openBlock.advance h₁.advance
    exact ((ih₁ hc.openBlock).closeBlock.trans (ih₂ hfirst.closeBlock.openBlock).closeBlock).emit _
  | forIn _ _ _ _ _ ih | «while» _ _ _ ih => exact (ih hc.openBlock).closeBlock.emit _
  | abandon _ _ _ ih | scope _ _ _ ih | gate _ _ _ _ _ ih | calibration _ _ ih =>
    have hblock := (ih (.openBlock hc)).closeBlock
    exact ⟨hblock.subroutines, hblock.pulse⟩
  | @verbatim c c₁ _ _ _ ih =>
    have hblock := ((ih (.openBlock hc)).closeBlock.emit (.pragma "braket verbatim")).emit (.box c₁.captured)
    exact ⟨hblock.subroutines, hblock.pulse⟩
  | program _ _ ih =>
    have hbody := ih (Nat.le_succ_of_le hc)
    exact ⟨hbody.subroutines, hbody.pulse⟩
  | failed _ _ _ ih | known _ _ _ ih =>
    have hbody := ih (Nat.succ_le_succ hc)
    exact ⟨hbody.subroutines, hbody.pulse⟩
  | @subroutine c c₁ key r stub hb _ hdef hm ih =>
    have hbody := ih (Nat.succ_le_succ hc)
    have hleft : c.Annexes D (c₁.leaveRoutine key) := ⟨hbody.subroutines, hbody.pulse⟩
    refine hleft.trans ⟨⟨[⟨r.name, r.locals, r.returns, c₁.current.body, false⟩], ?_, fun x hx => ?_⟩, id⟩
    · exact Program.subroutines_addSubroutine hm
    · exact mem_singleton.1 hx ▸ hD _ _ hdef

end annexes

/-- The root is the same and so is the mark of pulse control, and of the qubits only such have been registered
as are among the values. -/
structure Context.Spares (vs : List Value) (c c' : Context) : Prop where
  root : c'.root = c.root
  pulse : c'.pulse = c.pulse
  qubits : ∃ is : List Int, (∀ i ∈ is, Value.int .word i ∈ vs) ∧ c'.qubits = (is.foldl Context.register c).qubits

theorem Context.Spares.of_addresses {vs : List Value} {s t : State} (h : s.Addresses vs t) :
    s.ctx.Spares vs t.ctx := by
  obtain ⟨qs, hqs⟩ := h.registered
  refine ⟨by rw [hqs], by rw [hqs], ?_⟩
  obtain ⟨is, his, rfl⟩ := h
  exact ⟨is, his, rfl⟩

theorem Context.Spares.of_eq {vs : List Value} {c c₁ c₂ : Context} (h : c.Spares vs c₁) (hr : c₂.root = c₁.root)
    (hp : c₂.pulse = c₁.pulse) (hq : c₂.qubits = c₁.qubits) : c.Spares vs c₂ :=
  ⟨hr.trans h.root, hp.trans h.pulse, hq ▸ h.qubits⟩

/-- A step of the library opens a definition of the gate by hand. -/
def Library.OpensGate (lib : Library) (name : String) : Prop :=
  ∃ st, lib.Includes st ∧ name ∈ st.action.opened?

/-- What is left of a call of a subroutine that has failed. The build is where it was, and nothing is written in any
of the programs. The tables of the root may have got longer, by complete definitions of routines and by gates that
were opened by hand; qubits may have been registered and the build marked as using pulse control. -/
structure Library.Residue (lib : Library) (c c' : Context) : Prop extends c.Advance c' where
  stack : Forall₂ Program.Rests c.stack c'.stack
  table : ∃ new, c'.root.gates = c.root.gates ++ new ∧
    ∀ x ∈ new, lib.OpensGate x.name ∨ ∃ key g, lib.Holds key g ∧ g.DefinesGate lib x
  subroutines : ∃ new, c'.root.subroutines = c.root.subroutines ++ new ∧
    ∀ x ∈ new, ∃ key g, lib.Holds key g ∧ g.Defines lib x
  pulse : c.pulse = true → c'.pulse = true

namespace Convert
variable {α : Type} {s s' : State} {h : Handle} {vs : List Value}

/-! ### Operands are registered one by one -/

theorem addresses_registerTargets {ts : List Target} (hts : Forall₂ (fun v t => s.ctx.resolve v = .ok t) vs ts) :
    s.Addresses vs (registerTargets ts s).2 := by
  refine ⟨ts.filterMap (·.index), fun i hi => ?_, rfl⟩
  obtain ⟨t, ht, hti⟩ := mem_filterMap.1 hi
  obtain ⟨v, hv, hvt⟩ := exists_of_forall₂ hts t ht
  exact eq_of_index hvt hti ▸ hv

theorem addresses_qubitOperand (v : Value) (s : State) : s.Addresses [v] (qubitOperand v s).2 := by
  refine .seq (reads_context s) fun c hc => .seq (reads_liftDomain _ s) fun t ht => ?_
  subst hc
  exact addresses_registerTargets (.cons ht .nil)

theorem addresses_delayTargets (vs : List Value) (s : State) : s.Addresses vs (vs.mapM delayTarget s).2 := by
  induction vs generalizing s with
  | nil => exact .refl _ s
  | cons v vs ih =>
    rw [mapM_cons]
    have htarget : s.Addresses [v] (delayTarget v s).2 := by
      unfold delayTarget
      split
      · exact .refl _ s
      · exact addresses_qubitOperand v s
    refine .bind (htarget.mono (by simp)) fun e t _ => ?_
    exact .bind ((ih t).mono (subset_cons_self v vs)) fun es u _ => .refl _ u

theorem addresses_bindArgument (routine : String) (p : Param) (v : Value) (s : State) :
    s.Addresses [v] (bindArgument routine p v s).2 := by
  unfold bindArgument
  cases p.ty with
  | none => exact .of_reads (reads_liftFault _ s)
  | some t =>
    dsimp only
    by_cases hk : t.kind = .qubit
    · rw [if_pos hk]
      exact addresses_qubitOperand v s
    · rw [if_neg hk]
      cases v.toExpr with
      | error e => exact .refl _ s
      | ok e =>
        refine .seq (reads_liftFault _ s) fun ok _ => ?_
        cases ok <;> exact .refl _ s

theorem addresses_bindArguments (routine : String) (ps : List Param) (vs : List Value) (s : State) :
    s.Addresses vs (bindArguments routine ps vs s).2 := by
  induction ps generalizing vs s with
  | nil => exact .refl _ s
  | cons p ps ih =>
    cases vs with
    | nil => exact .refl _ s
    | cons v vs =>
      refine .bind ((addresses_bindArgument routine p v s).mono (by simp)) fun e t _ => ?_
      exact .bind ((ih vs t).mono (subset_cons_self v vs)) fun es u _ => .refl _ u

/-! ### Pulse operations -/

theorem requirePulse_apply (h : Handle) (operation : String) (s : State) :
    (∃ e, requirePulse h operation s = (.error e, s)) ∨ requirePulse h operation s = (.ok (), s.pulsed) := by
  rcases (reads_requireActive h operation s).bind
    (fun _ => do allow .pulse; updateContext fun c => { c with pulse := true }) with ⟨e, -, hactive⟩ | ⟨-, -, hactive⟩
  · exact .inl ⟨e, hactive⟩
  · rcases (reads_allow .pulse s).bind
      (fun _ => updateContext fun c => { c with pulse := true }) with ⟨e, -, hallow⟩ | ⟨-, -, hallow⟩
    · exact .inl ⟨e, hactive.trans hallow⟩
    · exact .inr (hactive.trans hallow)

theorem aborts_requirePulse {operation : String} {f : Unit → Convert α} {P : Stop → State → Prop}
    (hs : ∀ e, P e s) (hf : Aborts (f ()) s.pulsed P) : Aborts (requirePulse h operation >>= f) s P := by
  intro e s' hs'
  rcases requirePulse_apply h operation s with ⟨x, hx⟩ | hx
  · rw [bind_of_error hx] at hs'
    cases hs'
    exact hs _
  · rw [bind_of_ok hx] at hs'
    exact hf e s' hs'

theorem aborts_play (frame waveform : String) : Aborts (play h frame waveform) s (Untouched s) :=
  aborts_requirePulse (untouched s) (.of_ok rfl)

/-- The mark is set before the number is looked at. -/
theorem aborts_frameCall (op : FrameOp) (frame : String) (arg : Value) :
    Aborts (frameCall h op frame arg) s fun _ t => t = s ∨ (∃ x, arg.toExpr = .error x) ∧ t = s.pulsed := by
  refine aborts_requirePulse (fun _ => .inl rfl) ?_
  unfold expression
  cases hx : arg.toExpr with
  | error x => exact .bind (.raise (.inr ⟨⟨x, rfl⟩, rfl⟩)) fun _ _ ha => by cases ha
  | ok e => exact .of_ok rfl

theorem aborts_delay (ns : Int) (targets : List Value) :
    Aborts (delay h ns targets) s fun _ t => t = s ∨ s.pulsed.Addresses targets t := by
  refine aborts_requirePulse (fun _ => .inl rfl) (.bind (fun e t ht => .inr ?_) fun _ _ _ => .of_ok rfl)
  have htargets := addresses_delayTargets targets s.pulsed
  rwa [ht] at htargets

/-! ### Measurements -/

theorem measureInto_ok (v : Var) (i : Nat) (qs : List Expr) (s : State) :
    ∃ t, measureInto v i qs s = (.ok (), t) := by
  induction qs generalizing i s with
  | nil => exact ⟨s, rfl⟩
  | cons q qs ih =>
    obtain ⟨t, ht⟩ := ih (i + 1) { s with ctx := s.ctx.emit (.assign (.index v.expr (.int i)) (.measure q)) }
    exact ⟨t, ht⟩

theorem aborts_declare (v : Var) :
    Aborts (declare v) s fun _ t => s.ctx.current.isDeclared v.name = true ∧ t = s := by
  refine .bind (.of_ok rfl) fun c t hc => ?_
  cases hc
  unfold Program.declare?
  by_cases hv : s.ctx.current.isDeclared v.name = true
  · rw [if_pos hv]
    exact .raise ⟨hv, rfl⟩
  · rw [if_neg hv]
    exact .of_ok rfl

theorem aborts_measure (qs : List Value) : Aborts (measure h qs) s fun _ t => t = s ∨
      s.ctx.current.isDeclared (generatedName "__bit_" s.ctx.nextVar) = true ∧ s.skipped.Addresses qs t := by
  refine .seq (reads_requireClassical h _ s) (fun _ => .inl rfl) fun _ _ => ?_
  dsimp only
  split
  · exact .of_reads (T := fun _ => True) .refuse fun _ => .inl rfl
  · refine .seq (reads_resolveAll qs s) (fun _ => .inl rfl) fun ts hts => ?_
    refine .bind (.of_ok rfl) fun _ t ht => .bind (.of_ok rfl) fun name u hu => ?_
    have hregister := addresses_registerTargets hts
    rw [ht] at hregister
    obtain ⟨rfl, rfl⟩ : name = generatedName "__bit_" t.ctx.nextVar ∧ u = t.skipped := by
      cases hu
      exact ⟨rfl, rfl⟩
    have hdeclare : ∀ v : Var, v.name = generatedName "__bit_" t.ctx.nextVar →
        Aborts (declare v) t.skipped fun _ u => u = s ∨
          s.ctx.current.isDeclared (generatedName "__bit_" s.ctx.nextVar) = true ∧ s.skipped.Addresses qs u := by
      refine fun v hv => (aborts_declare v).mono ?_
      rintro e u ⟨hthere, rfl⟩
      have hthere : t.ctx.current.isDeclared v.name = true := hthere
      rw [hv, hregister.registered.nextVar, hregister.registered.current] at hthere
      exact .inr ⟨hthere, hregister.skipped⟩
    split
    · exact .bind (hdeclare _ rfl) fun _ _ _ => .of_ok rfl
    · refine .bind (hdeclare _ rfl) fun _ u _ => ?_
      obtain ⟨w, hw⟩ := measureInto_ok _ 0 _ u
      exact .bind (.of_ok hw) fun _ _ _ => .of_ok rfl

/-! ### Calls -/

theorem aborts_emitCall (r : Routine) (exprs : List Expr) :
    Aborts (emitCall r exprs) s fun _ t => t = s ∨ ∃ stem, t = { s with ctx := s.ctx.giveOut stem } := by
  unfold emitCall
  cases r.returns with
  | none => exact .of_ok rfl
  | some t =>
    dsimp only
    unfold freshName
    cases nameStem? t.kind with
    | none => exact .bind (.raise (.inl rfl)) fun _ _ ha => by cases ha
    | some stem =>
      refine .bind (.of_ok rfl) fun name u hu => ?_
      cases hu
      exact .bind ((aborts_declare _).mono fun _ _ ht => .inr ⟨stem, ht.2⟩) fun _ _ _ => .of_ok rfl

theorem Follows.aborts {d : Discipline} {A B E : Context → Prop} {o : Context} {m m' : Convert α}
    {Q : α → State → Prop} (h : Follows d A B o E m m' s Q) :
    Aborts m s fun e t => ¬ d.policy.excuses e → E t.ctx := by
  intro e t ht hexcused
  have hreaches := h.reaches
  rw [ht] at hreaches
  refine (hreaches ?_).ctx
  rintro ⟨x, hx, hex⟩
  cases hx
  exact hexcused hex

/-- The body of the subroutine is not run: it is in conversion, its name is defined, or an argument is refused. -/
def Settled (key : Nat) (r : Routine) (args : List Value) (s : State) : Prop :=
  s.ctx.converting.lookup key ≠ none ∨ s.ctx.root.hasSubroutine r.name = true ∨
    (bindArguments r.name r.params args s).1.isOk = false

/-- How a call is left that fails. -/
def Retreats (π : Policy) (key : Nat) (r : Routine) (args : List Value) (s : State) (e : Stop) (t : State) : Prop :=
  ¬ π.excuses e → Forall₂ Program.Rests s.ctx.stack t.ctx.stack ∧
    (Settled key r args s → s.ctx.Spares args t.ctx)

theorem Retreats.refl (π : Policy) (key : Nat) (r : Routine) (args : List Value) (s : State) (e : Stop) :
    Retreats π key r args s e s :=
  fun _ => ⟨rests_refl _, fun _ => .of_addresses (.refl args s)⟩

section calls
variable {π : Policy} {A B : Context → Prop} {again again' : Runner} {key : Nat} {r : Routine} {args : List Value}
  {t : State}

/-- The call itself is the last thing that can fail, and at most a name is gone then. -/
theorem retreats_emitCall (hrests : Forall₂ Program.Rests s.ctx.stack t.ctx.stack)
    (hspares : Settled key r args s → s.ctx.Spares args t.ctx) (exprs : List Expr) :
    Aborts (emitCall r exprs) t (Retreats π key r args s) := by
  refine (aborts_emitCall r exprs).mono ?_
  rintro e u (rfl | ⟨stem, rfl⟩) _
  · exact ⟨hrests, hspares⟩
  · exact ⟨hrests, fun hsettled => (hspares hsettled).of_eq rfl rfl rfl⟩

theorem retreats_define (hrun : Runs π.discipline A B again again') (hkey : π.routine key r) (hkind : r.kind ≠ .gate)
    (hreg : s.ctx.Registered t.ctx) (hp : t.ctx.Permits .classical) (hidle : t.ctx.converting.lookup key = none)
    (hmissing : t.ctx.root.hasSubroutine r.name = false) (hopen : ¬ Settled key r args s)
    (hchosen : ∀ n name, π.chosen n name) (exprs : List Expr) :
    Aborts (do defineSubroutine again key r; emitCall r exprs) t (Retreats π key r args s) := by
  have hdefine := follows_defineSubroutine hrun (routine_obeys_discipline π r) (over_discipline π t) hp hkey hkind hidle
    hmissing fun _ _ => hchosen _ _
  rw [hreg.stack] at hdefine
  refine .bind (hdefine.aborts.mono fun e u hu hexcused => ?_) fun _ u hu => ?_
  · exact ⟨(hu hexcused).2, fun hsettled => absurd hsettled hopen⟩
  · have hresult := hdefine.result ()
    rw [hu] at hresult
    exact retreats_emitCall (hresult rfl).2.2.2 (fun hsettled => absurd hsettled hopen) exprs

theorem aborts_callSubroutine (hrun : Runs π.discipline A B again again') (hkey : π.routine key r)
    (hkind : r.kind ≠ .gate) (hact : s.ctx.active = true) (hhoused : s.ctx.Housed)
    (hchosen : ∀ n name, π.chosen n name) (args : List Value) :
    Aborts (callSubroutine again key r args) s (Retreats π key r args s) := by
  have hrefl := Retreats.refl π key r args s
  refine .seq (reads_allow _ s) hrefl fun _ hallow => .seq (reads_checkTypes s) hrefl fun _ _ => ?_
  refine .seq (reads_checkCount s) hrefl fun _ _ => ?_
  have hbinds := addresses_bindArguments r.name r.params args s
  refine .bind (fun e t ht _ => ?_) fun exprs t ht => ?_
  · rw [ht] at hbinds
    exact ⟨hbinds.registered.stack ▸ rests_refl _, fun _ => .of_addresses hbinds⟩
  rw [ht] at hbinds
  have hspares : s.ctx.Spares args t.ctx := .of_addresses hbinds
  have hrests : Forall₂ Program.Rests s.ctx.stack t.ctx.stack := hbinds.registered.stack ▸ rests_refl _
  obtain ⟨qs, hqs⟩ := hbinds.registered
  refine .bind (.of_ok rfl) fun c u hc => ?_
  cases hc
  dsimp only
  split
  · rename_i stub hstub
    -- a subroutine is in conversion, so the program on top is not the root
    have hinner : t.ctx.inner ≠ [] := by
      rw [hqs] at hstub ⊢
      refine hhoused.inner_ne_nil fun hnone => ?_
      rw [hnone] at hstub
      cases hstub
    refine .bind (.of_ok rfl) fun _ u hu => ?_
    cases hu
    refine retreats_emitCall (rests_trans hrests (rests_updateCurrent (.addSubroutine _ _))) (fun _ => ?_) exprs
    exact hspares.of_eq (root_updateCurrent hinner) rfl rfl
  · rename_i hidle
    refine .bind (.of_ok rfl) fun c u hc => ?_
    cases hc
    split
    · rename_i hmissing
      have hmissing : t.ctx.root.hasSubroutine r.name = false := by simpa using hmissing
      refine retreats_define hrun hkey hkind hbinds.registered ?_ hidle hmissing ?_ hchosen exprs
      · rw [hqs]
        exact ⟨hact, hallow⟩
      · rintro (hconverting | hthere | hrefused)
        · rw [hqs] at hidle
          exact hconverting hidle
        · rw [hspares.root, hthere] at hmissing
          cases hmissing
        · rw [ht] at hrefused
          cases hrefused
    · exact retreats_emitCall hrests (fun _ => hspares) exprs

theorem aborts_call (hrun : Runs π.discipline A B again again') (hkey : π.routine key r)
    (hkind : r.kind ≠ .gate) (hact : s.ctx.active = true) (hhoused : s.ctx.Housed)
    (hchosen : ∀ n name, π.chosen n name) (args : List Value) :
    Aborts (call again .own key r args) s (Retreats π key r args s) := by
  have hrefl := Retreats.refl π key r args s
  refine Aborts.mapError (P := Retreats π key r args s) ?_ ?_
  case refine_2 => exact fun x t ht _ => ht (π.caught x)
  rw [if_neg hkind]
  refine .seq (reads_checkQubits s) hrefl fun _ _ => .seq (reads_isActive .own s) hrefl fun active hactive => ?_
  rw [if_pos (hactive.2 rfl hact)]
  refine .seq (reads_checkRegister s) hrefl fun _ _ => ?_
  refine .bind (aborts_callSubroutine hrun hkey hkind hact hhoused hchosen args) fun v t _ => ?_
  cases v <;> exact .of_ok rfl

end calls

theorem residue_of_call {lib : Library} {fuel key : Nat} {r : Routine} {args : List Value} {e : Stop}
    (hr : lib.Holds key r) (hkind : r.kind ≠ .gate) (hact : s.ctx.active = true) (hhoused : s.ctx.Housed)
    (hcall : call (run lib fuel) .own key r args s = (.error e, s')) :
    lib.Residue s.ctx s'.ctx ∧ (Settled key r args s → s.ctx.Spares args s'.ctx) := by
  obtain ⟨x, hx, hother⟩ := exists_other_stop (call (run lib fuel) .own key r args s).1
  let π := (originPolicy lib lib.OpensGate).excusing (fun _ => trivial) x hx
  have hstop : ¬ π.excuses e := by
    intro he
    rw [hcall] at hother
    exact hother (congrArg _ he)
  have hsteps : Throughout lib fuel (fun o _ => True ∧ ∀ st ∈ o, lib.Includes st)
      (call · .own key r args) s :=
    Throughout.call_and_steps (fun st hst b hb st' hst' => .nested hst hb hst') (fun y hy st hst => .routine hy hst) hr
      (.of_forall fun _ _ => trivial)
  have hruns : Runs π.discipline (fun _ => True) (fun _ => True)
      (observed (insist (fun o _ => True ∧ ∀ st ∈ o, lib.Includes st) x) lib fuel)
      (observed (insist (fun o _ => True ∧ ∀ st ∈ o, lib.Includes st) x) lib fuel) :=
    runs_insist rfl (fun _ _ _ _ _ => trivial) (fun _ _ _ hr => Library.holds_of_find? hr)
      (fun o t ho => allows_originPolicy fun st hst n hn => ⟨st, ho.2 st hst, hn⟩)
      (fun n key g y u hg hk _ hy => ⟨key, g, hg, Completes.defines hk ⟨u, hy⟩⟩) (fun _ _ ho _ _ => if_pos ho) fuel
      (fun n key g y hg hk hy => .inr ⟨key, g, hg, hy.definesGate hk⟩)
  rw [← hsteps.insist x] at hcall
  have hfollows := follows_call (h := .own) (s := s) (fun _ _ _ _ _ => trivial) hruns (routine_obeys_discipline π r) hr
    trivial ⟨fun v (_ : v ∈ args) => v.over_true, fun _ _ _ => trivial⟩ (over_discipline π s)
  have hwrites : Writes π.discipline s.ctx s'.ctx := (hfollows.aborts e s' hcall hstop).writes trivial
  have hannexes := hwrites.annexes (fun _ _ hx => hx) hhoused
  obtain ⟨hstack, hspares⟩ := aborts_call hruns hr hkind hact hhoused (fun _ _ => trivial) args e s' hcall hstop
  exact ⟨⟨hwrites.advance, hstack, hwrites.fills.table.exists_append, hannexes.subroutines, hannexes.pulse⟩, hspares⟩

/-- At every moment of a build, each subroutine in conversion has a program of its own. Then a failed operation
leaves no more than this. Playing a waveform leaves nothing. An operation on a frame leaves the build marked as
using pulse control, if its number is refused; a delay in addition registers targets. A measurement registers its
qubits and uses up a name, if that name is taken. A call of a subroutine leaves what `Library.Residue` says, and if
the body has not been run, then it only registers arguments. -/
theorem residue_of_failure (lib : Library) :
    (∀ fuel r config args s, Throughout lib fuel (fun _ t => t.ctx.active = true ∧ t.ctx.Housed)
      (buildProgram · r config args) s) ∧
    ∀ (h : Handle) (s s' : State) (e : Stop),
      (∀ frame waveform, play h frame waveform s = (.error e, s') → s' = s) ∧
      (∀ op frame arg, frameCall h op frame arg s = (.error e, s') →
        s' = s ∨ (∃ x, arg.toExpr = .error x) ∧ s' = s.pulsed) ∧
      (∀ ns targets, delay h ns targets s = (.error e, s') → s' = s ∨ s.pulsed.Addresses targets s') ∧
      (∀ qs, measure h qs s = (.error e, s') → s' = s ∨
        s.ctx.current.isDeclared (generatedName "__bit_" s.ctx.nextVar) = true ∧ s.skipped.Addresses qs s') ∧
      ∀ fuel key r args, lib.Holds key r → r.kind ≠ .gate → s.ctx.active = true → s.ctx.Housed →
        call (run lib fuel) .own key r args s = (.error e, s') →
        lib.Residue s.ctx s'.ctx ∧ (Settled key r args s → s.ctx.Spares args s'.ctx) := by
  constructor
  · intro fuel r config args s
    exact throughout_orderly_free.mono fun o t ht => ⟨ht.active, ht.stubs⟩
  · intro h s s' e
    refine ⟨fun frame waveform => aborts_play frame waveform e s',
      fun op frame arg => aborts_frameCall op frame arg e s', fun ns targets => aborts_delay ns targets e s',
      fun qs => aborts_measure qs e s', ?_⟩
    intro fuel key r args hr hkind hact hhoused hcall
    exact residue_of_call hr hkind hact hhoused hcall

def spoiledRoutine : Routine :=
  .subroutine "spoiled" [⟨"q", some (.qubit 0)⟩, ⟨"n", some Ty.int⟩] none
    [.mk (.call "flip" [.const (.int .word 4)]) none false .own, .mk (.play "f" "w") none false .own,
     .mk (.fail "boom") none false .own] (.const .none)

def spoiledLibrary : Library := .ofRoutines [flipGate, spoiledRoutine]

theorem residue_of_failure_spoiled :
    (∃ e s', delay .own 5 [.int .word 0, .string "oops"] (.started {} {}) = (.error e, s') ∧
      s'.ctx.qubits = [0] ∧ (State.pulsed (.started {} {})).Addresses [.int .word 0, .string "oops"] s') ∧
    (∃ e s', call (run spoiledLibrary 4) .own 1 spoiledRoutine [.int .word 0, .int .word 1] (.started {} {}) =
        (.error e, s') ∧
      (s'.ctx.qubits, s'.ctx.pulse, s'.ctx.root.gates.map (·.name)) = ([0, 4], true, ["flip"]) ∧
      spoiledLibrary.Residue (State.started {} {}).ctx s'.ctx) ∧
    ∃ e s', call (run spoiledLibrary 4) .own 1 spoiledRoutine [.int .word 6, .string "oops"] (.started {} {}) =
        (.error e, s') ∧
      s'.ctx.qubits = [6] ∧ (State.started {} {}).ctx.Spares [.int .word 6, .string "oops"] s'.ctx := by
  have hresidue := fun s' e => (residue_of_failure spoiledLibrary).2 .own (.started {} {}) s' e
  have hheld : spoiledLibrary.Holds 1 spoiledRoutine := ⟨"spoiled", rfl⟩
  refine ⟨?_, ?_, ?_⟩
  · obtain ⟨e, s', hs', hqubits⟩ := exists_of_stopped (f := fun t => t.ctx.qubits) (b := [0])
      (x := delay .own 5 [.int .word 0, .string "oops"] (.started {} {})) (by decide +kernel)
    refine ⟨e, s', hs', hqubits, ((hresidue s' e).2.2.1 _ _ hs').resolve_left fun heq => ?_⟩
    rw [heq] at hqubits
    cases hqubits
  · obtain ⟨e, s', hs', hmarks⟩ := exists_of_stopped
      (f := fun t => (t.ctx.qubits, t.ctx.pulse, t.ctx.root.gates.map (·.name))) (b := ([0, 4], true, ["flip"]))
      (x := call (run spoiledLibrary 4) .own 1 spoiledRoutine [.int .word 0, .int .word 1] (.started {} {}))
      (by decide +kernel)
    exact ⟨e, s', hs', hmarks, ((hresidue s' e).2.2.2.2 4 1 _ _ hheld (by decide) rfl (by decide) hs').1⟩
  · obtain ⟨e, s', hs', hqubits⟩ := exists_of_stopped (f := fun t => t.ctx.qubits) (b := [6])
      (x := call (run spoiledLibrary 4) .own 1 spoiledRoutine [.int .word 6, .string "oops"] (.started {} {}))
      (by decide +kernel)
    have hrefused : (bindArguments "spoiled" spoiledRoutine.params [.int .word 6, .string "oops"]
        (.started {} {})).1.isOk = false := by decide +kernel
    exact ⟨e, s', hs', hqubits,
      ((hresidue s' e).2.2.2.2 4 1 _ _ hheld (by decide) rfl (by decide) hs').2 (.inr (.inr hrefused))⟩

def stumblingRoutine : Routine :=
  .subroutine "f" [] none
    [.mk (.gate ⟨"x", 1, 0⟩ [.const (.int .word 4)]) none false .own, .mk (.fail "boom") none false .own] (.const .none)

/-- A delay with a bad target and a subroutine that fails change what the build declares. -/
theorem failure_leaves_marks :
    (∃ e s', delay .own 5 [.int .word 0, .string "oops"] (.started {} {}) = (.error e, s') ∧
      ((State.started {} {}).ctx.qubits, (State.started {} {}).ctx.pulse) = ([], false) ∧
      (s'.ctx.qubits, s'.ctx.pulse) = ([0], true)) ∧
    ∃ e s', call (run (.ofRoutines [stumblingRoutine]) 4) .own 0 stumblingRoutine [] (.started {} {}) = (.error e, s') ∧
      s'.ctx.qubits = [4] := by
  constructor
  · obtain ⟨e, s', hs', hmarks⟩ := exists_of_stopped (f := fun t => (t.ctx.qubits, t.ctx.pulse)) (b := ([0], true))
      (x := delay .own 5 [.int .word 0, .string "oops"] (.started {} {})) (by decide +kernel)
    exact ⟨e, s', hs', rfl, hmarks⟩
  · exact exists_of_stopped (f := fun t => t.ctx.qubits) (b := [4])
      (x := call (run (.ofRoutines [stumblingRoutine]) 4) .own 0 stumblingRoutine [] (.started {} {}))
      (by decide +kernel)

end Convert

end QasmStudio

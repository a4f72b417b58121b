import QasmStudio.Proofs.Convert.Additions
import QasmStudio.Proofs.Convert.RegisterSound
import QasmStudio.Proofs.Convert.SourceTags

/-!
# The qubits of a calibration

A calibration is about qubits of the device. Where its operands and the targets of its delays are given as
such, nothing in it names the register or a variable, for whatever set of names that stand for qubits.
An operand that fixes an element of the register is refused. One that is a qubit of some other kind is
not, so a variable or an element that is spelled out is taken as it is; and a delay inside of a
calibration resolves its targets as everywhere else, where a number is an element of the register.
-/

namespace QasmStudio

open List

def Expr.IsPhysical (e : Expr) : Prop := ∃ n, e = .physical n

def Expr.IsQubit (e : Expr) : Prop := ∃ t, e.ty = some t ∧ t.kind = .qubit

theorem Context.captured_emit (c : Context) (st : Stmt) : (c.emit st).captured = c.captured ++ [st] := by
  rw [captured, emit, current_updateCurrent]
  exact Program.innermost_of_blocks (Program.blocks_add _ _)

/-- An operation on a frame with an argument that satisfies `P`, or a delay whose targets are frames or
satisfy `T`. -/
def Stmt.PulsesBy (P T : Expr → Prop) : Stmt → Prop
  | .eval (.call name [.frame _, e] none) => name ∈ Discipline.pulseCalls ∧ P e
  | .delay (.duration _) targets => ∀ e ∈ targets, (∃ name, e = .frame name) ∨ T e
  | _ => False

theorem Stmt.PulsesBy.mono {P T P' T' : Expr → Prop} {st : Stmt} (h : st.PulsesBy P T)
    (hP : ∀ e, P e → P' e) (hT : ∀ e, T e → T' e) : st.PulsesBy P' T' := by
  unfold PulsesBy at h ⊢
  split at h
  · exact ⟨h.1, hP _ h.2⟩
  · exact fun e he => (h e he).imp_right (hT e)
  · exact h.elim

theorem Stmt.PulsesBy.isPulse {P T : Expr → Prop} {st : Stmt} (h : st.PulsesBy P T) : st.IsPulse := by
  unfold PulsesBy at h
  split at h
  · exact h.1
  · trivial
  · exact h.elim

theorem Expr.isQubit_physical (n : Int) : (Expr.physical n).IsQubit := ⟨Ty.qubit 0, rfl, rfl⟩

/-- Where no size is declared, what an operand resolves to is a qubit; and if it fixes no element of the
register, it is a physical one or what the operand was. -/
theorem Context.isQubit_of_resolve {c : Context} {v : Value} {t : Target} (hc : c.config.declared? = none)
    (h : c.resolve v = .ok t) :
    t.expr.IsQubit ∧ (t.index = none → t.expr.IsPhysical ∨ v = .expr t.expr) := by
  unfold resolve at h
  split at h
  · split at h
    · cases h
    · split at h
      · cases h
        exact ⟨Expr.isQubit_physical _, fun _ => .inl ⟨_, rfl⟩⟩
      · cases h
        exact ⟨⟨_, rfl, rfl⟩, fun hi => by cases hi⟩
  · split at h
    · cases h
      exact ⟨Expr.isQubit_physical _, fun _ => .inl ⟨_, rfl⟩⟩
    · cases h
  · cases h
    exact ⟨Expr.isQubit_physical _, fun _ => .inl ⟨_, rfl⟩⟩
  · split at h
    · rename_i ty hty
      split at h
      · rename_i hkind
        cases h
        exact ⟨⟨ty, hty, hkind⟩, fun _ => .inr rfl⟩
      · split at h
        · rw [hc] at h
          cases h
        · cases h
    · cases h
  · cases h

/-- What is written on its own in a calibration keeps to the discipline. -/
def Discipline.pulseRule (d : Discipline) : Rule d :=
  .inDefinitions
    (fun c st => c.gates = [] → c.calibrations ≠ [] → st.PulsesBy (·.Over d.name)
      fun e => ∃ v t, d.wire v ∧ c.resolve v = .ok t ∧ t.expr = e)
    (fun hg hc hv hf => by simp only [hg, hc, Context.resolve_congr hv hf])
    (fun h hg hc => by
      cases h with
      | pulse hp hn he => exact ⟨hn, he⟩
      | delay hp ht =>
        refine fun e he => (ht e he).imp_right ?_
        rintro ⟨t, ⟨⟨v, -, hw, hr⟩, -⟩, rfl⟩
        exact ⟨v, t, hw, hr, rfl⟩
      | gate hp =>
        have hrefused := hp.2
        obtain ⟨cal, cals, hcal⟩ := exists_cons_of_ne_nil hc
        simp [Context.refusal?, hg, hcal] at hrefused
      | _ => exact absurd (Context.outside_of_permits ‹_›).2 hc)
    fun _ hc _ _ hn => absurd hc hn

namespace Convert

section follows
variable {d : Discipline} {again : Runner} {spec : CalibrationSpec} {s s' : State} {x : CalibrationDef}

theorem follows_calibrateWith (hrun : Faithful d (fun _ => True) (fun _ => True) (again spec.body)
      (again spec.body) fun _ => True) (hs : s.Over d) (ha : ∀ o ∈ spec.angles, o.Keeps d.name) :
    Follows d (fun _ => True) (fun _ => True) s.ctx (fun _ => True) (calibrateWith again spec)
      (calibrateWith again spec) s (fun x _ => ∃ vs, Operand.evals s.bindings spec.qubits = .ok vs ∧
        Forall₂ (fun v e => ∃ t : Target, Context.finished.resolve v = .ok t ∧ t.index = none ∧ t.expr = e)
          vs x.qubits ∧
        ∀ st ∈ x.body, st.PulsesBy (·.Over d.name)
          fun e => ∃ v t, d.wire v ∧ Context.finished.resolve v = .ok t ∧ t.expr = e) := by
  have hresolve : ∀ v, (s.started {}).ctx.resolve v = Context.finished.resolve v := Context.resolve_congr rfl rfl
  refine .seq (reads_values _ s) hs trivial fun qubits hqubits => ?_
  refine .seq (reads_values _ s) hs trivial fun angles hangles => ?_
  split
  · exact .refuse hs trivial
  dsimp only
  split
  · exact .refuseThen hs trivial
  refine Follows.mapError (.inNewContext hs trivial (fun _ _ => trivial) fun hin => ?_)
  refine .seq (reads_mapM (reads_calibrationQubit _ · _) qubits) hin trivial fun qs hqs => ?_
  refine .seq (reads_angles (Operand.over_evals hs.bindings ha hangles) _) hin trivial fun as has => ?_
  have hargs : Bindings.Over d.name { args := as.map .expr } := by
    refine .ofArgs fun v hv => ?_
    obtain ⟨e, he, rfl⟩ := mem_map.1 hv
    exact has e he
  refine (follows_calibrationDef (faithful_withBindings hargs hrun) hin).mono (fun _ _ => trivial) ?_
  rintro x t ⟨hx, c₁, hw, hbody⟩
  refine ⟨qubits, hqubits, ?_, fun st hst => ?_⟩
  · rw [hx]
    simpa only [hresolve] using hqs
  · rw [hbody] at hst
    have hadmits := (hw.adds d.pulseRule).closeBlock.2.2 st hst rfl (cons_ne_nil _ _)
    refine hadmits.mono (fun _ he => he) ?_
    rintro e ⟨v, t, hwire, hr, rfl⟩
    exact ⟨v, t, hwire, (hresolve v).symm.trans hr, rfl⟩

end follows

end Convert

/-- A calibration resolves the value to a physical qubit, if to any. -/
def Value.IsPhysical (v : Value) : Prop := ∀ t, Context.finished.resolve v = .ok t → t.expr.IsPhysical

/-- Qubits are physical ones, and none of the given names is used. -/
def Discipline.physical (Q : String → Prop) (hQ : ∀ stem n, ¬ Q (generatedName stem n)) : Discipline where
  name x := ¬ Q x
  wire := Value.IsPhysical
  index _ := True
  generated := hQ
  nothing := fun t h => by cases h
  policy := { lost := Policy.lost_default }

namespace Convert
variable {spec : CalibrationSpec} {lib : Library} {fuel : Nat} {x : CalibrationDef} {Q : String → Prop}
  {hQ : ∀ stem n, ¬ Q (generatedName stem n)}

theorem calibrationQubit_of_isQubit {e : Expr} (he : e.IsQubit) (gate : String) (s : State) :
    calibrationQubit gate (.expr e) s = (.ok e, s) := by
  obtain ⟨t, hty, hkind⟩ := he
  have hresolve : s.ctx.resolve (.expr e) = .ok ⟨e, none⟩ := by
    cases e with
    | physical n => rfl
    | _ => simp [Context.resolve, hty, hkind]
  rw [calibrationQubit, bind_of_ok (context_apply s), hresolve]
  rfl

/-- A delay on a number is one on an element of the register, in a calibration too. -/
theorem delay_number {s : State} {n : Int} (ns : Int) (ha : s.ctx.active = true)
    (hp : s.ctx.refusal? .pulse = none) (hv : s.ctx.verbatim = false) (hn : 0 ≤ n) :
    ∃ s', delay .own ns [.int .word n] s = (.ok (), s') ∧
      s'.ctx.captured = s.ctx.captured ++ [.delay (.duration ns) [.index registerExpr (.int n)]] := by
  let c : Context := { s.ctx with pulse := true }
  have hpulse : requirePulse .own "delay" s = (.ok (), { s with ctx := c }) := by
    rw [requirePulse, bind_of_ok (requireActive_of_active ha _), bind_of_ok (allow_of_refusal hp)]
    rfl
  have hresolve : c.resolve (.int .word n) = .ok ⟨.index registerExpr (.int n), some n⟩ := by
    simp [Context.resolve, c, hv, Int.not_lt.2 hn]
  have htarget : delayTarget (.int .word n) { s with ctx := c } =
      (.ok (.index registerExpr (.int n)), { s with ctx := c.register n }) := by
    show qubitOperand (.int .word n) { s with ctx := c } = _
    rw [qubitOperand, bind_of_ok (context_apply _)]
    simp only [hresolve]
    rfl
  have htargets : [Value.int .word n].mapM delayTarget { s with ctx := c } =
      (.ok [.index registerExpr (.int n)], { s with ctx := c.register n }) := by
    simp [bind_apply, htarget]
  exact ⟨_, (bind_of_ok hpulse _).trans ((bind_of_ok htargets _).trans (emit_apply _ _)),
    Context.captured_emit (c.register n) _⟩

/-- The operands of a calibration are qubits, physical ones or such as were given as expressions, and so are
the targets of its delays that are no frames. -/
theorem qubits_of_calibrate {s s' : State} (h : calibrateWith (run lib fuel) spec s = (.ok x, s')) :
    ∃ vs, Operand.evals s.bindings spec.qubits = .ok vs ∧
      Forall₂ (fun v e => e.IsQubit ∧ (e.IsPhysical ∨ v = .expr e)) vs x.qubits ∧
      ∀ st ∈ x.body, st.PulsesBy (fun _ => True) Expr.IsQubit := by
  have hresult := (follows_calibrateWith (faithful_run_self lib fuel spec.body) (over_free s)
    fun o _ => o.keeps_true).result x
  rw [h] at hresult
  obtain ⟨vs, hvs, hqubits, hbody⟩ := hresult rfl
  refine ⟨vs, hvs, hqubits.imp ?_, fun st hst => (hbody st hst).mono (fun _ _ => trivial) ?_⟩
  · rintro v e ⟨t, hr, hi, rfl⟩
    obtain ⟨hqubit, hgiven⟩ := Context.isQubit_of_resolve rfl hr
    exact ⟨hqubit, hgiven hi⟩
  · rintro e ⟨v, t, -, hr, rfl⟩
    exact (Context.isQubit_of_resolve rfl hr).1

theorem pulses_of_calibrate {s s' : State} (h : calibrateWith (run lib fuel) spec s = (.ok x, s')) :
    ∀ st ∈ x.body, st.IsPulse := by
  obtain ⟨-, -, -, hbody⟩ := qubits_of_calibrate h
  exact fun st hst => (hbody st hst).isPulse

/-- A calibration that is given physical qubits has nothing else, and names none of the names `Q` if it is
given none of them. -/
theorem physical_of_calibrate {s s' : State} (hlib : lib.Obeys (.physical Q hQ))
    (hs : s.Over (.physical Q hQ)) (ha : ∀ o ∈ spec.angles, o.Keeps fun y => ¬ Q y)
    (hq : ∀ o ∈ spec.qubits, ∀ v, o.eval s.bindings = .ok v → v.IsPhysical)
    (hsteps : Disciplined (.physical Q hQ) lib fuel (calibrateWith · spec) s)
    (h : calibrateWith (run lib fuel) spec s = (.ok x, s')) :
    (∀ e ∈ x.qubits, e.IsPhysical) ∧ ∀ st ∈ x.body, st.PulsesBy (·.Over fun y => ¬ Q y) Expr.IsPhysical := by
  have hrun := faithful_insist hlib fuel rfl spec.body
  have hresult := (follows_calibrateWith hrun hs ha).result x
  rw [hsteps.insist, h] at hresult
  obtain ⟨vs, hvs, hqubits, hbody⟩ := hresult rfl
  refine ⟨fun e he => ?_, fun st hst => (hbody st hst).mono (fun _ he => he) ?_⟩
  · obtain ⟨v, hv, t, hr, -, rfl⟩ := exists_of_forall₂ hqubits e he
    obtain ⟨o, ho, heval⟩ := exists_of_forall₂ (Operand.evals_forall₂ hvs) v hv
    exact hq o ho v heval t hr
  · rintro e ⟨v, t, hwire, hr, rfl⟩
    exact hwire t hr

/-- What every calibration holds; what it holds if it is given physical qubits and none of the names that
stand for others; and the two ways in which it gets other qubits, which are open to every expression of
that type and to every number. -/
theorem calibration_qubits (lib : Library) (fuel : Nat) (spec : CalibrationSpec) (s s' : State)
    (x : CalibrationDef) (h : calibrateWith (run lib fuel) spec s = (.ok x, s')) :
    (∃ vs, Operand.evals s.bindings spec.qubits = .ok vs ∧
      List.Forall₂ (fun v e => e.IsQubit ∧ (e.IsPhysical ∨ v = .expr e)) vs x.qubits ∧
      ∀ st ∈ x.body, st.PulsesBy (fun _ => True) Expr.IsQubit) ∧
    (∀ (Q : String → Prop) (hQ : ∀ stem n, ¬ Q (generatedName stem n)), lib.Obeys (.physical Q hQ) →
      s.Over (.physical Q hQ) → (∀ o ∈ spec.angles, o.Keeps fun y => ¬ Q y) →
      (∀ o ∈ spec.qubits, ∀ v, o.eval s.bindings = .ok v → v.IsPhysical) →
      Disciplined (.physical Q hQ) lib fuel (calibrateWith · spec) s →
      (∀ e ∈ x.qubits, e.IsPhysical) ∧
        ∀ st ∈ x.body, st.PulsesBy (·.Over fun y => ¬ Q y) Expr.IsPhysical) ∧
    (∀ (gate : String) (e : Expr) (t : State), e.IsQubit → calibrationQubit gate (.expr e) t = (.ok e, t)) ∧
    ∀ (t : State) (ns n : Int), t.ctx.active = true → t.ctx.refusal? .pulse = none → t.ctx.verbatim = false →
      0 ≤ n → ∃ t', delay .own ns [.int .word n] t = (.ok (), t') ∧
        t'.ctx.captured = t.ctx.captured ++ [.delay (.duration ns) [.index registerExpr (.int n)]] :=
  ⟨qubits_of_calibrate h,
    fun _ _ hlib hs ha hq hsteps => physical_of_calibrate hlib hs ha hq hsteps h,
    fun gate _ t he => calibrationQubit_of_isQubit he gate t,
    fun _ ns _ ha hp hv hn => delay_number ns ha hp hv hn⟩

/-- A turn by its angle, with a pause on the frame and the qubit. -/
def rampCalibration : CalibrationSpec where
  gate := "rx"
  qubits := [.const (.string "$0")]
  angles := [.const (.expr (.var "theta" (some .angle) none))]
  body := [.mk (.frameCall .shiftPhase "drive" (.arg 0)) none false .own,
    .mk (.delay 10 [.const (.expr (.frame "drive")), .const (.string "$0")]) none false .own]

theorem isPhysical_of_mem {v : Value} (h : v ∈ [Value.expr (.frame "drive"), .string "$0"]) : v.IsPhysical := by
  rcases mem_cons.1 h with rfl | h
  · exact fun t ht => by cases ht
  · cases mem_singleton.1 h
    intro t ht
    cases ht
    exact ⟨0, rfl⟩

theorem keeps_argument (N : String → Prop) (i : Int) : (Operand.arg i).Keeps N := by
  intro b v hb he
  cases he
  unfold Bindings.argument
  split
  · trivial
  · cases hi : b.args[i.toNat]? with
    | none => trivial
    | some v => exact hb.args v (mem_of_getElem? hi)

theorem obeys_ramp {st : Step} (h : st ∈ rampCalibration.body) (b : Bindings) :
    st.action.bodies = [] ∧ st.action.Obeys (.physical Q hQ) lib b := by
  rcases mem_cons.1 h with rfl | h
  · refine ⟨rfl, fun o ho => ?_, fun o ho => ?_, fun n hn => ?_, fun i hi => ?_, fun o ho => ?_, fun hb => hb.elim⟩
    · cases mem_singleton.1 ho
      exact keeps_argument _ _
    all_goals contradiction
  · cases mem_singleton.1 h
    have hconst : ∀ {o : Operand}, o ∈ [Operand.const (.expr (.frame "drive")), .const (.string "$0")] →
        ∃ v ∈ [Value.expr (.frame "drive"), .string "$0"], o = .const v ∧ v.Over fun y => ¬ Q y := by
      intro o ho
      rcases mem_cons.1 ho with rfl | ho
      · exact ⟨_, mem_cons_self .., rfl, trivial⟩
      · cases mem_singleton.1 ho
        exact ⟨_, mem_cons_of_mem _ (mem_singleton.2 rfl), rfl, trivial⟩
    refine ⟨rfl, fun o ho => ?_, fun o ho v he => ?_, fun n hn => ?_, fun i hi => ?_, fun o ho => ?_,
      fun hb => hb.elim⟩
    · obtain ⟨v, -, rfl, hv⟩ := hconst ho
      intro b v' _ he
      cases he
      exact hv
    · obtain ⟨v, hv, rfl, -⟩ := hconst ho
      cases he
      exact isPhysical_of_mem hv
    all_goals contradiction

theorem disciplined_ramp : Disciplined (.physical Q hQ) ⟨[]⟩ ampleFuel (calibrateWith · rampCalibration) {} := by
  have hall : Throughout ⟨[]⟩ ampleFuel (fun _ _ => True)
      (calibrateWith · rampCalibration) {} := .of_forall fun _ _ => trivial
  refine (hall.and_steps (P := (· ∈ rampCalibration.body)) (fun st hst b hb => ?_)
    (fun x hx => absurd hx not_mem_nil) fun again again' hsame => ?_).mono fun o t ho st hst => ?_
  · rw [(@obeys_ramp ⟨[]⟩ Q hQ st hst {}).1] at hb
    cases hb
  · simp only [calibrateWith, hsame rampCalibration.body fun st hst => hst]
  · exact (obeys_ramp (ho.2 st hst) t.bindings).2

theorem calibration_qubits_ramp :
    (∃ x s', calibrate ⟨[]⟩ rampCalibration {} = (.ok x, s') ∧ x.body.length = 2 ∧
      (∀ e ∈ x.qubits, e.IsPhysical) ∧
      ∀ st ∈ x.body, st.PulsesBy (·.Over (¬ · = registerName)) Expr.IsPhysical) ∧
    calibrationQubit "x" (.expr (.var "q" (some (.qubit 0)) none)) {} =
      (.ok (.var "q" (some (.qubit 0)) none), {}) ∧
    ∃ s', delay .own 10 [.int .word 3] (({} : State).started {}) = (.ok (), s') ∧
      s'.ctx.captured = [.delay (.duration 10) [.index registerExpr (.int 3)]] := by
  obtain ⟨x, s', hx, hlength⟩ : ∃ x s', calibrate ⟨[]⟩ rampCalibration {} = (.ok x, s') ∧
      x.body.length = 2 := ⟨_, _, rfl, by decide⟩
  have hQ : ∀ stem n, ¬ generatedName stem n = registerName := generatedName_ne_registerName
  have hs : ({} : State).Over (.physical (· = registerName) hQ) :=
    ⟨.ofArgs fun _ h => absurd h List.not_mem_nil, (fun _ h => by cases h), (fun _ h => by cases h)⟩
  have hramp := calibration_qubits ⟨[]⟩ ampleFuel rampCalibration {} s' x hx
  refine ⟨⟨x, s', hx, hlength, hramp.2.1 (· = registerName) hQ (fun _ h => absurd h List.not_mem_nil) hs
      (fun o ho => ?_) (fun o ho v he => ?_) disciplined_ramp⟩,
    hramp.2.2.1 "x" _ {} ⟨_, rfl, rfl⟩,
    hramp.2.2.2 (({} : State).started {}) 10 3 rfl rfl rfl (by decide)⟩
  · cases List.mem_singleton.1 ho
    intro b v _ he
    cases he
    exact show ¬ "theta" = registerName by decide
  · cases List.mem_singleton.1 ho
    cases he
    exact isPhysical_of_mem (List.mem_cons_of_mem _ (List.mem_singleton.2 rfl))

/-- A calibration of a variable, one of an element of the register that is spelled out, and one with a delay
on a number. -/
theorem virtual_calibrations :
    (∃ x s', calibrate ⟨[]⟩ ⟨"x", [.newVar "q" (some (.qubit 0)) none], [], []⟩ {} = (.ok x, s') ∧
      ¬ ∀ e ∈ x.qubits, e.IsPhysical) ∧
    (∃ x s', calibrate ⟨[]⟩ ⟨"x", [.const (.expr (.index registerExpr (.int 0)))], [], []⟩ {} = (.ok x, s') ∧
      ¬ ∀ e ∈ x.qubits, e.IsPhysical) ∧
    ∃ x s', calibrate ⟨[]⟩ ⟨"x", [.const (.string "$0")], [],
        [.mk (.delay 10 [.const (.int .word 0)]) none false .own]⟩ {} = (.ok x, s') ∧
      x.body = [.delay (.duration 10) [.index registerExpr (.int 0)]] := by
  have hnone : ∀ {x : CalibrationDef} {e : Expr}, x.qubits = [e] → (∀ n, e ≠ .physical n) →
      ¬ ∀ e ∈ x.qubits, e.IsPhysical := by
    intro x e hx he hall
    obtain ⟨n, hn⟩ := hall e (hx ▸ List.mem_singleton.2 rfl)
    exact he n hn
  exact ⟨⟨_, _, rfl, hnone rfl fun n h => by cases h⟩, ⟨_, _, rfl, hnone rfl fun n h => by cases h⟩,
    _, _, rfl, rfl⟩

end Convert

end QasmStudio

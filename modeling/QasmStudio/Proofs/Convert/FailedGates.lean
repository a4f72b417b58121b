import QasmStudio.Proofs.Convert.Keeps
import QasmStudio.Proofs.Convert.Origins

/-!
# Failed gates, resets and barriers

These check all their operands before they change anything, so that one of them that fails has left no
trace. For a gate with a body there is more in between: where it is called for the first time its body is
run, which may try any operation on the way to its failure. In a gate definition all of them are refused
but calls of gates, and those are written to a block that goes with the definition. What stays are the
gates that the body has called, if their own definitions came to an end.

Only the methods of the context itself are not refused. They register qubits, take names and announce the
pulse grammar in the middle of a gate definition as they do elsewhere, and what they did stays done.
-/

namespace QasmStudio

/-- The step is in the body of a routine, at some depth. -/
inductive Library.Includes (lib : Library) : Step → Prop
  | routine {x : String × Routine} {st : Step} (hx : x ∈ lib.routines) (hst : st ∈ x.2.body) : Includes lib st
  | nested {st st' : Step} {b : List Step} (h : Includes lib st) (hb : b ∈ st.action.bodies) (hst : st' ∈ b) :
      Includes lib st'

/-- The definition is what a body of the library leaves that has come to its end: the body of a gate, or of
a definition that a step opens by hand. -/
inductive Library.CompletesGate (lib : Library) : GateDef → Prop
  | routine {key : Nat} {r : Routine} {x : GateDef} (hr : lib.Holds key r) (hx : r.DefinesGate lib x) :
      CompletesGate lib x
  | byHand {st : Step} {name : String} {params : List GateParam} {body : List Step} {fuel : Nat} {t u : State}
      (hst : lib.Includes st) (ha : st.action = .gateDef name params body)
      (hpermits : t.ctx.Permits .unitary) (hempty : t.ctx.captured = [])
      (hgates : t.ctx.gates.head? = some ⟨name, params⟩) (hrun : Convert.run lib fuel body t = (.ok (), u)) :
      CompletesGate lib ⟨name, GateParam.angles params, GateParam.qubits params, u.ctx.captured⟩

namespace Convert
variable {α β : Type} {lib : Library} {fuel key : Nat} {r : Routine} {h : Handle} {s s' : State}

/-! ### Where a conversion stops -/

/-- If the conversion stops, then `P` holds of the reason and of the state that is left. -/
def Aborts (m : Convert α) (s : State) (P : Stop → State → Prop) : Prop := ∀ e s', m s = (.error e, s') → P e s'

/-- Where it stops, nothing has been changed. -/
def Untouched (s : State) : Stop → State → Prop := fun _ t => t = s

theorem untouched (s : State) (e : Stop) : Untouched s e s := rfl

namespace Aborts
variable {m : Convert α} {f : α → Convert β} {P Q : Stop → State → Prop}

theorem of_ok {a : α} {t : State} (h : m s = (.ok a, t)) : Aborts m s P := by
  intro e s' hs'
  cases h.symm.trans hs'

theorem raise {e : Error} (hs : P (.error e) s) : Aborts (raise e : Convert α) s P := by
  intro x s' hs'
  cases hs'
  exact hs

theorem of_reads {T : α → Prop} (h : Reads m s T) (hs : ∀ e, P e s) : Aborts m s P := by
  intro e s' hs'
  rcases h with ⟨x, -, hx⟩ | ⟨a, ha, -⟩
  · cases hx.symm.trans hs'
    exact hs e
  · cases ha.symm.trans hs'

theorem mono (h : Aborts m s P) (hPQ : ∀ e t, P e t → Q e t) : Aborts m s Q := fun e s' hs' => hPQ e s' (h e s' hs')

theorem bind (h : Aborts m s P) (hf : ∀ a t, m s = (.ok a, t) → Aborts (f a) t P) : Aborts (m >>= f) s P := by
  intro e s' hs'
  rcases hm : m s with ⟨x | a, t⟩
  · rw [bind_of_error hm] at hs'
    cases hs'
    exact h e s' hm
  · rw [bind_of_ok hm] at hs'
    exact hf a t hm e s' hs'

theorem seq {T : α → Prop} (h : Reads m s T) (hs : ∀ e, P e s) (hf : ∀ a, T a → Aborts (f a) s P) :
    Aborts (m >>= f) s P := by
  intro e s' hs'
  rcases h.bind f with ⟨x, -, hx⟩ | ⟨a, ha, hx⟩
  · cases hx.symm.trans hs'
    exact hs e
  · exact hf a ha e s' (hx.symm.trans hs')

theorem mapError {g : Error → Error} (h : Aborts m s P) (hP : ∀ x t, P (.error x) t → P (.error (g x)) t) :
    Aborts (mapError g m) s P := by
  intro e s' hs'
  rcases hm : m s with ⟨x | a, t⟩
  · unfold Convert.mapError at hs'
    rw [hm] at hs'
    cases x <;> cases hs'
    · exact hP _ _ (h _ _ hm)
    all_goals exact h _ _ hm
  · cases (mapError_of_ne hm fun e he => by cases he).symm.trans hs'

end Aborts

theorem exists_of_stopped {x : Except Stop α × State} {f : State → β} {b : β}
    (h : (x.1.isOk, f x.2) = (false, b)) : ∃ e s', x = (.error e, s') ∧ f s' = b := by
  obtain ⟨e | a, s'⟩ := x
  · exact ⟨e, s', rfl, (Prod.mk.inj h).2⟩
  · cases (Prod.mk.inj h).1

/-! ### Gates, resets and barriers -/

theorem aborts_applyGate (name : String) (qubits angles : List Value) :
    Aborts (applyGate h name qubits angles) s (Untouched s) := by
  refine .seq (reads_requireActive h _ s) (untouched s) fun _ _ => .seq (reads_allow _ s) (untouched s) fun _ _ => ?_
  refine .seq (reads_resolveAll qubits s) (untouched s) fun ts _ => ?_
  refine .seq (reads_angles (d := .free) (fun v _ => v.over_true) s) (untouched s) fun args _ => ?_
  refine .seq (reads_context s) (untouched s) fun c _ => ?_
  dsimp only
  split
  · exact .of_reads (T := fun _ => True) .refuse (untouched s)
  · exact .of_ok rfl

theorem aborts_qubitOperand (q : Value) : Aborts (qubitOperand q) s (Untouched s) := by
  refine .seq (reads_context s) (untouched s) fun c _ => .seq (reads_liftDomain _ s) (untouched s) fun t _ => ?_
  exact .of_ok rfl

theorem aborts_reset (q : Value) : Aborts (reset h q) s (Untouched s) := by
  refine .seq (reads_requireClassical h _ s) (untouched s) fun _ _ => ?_
  exact .bind (aborts_qubitOperand q) fun _ _ _ => .of_ok rfl

theorem aborts_barrier (qs : List Value) : Aborts (barrier h qs) s (Untouched s) := by
  refine .seq (reads_requireClassical h _ s) (untouched s) fun _ _ => ?_
  exact .seq (reads_resolveAll qs s) (untouched s) fun ts _ => .of_ok rfl

/-! ### Calls of gates -/

/-- What a call of a gate may do to the build before it fails. -/
def gateLicence (lib : Library) (n : Nat) (W : Prop) : Licence where
  build := n
  inGate := True
  stmts _ := True
  gates := lib.CompletesGate
  methods := W

section lawful
variable {M : Option Step → State → Prop} {n : Nat} {W : Prop}

theorem lawful_gateLicence (hsteps : ∀ st t, M (some st) t → lib.Includes st)
    (hmethods : ∀ st t, M (some st) t → st.handle = .own → t.ctx.build = n →
      st.action.meddles t.ctx = true → W) (fuel : Nat) :
    Lawful .own (gateLicence lib n W) lib (observed (insist M .exhausted) lib fuel) := by
  refine lawful_observed ⟨fun st t ht hside => ?_, fun st t fuel ht => ?_⟩ (fun fuel => ?_) fuel
  · have hown : st.handle = .own := by
      cases hh : st.handle with
      | own => rfl
      | absent | finished => simp [hh, Handle.side?] at hside
    exact hmethods st t ht hown
  · refine ⟨fun _ _ name params body ha u v hpermits hempty hgates hrun => ?_, fun hσ => by cases hσ⟩
    exact .byHand (hsteps st t ht) ha hpermits hempty hgates (run_of_insist error_ne_exhausted hrun)
  · refine ⟨fun _ => trivial, fun _ _ _ _ => trivial, fun _ key r x hr hk hx => ?_, fun hσ => by cases hσ⟩
    exact .routine hr ((hx.of_insist error_ne_exhausted).definesGate hk)

end lawful

/-- A call that has failed has written nothing: either the definition has failed, or the gate has been refused
after it. -/
theorem aborts_callGate {π : Licence} {again : Runner} (hl : Lawful .own π lib again) (hr : lib.Holds key r)
    (hk : r.kind = .gate) (hs : s.ctx.build = π.build) (args : List Value) :
    Aborts (callGate again h r args) s fun _ t => s.ctx.Gains π.silent t.ctx := by
  have hrefl : Stop → s.ctx.Gains π.silent s.ctx := fun _ => .refl _
  refine .seq (reads_requireActive h _ s) hrefl fun _ ha => .seq (reads_checkTypes s) hrefl fun _ _ => ?_
  refine .seq (reads_checkCount s) hrefl fun _ _ => .seq (reads_allow _ s) hrefl fun _ _ => ?_
  refine .seq (reads_context s) hrefl fun c _ => ?_
  have happly : ∀ t : State, s.ctx.Gains π.silent t.ctx →
      Aborts (applyGate h r.name (argumentsFor Param.isQubit r.params args)
        (argumentsFor (fun p => !Param.isQubit p) r.params args)) t fun _ u => s.ctx.Gains π.silent u.ctx := by
    intro t ht e u hu
    rw [aborts_applyGate _ _ _ e u hu]
    exact ht
  have hdefine := gains_defineGateRoutine hl hr hk hs ha
  dsimp only
  split
  · refine .bind (fun e t ht => ?_) fun _ t ht => happly t ?_
    · rwa [ht] at hdefine
    · rwa [ht] at hdefine
  · exact happly s (.refl _)

theorem Throughout.call_and_steps {M : Option Step → State → Prop} {P : Step → Prop} {args : List Value}
    (hbodies : ∀ st, P st → ∀ b ∈ st.action.bodies, ∀ st' ∈ b, P st')
    (hlib : ∀ x ∈ lib.routines, ∀ st ∈ x.2.body, P st) (hr : lib.Holds key r)
    (hM : Throughout lib fuel M (call · h key r args) s) :
    Throughout lib fuel (fun o t => M o t ∧ ∀ st ∈ o, P st) (call · h key r args) s := by
  obtain ⟨id, hid⟩ := hr
  refine Throughout.and_steps hbodies hlib (fun again again' hsame => ?_) hM
  rw [call_congr (hsame r.body (hlib _ (List.mem_of_getElem? hid)))]

/-- All that happens on the way to the failure is what the steps of the library do. -/
theorem gains_of_failed_call {W : Prop} {args : List Value} {e : Stop} (hr : lib.Holds key r) (hk : r.kind = .gate)
    (hmethods : Throughout lib fuel (fun o t => ∀ st ∈ o, st.handle = .own → t.ctx.build = s.ctx.build →
      st.action.meddles t.ctx = true → W) (call · h key r args) s)
    (hcall : call (run lib fuel) h key r args s = (.error e, s')) :
    s.ctx.Gains (gateLicence lib s.ctx.build W).silent s'.ctx := by
  have hsteps := hmethods.call_and_steps (P := lib.Includes) (fun st hst b hb st' hst' => .nested hst hb hst')
    (fun x hx st hst => .routine hx hst) hr
  rw [← hsteps.insist .exhausted] at hcall
  refine Aborts.mapError (P := fun _ t => s.ctx.Gains _ t.ctx) ?_ ?_ e s' hcall
  case refine_2 => exact fun _ _ => id
  rw [if_pos hk]
  refine .bind (aborts_callGate (lawful_gateLicence (fun st t ht => ?_) (fun st t ht => ?_) fuel) hr hk rfl args)
    fun _ _ _ => .of_ok rfl
  · exact ht.2 st rfl
  · exact ht.1 st rfl

/-- A native gate, a reset or a barrier that fails changes nothing. A gate with a body that fails when it is called
changes at most what methods of the context are there to change, and it leaves complete definitions at the end of
the table; and if no step of its body calls such a method, then the definitions are all. -/
theorem failed_unitary (lib : Library) (fuel : Nat) (h : Handle) (s s' : State) (e : Stop) :
    (∀ g operands, applyNative h g operands s = (.error e, s') → s' = s) ∧
    (∀ q, reset h q s = (.error e, s') → s' = s) ∧
    (∀ qs, barrier h qs s = (.error e, s') → s' = s) ∧
    ∀ key r args, lib.Holds key r → r.kind = .gate → call (run lib fuel) h key r args s = (.error e, s') →
      (∃ new qubits given pulse, s'.ctx = s.ctx.amended new qubits given pulse ∧
        (∀ x ∈ new, lib.CompletesGate x) ∧ s.ctx.qubits ⊆ qubits) ∧
      (Throughout lib fuel
          (fun o t => ∀ st ∈ o, st.handle = .own → t.ctx.build = s.ctx.build → st.action.meddles t.ctx = false)
          (call · h key r args) s →
        ∃ new, (∀ x ∈ new, lib.CompletesGate x) ∧
          s'.ctx = { s.ctx with root := { s.ctx.root with gates := s.ctx.root.gates ++ new } }) := by
  refine ⟨fun g operands => aborts_applyGate _ _ _ e s', fun q => aborts_reset q e s',
    fun qs => aborts_barrier qs e s', fun key r args hr hk hcall => ⟨?_, fun hquiet => ?_⟩⟩
  · have hgains := gains_of_failed_call (W := True) hr hk (.of_forall fun _ _ _ _ _ _ _ => trivial) hcall
    obtain ⟨new, qubits, given, pulse, heq, hnew, hqubits, -⟩ := hgains.of_silent
    exact ⟨new, qubits, given, pulse, heq, hnew, hqubits⟩
  · have hquiet := hquiet.mono (N := fun o t => ∀ st ∈ o, st.handle = .own → t.ctx.build = s.ctx.build →
      st.action.meddles t.ctx = true → False) fun o t ho st hst hown hbuild hm => by
        rw [ho st hst hown hbuild] at hm
        cases hm
    obtain ⟨new, qubits, given, pulse, heq, hnew, -, hm⟩ := (gains_of_failed_call hr hk hquiet hcall).of_silent
    obtain ⟨rfl, rfl, rfl⟩ := hm.resolve_left id
    exact ⟨new, hnew, heq⟩

def flipGate : Routine :=
  .gate "flip" [⟨"q", some (.qubit 0)⟩] [.mk (.gate ⟨"x", 1, 0⟩ [.arg 0]) none false .own]

/-- It calls another gate, and then it measures, which is not allowed. -/
def measuringGate : Routine :=
  .gate "pair" [⟨"a", some (.qubit 0)⟩, ⟨"b", some (.qubit 0)⟩]
    [.mk (.call "flip" [.arg 0]) none false .own, .mk (.gate ⟨"cnot", 2, 0⟩ [.arg 0, .arg 1]) none false .own,
     .mk (.measure [.arg 1]) none false .own]

def measuringLibrary : Library := .ofRoutines [flipGate, measuringGate]

theorem failed_unitary_pair :
    (∃ e s', applyNative .own ⟨"cnot", 2, 0⟩ [.int .word 0, .int .word (-1)] (.started {} {}) = (.error e, s') ∧
      s' = .started {} {}) ∧
    (∃ e s', reset .own (.string "$x") (.started {} {}) = (.error e, s') ∧ s' = .started {} {}) ∧
    (∃ e s', barrier .own [.int .word 2, .none] (.started {} {}) = (.error e, s') ∧ s' = .started {} {}) ∧
    ∃ e s', call (run measuringLibrary 4) .own 1 measuringGate [.int .word 0, .int .word 1] (.started {} {}) =
        (.error e, s') ∧ s'.ctx.root.gates.map (·.name) = ["flip"] ∧
      ∃ new, (∀ x ∈ new, measuringLibrary.CompletesGate x) ∧ s'.ctx =
        { (State.started {} {}).ctx with root := { (State.started {} {}).ctx.root with gates := new } } := by
  have hfailed := fun s' e => failed_unitary measuringLibrary 4 .own (.started {} {}) s' e
  refine ⟨?_, ?_, ?_, ?_⟩
  · obtain ⟨e, s', hs', -⟩ := exists_of_stopped (f := fun _ => ()) (b := ())
      (x := applyNative .own ⟨"cnot", 2, 0⟩ [.int .word 0, .int .word (-1)] (.started {} {})) (by decide +kernel)
    exact ⟨e, s', hs', (hfailed s' e).1 _ _ hs'⟩
  · obtain ⟨e, s', hs', -⟩ := exists_of_stopped (f := fun _ => ()) (b := ())
      (x := reset .own (.string "$x") (.started {} {})) (by decide +kernel)
    exact ⟨e, s', hs', (hfailed s' e).2.1 _ hs'⟩
  · obtain ⟨e, s', hs', -⟩ := exists_of_stopped (f := fun _ => ()) (b := ())
      (x := barrier .own [.int .word 2, .none] (.started {} {})) (by decide +kernel)
    exact ⟨e, s', hs', (hfailed s' e).2.2.1 _ hs'⟩
  · obtain ⟨e, s', hcall, htable⟩ := exists_of_stopped (f := fun t => t.ctx.root.gates.map (·.name)) (b := ["flip"])
      (x := call (run measuringLibrary 4) .own 1 measuringGate [.int .word 0, .int .word 1] (.started {} {}))
      (by decide +kernel)
    have hheld : measuringLibrary.Holds 1 measuringGate := ⟨"pair", rfl⟩
    have hsteps : Throughout measuringLibrary 4
        (fun o _ => True ∧ ∀ st ∈ o, st.action.bodies = [] ∧ ∀ c, st.action.meddles c = false)
        (call · .own 1 measuringGate [.int .word 0, .int .word 1]) (.started {} {}) := by
      refine Throughout.call_and_steps ?_ ?_ hheld (.of_forall fun _ _ => trivial)
      · rintro st ⟨hst, -⟩ b hb
        rw [hst] at hb
        cases hb
      · simp [measuringLibrary, Library.ofRoutines, flipGate, measuringGate, Routine.gate, Step.action, Action.bodies,
          Action.meddles]
    obtain ⟨-, hquiet⟩ := (hfailed s' e).2.2.2 1 measuringGate _ hheld rfl hcall
    exact ⟨e, s', hcall, htable, hquiet (hsteps.mono fun o t ho st hst _ _ => (ho.2 st hst).2 t.ctx)⟩

def registeringGate : Routine :=
  .gate "g" [⟨"q", some (.qubit 0)⟩]
    [.mk (.registerQubit 3) none false .own, .mk (.fail "boom") none false .own]

/-- The method of the context is not refused in the definition of a gate, so it leaves a trace. -/
theorem failed_gate_registers :
    ∃ e s', call (run (.ofRoutines [registeringGate]) 4) .own 0 registeringGate [.int .word 0] (.started {} {}) =
        (.error e, s') ∧ (State.started {} {}).ctx.qubits = [] ∧ s'.ctx.qubits = [3] := by
  obtain ⟨e, s', hcall, hqubits⟩ := exists_of_stopped (f := fun t => t.ctx.qubits) (b := [3])
    (x := call (run (.ofRoutines [registeringGate]) 4) .own 0 registeringGate [.int .word 0] (.started {} {}))
    (by decide +kernel)
  exact ⟨e, s', hcall, rfl, hqubits⟩

end Convert

end QasmStudio

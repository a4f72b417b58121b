import QasmStudio.Proofs.Convert.Gains
import QasmStudio.Proofs.Convert.Judgement

/-!
# Operations around a closed context

A state has two contexts. A body works in one of them while its steps may address both, so `Keeps` is about
either side, and exchanging the contexts exchanges the sides and no more.

Every operation keeps a finished context closed, since all it can do is what the methods of the context
do. It keeps the context of a build closed as long as a gate is being defined there: everything but
calls of gates stops before it has changed anything, on whatever operands. Both are one induction, over
the bodies that an operation runs.
-/

namespace QasmStudio.Convert

/-- The context that is worked in, or the finished one. -/
inductive Side where
  | own
  | finished

def Side.of : Side → State → Context
  | .own, s => s.ctx
  | .finished, s => s.finished

def Side.other : Side → Side
  | .own => .finished
  | .finished => .own

def Handle.side? : Handle → Option Side
  | .own => some .own
  | .absent => none
  | .finished => some .finished

/-- It is the context that the licence is about, where it is about it. -/
structure Shut (π : Licence) (c : Context) : Prop where
  build : c.build = π.build
  inGate : π.inGate → c.gates ≠ [] ∧ c.active = true

/-- However `m` ends, the context on that side has gained only what the licence allows. -/
def Keeps {α : Type} (σ : Side) (π : Licence) (m : Convert α) : Prop :=
  ∀ s, Shut π (σ.of s) → (σ.of s).Gains π (σ.of (m s).2)

/-- Inside of a gate definition the conversion leaves the context alone. -/
def Idles {α : Type} (m : Convert α) : Prop := ∀ s, s.ctx.gates ≠ [] → (m s).2.ctx = s.ctx

variable {α β : Type} {σ : Side} {π : Licence} {m : Convert α} {f : α → Convert β} {c c' : Context}
  {s : State} {Q : State → α → Prop}

/-! ### Where the context is shut -/

namespace Shut

theorem gains (h : Shut π c) (hg : c.Gains π c') : Shut π c' :=
  ⟨hg.build.trans h.build, fun hin => by rw [hg.gates, hg.active]; exact h.inGate hin⟩

theorem enterProgram (h : Shut π c) (p : Program) : Shut π (c.enterProgram p) := ⟨h.build, h.inGate⟩

theorem enterCalibration (h : Shut π c) (r : CalibrationRecord) : Shut π (c.enterCalibration r) :=
  ⟨h.build, h.inGate⟩

theorem enterGate (h : c.build = π.build) (ha : π.inGate → c.active = true) (r : GateRecord) :
    Shut π (c.enterGate r) :=
  ⟨h, fun hin => ⟨List.cons_ne_nil _ _, ha hin⟩⟩

theorem openBlock (h : Shut π c) : Shut π c.openBlock := ⟨h.build, h.inGate⟩

end Shut

/-! ### Rules for both sides -/

namespace Keeps

theorem of_eq (h : ∀ s, σ.of (m s).2 = σ.of s) : Keeps σ π m := fun s _ => by
  rw [h s]
  exact .refl _

theorem pure {a : α} : Keeps σ π (pure a : Convert α) := of_eq fun _ => rfl

theorem bind (hm : Keeps σ π m) (hf : ∀ a, Keeps σ π (f a)) : Keeps σ π (m >>= f) := by
  intro s hs
  have hfirst := hm s hs
  rcases h : m s with ⟨e | a, t⟩
  · rw [bind_of_error h]
    rwa [h] at hfirst
  · rw [bind_of_ok h]
    rw [h] at hfirst
    exact hfirst.trans (hf a t (hs.gains hfirst))

theorem given (hm : ∀ s, Reads m s (Q s)) (hf : ∀ s a, Shut π (σ.of s) → Q s a → Keeps σ π (f a)) :
    Keeps σ π (m >>= f) := by
  intro s hs
  rcases (hm s).bind f with ⟨e, -, he⟩ | ⟨a, ha, he⟩
  · rw [he]
    exact .refl _
  · rw [he]
    exact hf s a hs ha s hs

theorem mapError {g : Error → Error} (hm : Keeps σ π m) : Keeps σ π (mapError g m) := by
  intro s hs
  rw [(mapError_apply g m s).1]
  exact hm s hs

theorem forM {as : List α} {f : α → Convert PUnit} (hf : ∀ a, Keeps σ π (f a)) : Keeps σ π (as.forM f) := by
  induction as with
  | nil => exact .pure
  | cons a as ih => exact (hf a).bind fun _ => ih

theorem bracketContext {enter leave : Context → Context} (hm : Keeps .finished π m) :
    Keeps .finished π (bracketContext enter leave m) := fun s hs => hm { s with ctx := enter s.ctx } hs

theorem block {m : Convert Unit} (hm : Keeps .finished π m) : Keeps .finished π (block m) :=
  bracketContext (hm.bind fun _ => .of_eq fun _ => rfl)

theorem of_idles (hin : π.inGate) (h : Idles m) : Keeps .own π m := by
  intro s hs
  show s.ctx.Gains π (m s).2.ctx
  rw [h s (hs.inGate hin).1]
  exact .refl _

end Keeps

/-! ### What is refused inside of gate definitions -/

theorem refusal_of_gates {mode : Mode} (hc : c.gates ≠ []) (hmode : mode ≠ .unitary) : c.refusal? mode ≠ none := by
  cases hg : c.gates with
  | nil => exact absurd hg hc
  | cons r rs => simp [Context.refusal?, hg, hmode]

namespace Idles
variable {h : Handle}

theorem of_reads (hm : ∀ s, Reads m s (Q s)) : Idles m := by
  intro s _
  rcases hm s with ⟨e, -, he⟩ | ⟨a, ha, -⟩
  · rw [he]
  · rw [ha]

theorem bind (hm : Idles m) (hf : ∀ a, Idles (f a)) : Idles (m >>= f) := by
  intro s hs
  have hfirst := hm s hs
  rcases h : m s with ⟨e | a, t⟩ <;> rw [h] at hfirst
  · rwa [bind_of_error h]
  · rw [bind_of_ok h, hf a t (hfirst ▸ hs)]
    exact hfirst

theorem seq (hm : ∀ s, Reads m s (Q s)) (hf : ∀ a, Idles (f a)) : Idles (m >>= f) := (of_reads hm).bind hf

theorem report (hm : Idles m) {g : α → β} : Idles (m >>= fun a => pure (g a)) := hm.bind fun _ _ _ => rfl

theorem classical {op : String} {f : Unit → Convert β} : Idles (requireClassical h op >>= f) := by
  intro s hs
  rcases (reads_requireClassical h op s).bind f with ⟨e, -, he⟩ | ⟨a, hp, -⟩
  · rw [he]
  · exact absurd hp.2 (refusal_of_gates hs (by decide))

theorem pulse {op : String} {f : Unit → Convert β} : Idles (requirePulse h op >>= f) := by
  intro s hs
  have hstop : ∃ e, requirePulse h op s = (.error e, s) := by
    rcases (reads_requireActive h op s).bind _ with ⟨e, -, he⟩ | ⟨_, -, hrest⟩
    · exact ⟨e, he⟩
    · rcases (reads_allow .pulse s).bind _ with ⟨e, -, he⟩ | ⟨_, hallowed, -⟩
      · exact ⟨e, hrest.trans he⟩
      · exact absurd hallowed (refusal_of_gates hs (by decide))
  obtain ⟨e, he⟩ := hstop
  rw [bind_of_error he]

end Idles

/-! ### Gates -/

theorem index_of_resolve {v : Value} {t : Target} (h : c.resolve v = .ok t) {name : String} {ty : Option Ty}
    {init : Option Expr} (hvar : t.expr = .var name ty init) : t.index = none := by
  rcases Context.resolve_cases h with ⟨n, -, -, rfl⟩ | hnone
  · cases hvar
  · exact hnone

-- the qubits of a gate definition are variables, and no variable is an element of the register
theorem indices_of_foreign {ts : List Target} {args : List Expr} {vs : List Value} (hg : c.gates ≠ [])
    (hts : List.Forall₂ (fun v t => c.resolve v = .ok t) vs ts)
    (hf : c.foreign? (ts.map (·.expr)) args = none) : ts.filterMap (·.index) = [] := by
  refine List.filterMap_eq_nil_iff.2 fun t ht => ?_
  obtain ⟨r, rs, hgates⟩ := List.exists_cons_of_ne_nil hg
  obtain ⟨v, -, hvt⟩ := exists_of_forall₂ hts t ht
  have hcalls : Stmt.CallsOn (GateParam.qubits r.params) (.gate "" args (ts.map (·.expr))) :=
    Context.callsOn_of_foreign hgates hf
  obtain ⟨name, ty, init, hvar, -⟩ := hcalls t.expr (List.mem_map.2 ⟨t, ht, rfl⟩)
  exact index_of_resolve hvt hvar

theorem gains_seq {Q : α → Prop} (h : Reads m s Q) (hf : ∀ a, Q a → s.ctx.Gains π (f a s).2.ctx) :
    s.ctx.Gains π ((m >>= f) s).2.ctx := by
  rcases h.bind f with ⟨e, -, he⟩ | ⟨a, ha, he⟩
  · rw [he]
    exact .refl _
  · rw [he]
    exact hf a ha

/-- Inside of a gate definition a gate is called, and no more. -/
theorem keeps_applyGate (hin : π.inGate) (hst : ∀ name args qubits, π.stmts (.gate name args qubits)) (h : Handle)
    (name : String) (qubits angles : List Value) : Keeps .own π (applyGate h name qubits angles) := by
  intro s hs
  refine gains_seq (reads_requireActive h _ s) fun _ _ => ?_
  refine gains_seq (reads_allow _ s) fun _ _ => ?_
  refine gains_seq (reads_resolveAll qubits s) fun ts hts => ?_
  refine gains_seq (reads_angles (d := .free) (fun v _ => v.over_true) s) fun args _ => ?_
  refine gains_seq (reads_context s) fun c hc => ?_
  subst hc
  dsimp only
  cases hforeign : s.ctx.foreign? (ts.map (·.expr)) args with
  | some e => exact .refl _
  | none =>
    have hnone := indices_of_foreign (hs.inGate hin).1 hts hforeign
    show s.ctx.Gains π (((ts.filterMap (·.index)).foldl Context.register s.ctx).emit _)
    rw [hnone]
    exact .emit (hst _ _ _)

/-! ### Programs and definitions -/

section definitions
variable {body : Convert Unit} {name : String} {params : List GateParam}

theorem keeps_withProgram (p : Program) (hm : Keeps σ π m) : Keeps σ π (withProgram p m) := by
  cases σ with
  | finished => exact hm.bracketContext
  | own => exact fun s hs => (hm { s with ctx := s.ctx.enterProgram p } (hs.enterProgram p)).leaveProgram.loud

theorem gains_block (hb : Keeps .own π body) (hs : Shut π s.ctx) : s.ctx.Gains π.silent (block body s).2.ctx := by
  have hin := (hb.bind (f := fun _ => do return (← context).current.innermost) fun _ => .of_eq fun _ => rfl)
    { s with ctx := s.ctx.openBlock } hs.openBlock
  exact hin.closeBlock

/-- A gate definition leaves a gate behind if its body comes to an end, and nothing that was written. -/
theorem gains_defineGate (hb : Keeps .own π body) (hs : s.ctx.build = π.build)
    (ha : π.inGate → s.ctx.active = true)
    (hdef : ∀ u v, Shut π u.ctx → u.ctx.refusal? .unitary = none → u.ctx.captured = [] →
      u.ctx.gates.head? = some ⟨name, params⟩ → body u = (.ok (), v) →
      π.gates ⟨name, GateParam.angles params, GateParam.qubits params, v.ctx.captured⟩) :
    s.ctx.Gains π.silent (defineGate name params body s).2.ctx := by
  let t : State := { s with ctx := s.ctx.enterGate ⟨name, params⟩ }
  have ht : Shut π t.ctx := .enterGate hs ha _
  refine Context.Gains.leaveGate (r := ⟨name, params⟩) (gains_seq (s := t) (reads_allow _ t) fun _ hr => ?_)
  have hblock := gains_block hb ht
  rcases h : block body t with ⟨e | stmts, u⟩
  · rw [bind_of_error h]
    rwa [h] at hblock
  · rw [bind_of_ok h]
    rw [h] at hblock
    obtain ⟨v, hv, rfl⟩ := captured_of_block h
    refine hblock.trans (gains_seq (reads_context u) fun c hc => ?_)
    subst hc
    cases hm : u.ctx.root.hasGate name with
    | true => exact .refl _
    | false =>
      refine .addGate (hdef { t with ctx := t.ctx.openBlock } v ht.openBlock hr ?_ rfl hv) hm
      exact Context.captured_openBlock _

theorem keeps_defineGate (hb : Keeps σ π body) (hdef : σ = .own → ∀ u v, Shut π u.ctx →
      u.ctx.refusal? .unitary = none → u.ctx.captured = [] → u.ctx.gates.head? = some ⟨name, params⟩ →
      body u = (.ok (), v) → π.gates ⟨name, GateParam.angles params, GateParam.qubits params, v.ctx.captured⟩) :
    Keeps σ π (defineGate name params body) := by
  cases σ with
  | own => exact fun s hs => (gains_defineGate hb hs.build (fun hin => (hs.inGate hin).2) (hdef rfl)).loud
  | finished =>
    refine .bracketContext (.given (reads_allow _) fun _ _ _ _ => hb.block.bind fun stmts => ?_)
    refine .given reads_context fun _ c _ _ => ?_
    split <;> exact .of_eq fun _ => rfl

theorem keeps_defineCalibration (gate : String) (qubits angles : List Expr) (hb : Keeps σ π body) :
    Keeps σ π (defineCalibration gate qubits angles body) := by
  cases σ with
  | finished => exact .bracketContext (.given (reads_allow _) fun _ _ _ _ => hb.block.bind fun _ => .of_eq fun _ => rfl)
  | own =>
    intro s hs
    let r : CalibrationRecord := ⟨gate, qubits, angles⟩
    let t : State := { s with ctx := s.ctx.enterCalibration r }
    refine Context.Gains.leaveCalibration (r := r) (gains_seq (s := t) (reads_allow _ t) fun _ _ => ?_)
    have ht : Shut π t.ctx := hs.enterCalibration r
    have hblock := gains_block hb ht
    rcases h : block body t with ⟨e | stmts, u⟩
    · rw [bind_of_error h]
      rw [h] at hblock
      exact hblock.loud
    · rw [bind_of_ok h]
      rw [h] at hblock
      exact hblock.loud

end definitions

/-- A place is a side. In the own context gates are called, as long as one is being defined. -/
def keeping (π : Licence) (again : Runner) : Judgement where
  Place := Side
  Holds σ := fun {_} F => Keeps σ π (F again)
  Works σ := σ = .own → π.inGate ∧ ∀ name args qubits, π.stmts (.gate name args qubits)
  Changes σ := σ = .finished
  At σ c := σ = .own → Shut π c
  exchanged := Side.other
  Starts σ j := σ = .finished ∧ j = .finished
  Defines σ g F := σ = .own → ∀ u v, Shut π u.ctx → u.ctx.refusal? .unitary = none → u.ctx.captured = [] →
    u.ctx.gates.head? = some g → F again u = (.ok (), v) →
    π.gates ⟨g.name, GateParam.angles g.params, GateParam.qubits g.params, v.ctx.captured⟩
  works_settled _ h := h
  changes_of_allowed {σ c} hw hc hallowed := by
    cases σ with
    | own => exact absurd hallowed (refusal_of_gates ((hc rfl).inGate (hw rfl).1).1 (by decide))
    | finished => rfl
  changes_tagged h := h
  defining_open _ h _ _ := ⟨trivial, h⟩
  starts_open _ h := ⟨trivial, h.2⟩
  leaf {σ _ _} hm _ hc := .of_eq fun s => by
    cases σ with
    | own => exact hc.resolve_left nofun s
    | finished => exact (hm s).finished
  bind := .bind
  given {σ _ _ _ _ _} _ hm hG := .given hm fun s a hs ha => hG s a (fun hσ => by cases hσ; exact hs) ha
  applyGate {σ _ _ _ _} hw := by
    cases σ with
    | own => exact keeps_applyGate (hw rfl).1 (hw rfl).2 _ _ _ _
    | finished => exact .of_eq fun _ => (neat_applyGate (p := True)).finished
  register _ h := h.2 ▸ .of_eq fun _ => mild_declareRegister.finished
  tagging _ h := h.mapError
  settling _ h := h.mapError
  block := by
    rintro σ β F G rfl hF hG
    exact hF.block.bind fun sts => hG sts nofun
  turn := by
    rintro σ F rfl hF
    exact hF.block
  box := by
    rintro σ F rfl - hF
    exact .bracketContext (hF.block.mapError.bind fun _ => .of_eq fun _ => rfl)
  program h := keeps_withProgram {} h
  define := by
    rintro σ key stub p c α F rfl - - h
    exact h.bracketContext.bracketContext
  gate _ hdef h := keeps_defineGate h hdef
  calibration _ h := keeps_defineCalibration _ _ _ h
  bindings {σ b _ _} h := fun s hs => by
    cases σ <;> exact h { s with bindings := b } hs
  start {σ config _ _} h := fun s hs => by
    cases σ with
    | own => exact .refl _
    | finished => exact h _ ⟨rfl, rfl⟩ (s.started config) hs
  exchanging {σ _ _} h := fun s hs => by
    cases σ <;> exact h (exchange s) hs

/-! ### Operations -/

/-- In a build the licence allows gates to be called, and to be defined once the body of a routine has come
to its end; a finished context is written nothing to. -/
structure Tolerates (σ : Side) (π : Licence) (lib : Library) (again : Runner) : Prop where
  inGate : σ = .own → π.inGate
  calls : σ = .own → ∀ name args qubits, π.stmts (.gate name args qubits)
  defines : σ = .own → ∀ key r x, lib.Holds key r → r.kind = .gate → CompletesGate again r x → π.gates x
  silent : σ = .finished → ∀ st, ¬ π.stmts st

/-- Bodies are run within the licence. -/
structure Lawful (σ : Side) (π : Licence) (lib : Library) (again : Runner) : Prop
    extends Tolerates σ π lib again where
  body : ∀ b, Keeps σ π (again b)

/-- If the operation opens a gate definition by hand, then what that leaves behind may be added. On a finished
context it is empty, whatever its body does. -/
structure Opens (σ : Side) (π : Licence) (again : Runner) (h : Handle) (action : Action) : Prop where
  own : σ = .own → h = .own → ∀ name params body, action = .gateDef name params body → ∀ u v,
    u.ctx.Permits .unitary → u.ctx.captured = [] → u.ctx.gates.head? = some ⟨name, params⟩ →
    again body u = (.ok (), v) →
    π.gates ⟨name, GateParam.angles params, GateParam.qubits params, v.ctx.captured⟩
  finished : σ = .finished → h = .finished → ∀ name params body, action = .gateDef name params body →
    π.gates ⟨name, GateParam.angles params, GateParam.qubits params, []⟩

section operations
variable {again : Runner} {lib : Library} {f : Nat} {h : Handle} {r : Routine} {key : Nat}

theorem keeps_routineBody (hl : Lawful σ π lib again) (r : Routine) (args : List Value) :
    Keeps σ π (do let _ ← runBody again r args) :=
  ((keeping π again).runBody (i := σ) trivial (hl.body _) args).bind fun _ => .of_eq fun _ => rfl

theorem Tolerates.definition (hl : Tolerates σ π lib again) (hr : lib.Holds key r) (hk : r.kind = .gate)
    {params : List GateParam} (hparams : r.params.mapM (gateParam r) = .ok params) (hσ : σ = .own) {u v : State}
    (hu : Shut π u.ctx) (hallowed : u.ctx.refusal? .unitary = none) (hempty : u.ctx.captured = [])
    (hgates : u.ctx.gates.head? = some ⟨r.name, params⟩)
    (hv : (do let _ ← runBody again r (params.map fun p => .expr p.var.expr) : Convert Unit) u = (.ok (), v)) :
    π.gates ⟨r.name, GateParam.angles params, GateParam.qubits params, v.ctx.captured⟩ := by
  rcases hrun : runBody again r (params.map fun p => .expr p.var.expr) u with ⟨e | x, w⟩
  · rw [bind_of_error hrun] at hv
    cases hv
  · rw [bind_of_ok hrun] at hv
    cases hv
    exact hl.defines hσ key r _ hr hk ⟨params, u, x, v, hparams,
      ⟨(hu.inGate (hl.inGate hσ)).2, hallowed⟩, hempty, hgates, hrun, rfl⟩

theorem gains_defineGateRoutine (hl : Lawful .own π lib again) (hr : lib.Holds key r)
    (hk : r.kind = .gate) (hs : s.ctx.build = π.build) (ha : s.ctx.active = true) :
    s.ctx.Gains π.silent (defineGateRoutine again r s).2.ctx := by
  refine gains_seq (reads_context s) fun c hc => ?_
  dsimp only
  split
  · exact .refl _
  · refine gains_seq (reads_liftDomain _ s) fun params hparams => ?_
    exact gains_defineGate (keeps_routineBody hl r _) hs (fun _ => ha) fun u v => hl.definition hr hk hparams rfl

theorem Lawful.callable (hl : Lawful σ π lib again) (hr : lib.Holds key r) : (keeping π again).Callable h σ key r where
  subroutine _ _ _ _ _ := hl.body _
  gate hk _ _ _ _ hparams := ⟨hl.body _, fun hσ _ _ => hl.definition hr hk hparams hσ⟩
  program _ _ _ _ _ hj := hj.2 ▸ hj.1 ▸ hl.body _

theorem Lawful.works (hl : Lawful σ π lib again) : (keeping π again).Works σ :=
  fun hσ => ⟨hl.inGate hσ, hl.calls hσ⟩

theorem Tolerates.captured (hl : Tolerates .finished π lib again) (hc : c.Gains π c') : c'.captured = c.captured := by
  obtain ⟨sts, new, qs, n, b, rfl, hsts, -⟩ := hc
  cases sts with
  | nil =>
    unfold Context.captured Context.amended Context.written Context.current
    cases hi : c.inner <;> simp [hi, Program.innermost]
  | cons st sts => exact absurd (hsts st (List.mem_cons_self ..)) (hl.silent rfl st)

theorem Lawful.defines_by_hand (hl : Lawful σ π lib again) (b : Bindings) {name : String} {params : List GateParam}
    {body : List Step} (hopens : Opens σ π again h (.gateDef name params body)) :
    (h = .own → (keeping π again).Defines σ ⟨name, params⟩ fun again => withBindings b (again body)) ∧
    (h = .finished → (keeping π again).Defines σ.other ⟨name, params⟩ fun again =>
      exchanging (withBindings b (again body))) := by
  refine ⟨fun hh hσ u v hu hallowed hnone hgates hv => ?_, fun hh hσ u v hu _ hnone _ hv => ?_⟩
  · have hres : (again body { u with bindings := b }).1 = .ok () := congrArg Prod.fst hv
    have hctx : (again body { u with bindings := b }).2.ctx = v.ctx := congrArg (fun p => p.2.ctx) hv
    rw [← hctx]
    exact hopens.own hσ hh name params body rfl { u with bindings := b } _
      ⟨(hu.inGate (hl.inGate hσ)).2, hallowed⟩ hnone hgates (Prod.ext hres rfl)
  · cases σ with
    | own => cases hσ
    | finished =>
      have hother : Keeps .own π (exchanging (withBindings b (again body))) :=
        fun s hs => hl.body body { exchange s with bindings := b } hs
      have hgains := hother u hu
      dsimp only at hv
      rw [hv] at hgains
      have hv : v.ctx.captured = [] := (hl.captured hgains).trans hnone
      rw [hv]
      exact hopens.finished rfl hh name params body rfl

theorem gains_onHandle (hm : ∀ t, (m t).2.finished = t.finished)
    (hside : h.side? = some σ → ∀ t, t.ctx = σ.of s → (σ.of s).Gains π (m t).2.ctx) :
    (σ.of s).Gains π (σ.of (onHandle h (fun _ => m) s).2) := by
  cases h with
  | absent => cases σ <;> exact .refl _
  | own =>
    cases σ with
    | own => exact hside rfl s rfl
    | finished =>
      show s.finished.Gains π (m s).2.finished
      rw [hm]
      exact .refl _
  | finished =>
    cases σ with
    | own =>
      show s.ctx.Gains π (m (exchange s)).2.finished
      rw [hm]
      exact .refl _
    | finished => exact hside rfl (exchange s) rfl

theorem gains_register {n : Int} (hπ : π.methods) : c.Gains π (c.register n) := by
  have heq : c.register n = c.amended [] (insertAscending n c.qubits) c.given c.root.pulse := by
    simp [Context.register, Context.amended]
  rw [heq]
  exact .of_amended (by simp) (fun _ hq => mem_insertAscending.2 (.inr hq)) (.inl hπ)

theorem gains_freshName {t : State} {kind : Kind} (hπ : π.methods) : t.ctx.Gains π (freshName kind t).2.ctx := by
  unfold freshName
  cases nameStem? kind with
  | none => exact .refl _
  | some stem =>
    have heq : t.ctx.giveOut stem = t.ctx.amended [] t.ctx.qubits (t.ctx.giveOut stem).given t.ctx.root.pulse := by
      simp [Context.amended, Context.giveOut]
    show t.ctx.Gains π (t.ctx.giveOut stem)
    rw [heq]
    exact .of_amended (by simp) (List.Subset.refl _) (.inl hπ)

theorem gains_makeProgram {t : State} (hπ : Action.result.meddles t.ctx = true → π.methods) :
    t.ctx.Gains π (makeProgram t).2.ctx := by
  refine gains_seq (reads_context t) fun c hc => ?_
  subst hc
  cases hpulse : t.ctx.pulse with
  | false => exact .refl _
  | true =>
    show t.ctx.Gains π (t.ctx.updateRoot (·.enablePulse))
    cases hroot : t.ctx.root.pulse with
    | false =>
      have hm : π.methods := hπ (by simp [Action.meddles, hpulse, hroot])
      have heq : t.ctx.updateRoot (·.enablePulse) = t.ctx.amended [] t.ctx.qubits t.ctx.given true := by
        simp [Context.updateRoot, Context.amended, Program.enablePulse]
      rw [heq]
      exact .of_amended (by simp) (List.Subset.refl _) (.inl hm)
    | true =>
      have heq : t.ctx.updateRoot (·.enablePulse) = t.ctx := by
        simp [Context.updateRoot, Program.enablePulse, ← hroot]
      rw [heq]
      exact .refl _

section plain

theorem idles_newVar (t : Ty) (init : Option Value) : Idles (newVar h t init) := .classical

theorem idles_truthResult (e : Expr) : Idles (truthResult h e) := .classical

theorem idles_plain {action : Action} (hplain : action.isPlain = true) (hgate : ∀ g os, action ≠ .gate g os) :
    Idles (perform again lib f h action) := by
  have hdone : ∀ {γ : Type} (a : γ), Idles (pure a : Convert γ) := fun _ _ _ => rfl
  have hthrow : ∀ {γ : Type} (e : Stop), Idles (throw e : Convert γ) := fun _ _ _ => rfl
  cases action with
  | branch | unroll | loopOver | whileLoop | call | build | verbatim | nextName | registerQubit | draft | result
  | inProgram | gateDef | calibrationDef | validateTargets | nestedBuild => cases hplain
  | gate g os => exact absurd rfl (hgate g os)
  | measure qubits => exact .seq (reads_values qubits) fun _ => Idles.classical.report
  | reset q => exact .seq (reads_value q) fun _ => Idles.classical.report
  | barrier qubits => exact .seq (reads_values qubits) fun _ => Idles.classical.report
  | compare o l r =>
    refine .seq (reads_value l) fun a => .seq (reads_value r) fun b => .report ?_
    unfold compare
    split
    · exact .seq (reads_expression a) fun _ => .seq (reads_expression b) fun _ => idles_truthResult _
    · split
      · exact hdone _
      · exact hthrow _
  | logical o l r =>
    refine .seq (reads_value l) fun a => .seq (reads_value r) fun b => .report ?_
    unfold logical
    split
    · exact hdone _
    · refine .seq (reads_conditionExpr (d := .free) a.over_true) fun _ => ?_
      exact .seq (reads_conditionExpr (d := .free) b.over_true) fun _ => idles_truthResult _
  | not x =>
    refine .seq (reads_value x) fun a => .report ?_
    unfold negate
    split
    · exact hdone _
    · exact .seq (reads_conditionExpr (d := .free) a.over_true) fun _ => idles_truthResult _
  | arithmetic op l r =>
    refine .seq (reads_value l) fun a => .seq (reads_value r) fun b => .report ?_
    unfold arithmetic
    split
    · refine .seq (reads_expression a) fun _ => .seq (reads_expression b) fun _ => ?_
      split
      · exact hdone _
      · exact hthrow _
    · split
      · exact hdone _
      · exact hthrow _
  | newVar kind init => exact .seq (reads_value init) fun _ => (idles_newVar _ _).report
  | newArray elem dims init =>
    refine .seq (reads_value init) fun v => .report ?_
    unfold newArray
    split
    · exact idles_newVar _ _
    · refine .seq (reads_liftFault _) fun z => ?_
      split
      · exact idles_newVar _ _
      · exact idles_newVar _ _
      · exact (idles_newVar _ _).bind fun _ => hthrow _
  | assign name v =>
    refine .seq (reads_value v) fun v => .report ?_
    cases v with
    | expr e => exact .classical
    | _ => exact hdone _
  | name v => exact .seq (reads_value v) fun _ => hdone _
  | leaveLoop | nextTurn => exact Idles.classical.report
  | leaveRoutine v => exact .seq (reads_value v) fun _ => Idles.classical.report
  | play frame waveform => exact Idles.pulse.report
  | frameCall op frame arg => exact .seq (reads_value arg) fun _ => Idles.pulse.report
  | delay ns targets => exact .seq (reads_values targets) fun _ => Idles.pulse.report
  | fail message => exact hthrow _
  | isActive => exact .seq (reads_isActive h) fun _ => hdone _
  | «stacks» | qubits | isVarUsed | declaredQubits | config | buildId | returned =>
    cases h <;> exact fun _ _ => rfl

end plain

theorem keeps_plain (hl : Lawful σ π lib again) {action : Action} (hplain : action.isPlain = true) :
    Keeps σ π (perform again lib f h action) := by
  cases σ with
  | finished => exact (keeping π again).plain (i := .finished) trivial rfl nofun hplain
  | own =>
    by_cases hgate : ∃ g os, action = .gate g os
    · obtain ⟨g, os, rfl⟩ := hgate
      refine .given (reads_values os) fun _ vs _ _ => .bind ?_ fun _ => .of_eq fun _ => rfl
      exact keeps_applyGate (hl.inGate rfl) (hl.calls rfl) h g.name _ _
    · exact .of_idles (hl.inGate rfl) (idles_plain hplain fun g os hg => hgate ⟨g, os, hg⟩)

theorem keeps_perform (hl : Lawful σ π lib again) {action : Action} (hmethod : ∀ c, action.meddles c = false)
    (hopens : Opens σ π again h action) : Keeps σ π (perform again lib f h action) := by
  have hwithin : ∀ b, (keeping π again).Holds ((keeping π again).within (fun i => i) σ h) (· b) := fun b => by
    cases h <;> cases σ <;> exact hl.body b
  refine (keeping π again).perform (i := σ) hl.works ?_
  cases action with
  | call => exact ⟨trivial, fun _ _ hr => hl.callable hr⟩
  | build => exact ⟨trivial, fun _ _ _ _ hj => hj.2 ▸ hj.1 ▸ hl.body _⟩
  | branch => exact ⟨trivial, hl.body _, fun _ _ => hl.body _⟩
  | unroll | loopOver | verbatim => exact ⟨trivial, hl.body _⟩
  | whileLoop cond test body =>
    refine .bind ((keeping π again).whileLoop (i := σ) hl.works trivial (hl.body _) (hl.body _) (hl.body _) ?_)
      fun _ => .of_eq fun _ => rfl
    exact .of_eq fun _ => rfl
  | inProgram | calibrationDef => exact hwithin _
  | gateDef => exact ⟨hwithin _, fun b => hl.defines_by_hand b hopens⟩
  | nestedBuild => exact ⟨hl.body _, fun _ _ _ _ hj => hj.2 ▸ hj.1 ▸ hl.body _⟩
  | draft | validateTargets => trivial
  | registerQubit | nextName => cases hmethod .finished
  | result => cases hmethod { pulse := true }
  | _ => exact keeps_plain hl rfl

theorem state_bind_eq {k : α → Convert β} (hk : ∀ a t, (k a t).2 = t) : ((m >>= k) s).2 = (m s).2 := by
  rcases h : m s with ⟨e | a, t⟩
  · rw [bind_of_error h]
  · rw [bind_of_ok h, hk]

/-- However an operation ends, and whatever its bodies do, the context has gained only what is allowed. -/
theorem gains_perform (hl : Lawful σ π lib again) {action : Action} (hs : Shut π (σ.of s))
    (hmethod : h.side? = some σ → action.meddles (σ.of s) = true → π.methods)
    (hopens : Opens σ π again h action) :
    (σ.of s).Gains π (σ.of (perform again lib f h action s).2) := by
  cases action with
  | registerQubit n =>
    refine gains_onHandle (fun _ => rfl) fun hside t ht => ?_
    rw [← ht]
    exact gains_register (hmethod hside rfl)
  | nextName kind =>
    have hname : (σ.of s).Gains π (σ.of (nextName h kind s).2) := by
      unfold nextName
      split
      · cases σ <;> exact .refl _
      · refine gains_onHandle (fun _ => (neat_freshName (p := True) kind).finished) fun hside t ht => ?_
        rw [← ht]
        exact gains_freshName (hmethod hside rfl)
    show (σ.of s).Gains π (σ.of ((nextName h kind >>= fun n => pure (Report.text n)) s).2)
    rwa [state_bind_eq fun _ _ => rfl]
  | result =>
    refine gains_onHandle (fun t => ?_) fun hside t ht => ?_
    · rw [state_bind_eq fun _ _ => rfl]
      exact (Mild.of_goes (d := .free) goes_makeProgram).finished
    · rw [state_bind_eq fun _ _ => rfl, ← ht]
      rw [← ht] at hmethod
      exact gains_makeProgram (hmethod hside)
  | _ => exact keeps_perform hl (fun _ => rfl) hopens s hs

end operations

/-! ### Runs -/

section runs
variable {lib : Library} {M : Option Step → State → Prop} {e : Stop}

/-- Where a step is carried out that changes the context whatever is allowed there, the licence allows it. -/
structure Minds (σ : Side) (π : Licence) (lib : Library) (M : Option Step → State → Prop) (e : Stop) : Prop where
  methods : ∀ st t, M (some st) t → st.handle.side? = some σ → (σ.of t).build = π.build →
    st.action.meddles (σ.of t) = true → π.methods
  opens : ∀ st t fuel, M (some st) t → Opens σ π (observed (insist M e) lib fuel) st.handle st.action

theorem side_concluded (word : String) (target : Option String) (guarded : Bool) (r : Except Stop Report)
    (t : State) : σ.of (concluded word target guarded r t).2 = σ.of t := by
  rcases r with (_ | _ | _ | _) | report
  · cases σ <;> rfl
  · rfl
  · rfl
  · rfl
  · cases report with
    | value v => cases target <;> cases σ <;> rfl
    | _ => cases σ <;> rfl

/-- A run that insists on the licence keeps to it, however deep its bodies nest. -/
theorem lawful_observed (hM : Minds σ π lib M e)
    (htol : ∀ fuel, Tolerates σ π lib (observed (insist M e) lib fuel)) (fuel : Nat) :
    Lawful σ π lib (observed (insist M e) lib fuel) := by
  refine ⟨htol fuel, fun steps => ?_⟩
  have hlook : ∀ o, Keeps σ π (insist M e o) := by
    refine fun o => .of_eq fun t => ?_
    rcases insist_apply M e o t with h | ⟨x, -, h⟩ <;> rw [h]
  induction fuel generalizing steps with
  | zero => exact .of_eq fun _ => rfl
  | succ fuel ih =>
    refine Keeps.bind (.forM fun st => ?_) fun _ => hlook none
    intro s hs
    rcases hst : insist M e (some st) s with ⟨x | _, t⟩
    · rw [bind_of_error hst]
      have h := hlook (some st) s hs
      rwa [hst] at h
    · rw [bind_of_ok hst]
      -- the step is carried out where `M` holds
      obtain ⟨hmind, rfl⟩ : M (some st) s ∧ t = s := by
        unfold insist at hst
        split at hst
        · cases hst
          exact ⟨‹_›, rfl⟩
        · cases hst
      obtain ⟨action, target, guarded, h⟩ := st
      rw [step_apply, side_concluded]
      exact gains_perform ⟨htol fuel, ih⟩ hs (fun hside => hM.methods _ _ hmind hside hs.build)
        (hM.opens _ _ fuel hmind)

end runs

end QasmStudio.Convert

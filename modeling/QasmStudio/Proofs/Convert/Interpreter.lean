import QasmStudio.Proofs.Convert.Bodies

/-!
# Runs and their moments

`observed watch lib` runs bodies as `run lib` does and has `watch` look at the state before every step
of every body, however deep, and at the end of every body. A property holds `Throughout` a run if
nobody who looks at states without that property alone can change the run.

Main result: a run in which every step obeys a discipline changes its context as `Writes` says, on
every exit, and an observer of the contexts that such a run can pass changes nothing
(`runs_observed`). If the steps are known to obey because something holds throughout the run, then it
takes someone who insists on that (`runs_insist`).
-/

namespace QasmStudio

open Discipline List

variable {r : Routine} {t : State} {id : String} {π : Policy} {lib : Library} {key : Nat}

/-! ### What the steps of a body name and address -/

namespace Action

/-- The operands that may end up in the program. -/
def operands : Action → List Operand
  | .gate _ os | .measure os | .barrier os | .call _ os | .delay _ os => os
  | .reset o | .not o | .newVar _ o | .newArray _ _ o | .assign _ o | .name o | .branch o _ _
  | .unroll _ o _ | .whileLoop _ o _ | .leaveRoutine o | .frameCall _ _ o => [o]
  | .compare _ l r | .logical _ l r | .arithmetic _ l r => [l, r]
  | .loopOver _ start stop none _ => [start, stop]
  | .loopOver _ start stop (some step) _ => [start, stop, step]
  | _ => []

/-- The operands that stand for qubits. -/
def wires (lib : Library) : Action → List Operand
  | .gate g os => os.take g.qubits
  | .measure os | .barrier os | .delay _ os => os
  | .reset o => [o]
  | .call id os => match lib.find? id with
    | some (_, r) => ((r.params.zip os).filter fun x => Convert.Param.isQubit x.1).map (·.2)
    | none => []
  | _ => []

def names : Action → List String
  | .assign target _ => [target]
  | .gateDef _ params _ => params.map (·.name)
  | _ => []

def initials : Action → List Operand
  | .newVar _ o | .newArray _ _ o | .assign _ o => [o]
  | _ => []

def bodies : Action → List (List Step)
  | .branch _ thn els => thn.getD [] :: els.toList
  | .whileLoop cond _ body => [cond, body]
  | .unroll _ _ body | .loopOver _ _ _ _ body | .verbatim body | .inProgram body | .gateDef _ _ body
  | .calibrationDef _ _ _ body | .nestedBuild _ body => [body]
  | _ => []

/-- A program or a gate definition is opened by hand. -/
def IsByHand : Action → Prop
  | .inProgram _ | .gateDef .. => True
  | _ => False

/-- The operation runs nothing else, and changes a context only as far as it is allowed to. -/
def isPlain : Action → Bool
  | .gate .. | .measure _ | .reset _ | .barrier _ | .compare .. | .logical .. | .not _ | .arithmetic ..
  | .newVar .. | .newArray .. | .assign .. | .name _ | .leaveLoop | .nextTurn | .leaveRoutine _ | .play ..
  | .frameCall .. | .delay .. | .fail _ | .isActive | .stacks | .qubits | .isVarUsed _ | .declaredQubits
  | .config _ | .buildId | .returned => true
  | _ => false

/-- The register indices that the operation uses by number. -/
def indices : Action → List Int
  | .registerQubit n => [n]
  | _ => []

/-- The operation names and addresses what the discipline allows, among the bindings `b`. -/
structure Obeys (d : Discipline) (lib : Library) (b : Bindings) (a : Action) : Prop where
  operands : ∀ o ∈ a.operands, o.Keeps d.name
  wires : ∀ o ∈ a.wires lib, ∀ v, o.eval b = .ok v → d.wire v
  names : ∀ n ∈ a.names, d.name n
  indices : ∀ i ∈ a.indices, d.index i
  initials : ∀ o ∈ a.initials, ∀ v e, o.eval b = .ok v → v.toExpr = .ok e → d.Grants e
  byHand : a.IsByHand → d.policy.byHand

/-- The gates that the action applies or defines by hand, and the jumps that it writes at `t`, are such as
the policy allows. -/
def Within (π : Policy) (t : State) : Action → Prop
  | .gate g _ => π.native g.name
  | .gateDef n _ _ => ∀ x : GateDef, x.name = n → π.definesGate x
  | .leaveLoop => π.stray .break
  | .nextTurn => π.stray .continue
  | .leaveRoutine o => ∀ v, o.eval t.bindings = .ok v → t.ctx.Permits .classical →
      ∀ e, (e = none ↔ v = .none) → π.stray (.return e) ∨ t.ctx.Yields e
  | _ => True

theorem Within.of_forall {action : Action} (hn : ∀ name, π.native name := by intros; trivial)
    (hd : ∀ x, π.definesGate x := by intros; trivial) (hs : ∀ st, π.stray st := by intros; trivial) :
    action.Within π t := by
  cases action with
  | gate g os => exact hn g.name
  | gateDef n params body => exact fun x _ => hd x
  | leaveLoop | nextTurn => exact hs _
  | leaveRoutine o => exact fun _ _ _ _ _ => .inl (hs _)
  | _ => trivial

/-- The names that the script gives to variables with this operation: that of a variable it assigns to, if it is
not there yet, and those of the parameters of a subroutine it calls. -/
def choices (lib : Library) (c : Context) : Action → List String
  | .assign target _ => if (c.current.lookup? target).isNone then [target] else []
  | .call id _ => ((lib.find? id).filter fun x => x.2.kind ≠ .gate).toList.flatMap fun x => x.2.params.map (·.name)
  | _ => []

theorem mem_choices_assign {c : Context} {target : String} (o : Operand)
    (h : c.current.lookup? target = none) : target ∈ (Action.assign target o).choices lib c := by
  simp [choices, h]

theorem mem_choices_call (c : Context) (os : List Operand)
    {p : Param} (hr : lib.find? id = some (key, r)) (hk : r.kind ≠ .gate) (hp : p ∈ r.params) :
    p.name ∈ (Action.call id os).choices lib c := by
  simp only [choices, hr, Option.filter_some, hk, ne_eq, not_false_eq_true, decide_true, if_true,
    Option.toList_some, flatMap_singleton]
  exact mem_map_of_mem hp

end Action

def Step.action : Step → Action
  | .mk action _ _ _ => action

def Step.handle : Step → Convert.Handle
  | .mk _ _ _ h => h

/-- The routine stands in the library under that number. -/
def Library.Holds (lib : Library) (key : Nat) (r : Routine) : Prop :=
  ∃ id, lib.routines[key]? = some (id, r)

namespace Library
variable {q : Routine}

theorem holds_of_find? (h : lib.find? id = some (key, r)) : lib.Holds key r := by
  have hgo : ∀ (rs : List (String × Routine)) (i : Nat), find?.go id i rs = some (key, r) →
      ∃ j, key = i + j ∧ ∃ name, rs[j]? = some (name, r) := by
    intro rs
    induction rs with
    | nil => intro i h; cases h
    | cons x rs ih =>
      intro i h
      unfold find?.go at h
      split at h
      · cases h
        exact ⟨0, rfl, x.1, rfl⟩
      · obtain ⟨j, hj, name, hname⟩ := ih (i + 1) h
        exact ⟨j + 1, by omega, name, hname⟩
  obtain ⟨j, hj, name, hname⟩ := hgo lib.routines 0 h
  rw [Nat.zero_add] at hj
  exact ⟨name, hj ▸ hname⟩

theorem Holds.unique (hq : lib.Holds key q) (hr : lib.Holds key r) : q = r := by
  obtain ⟨_, hq⟩ := hq
  obtain ⟨_, hr⟩ := hr
  cases hq.symm.trans hr
  rfl

theorem Holds.lt (h : lib.Holds key r) : key < lib.routines.length := by
  obtain ⟨_, h⟩ := h
  exact (List.getElem?_eq_some_iff.1 h).1

end Library

def Library.Obeys (d : Discipline) (lib : Library) : Prop := ∀ x ∈ lib.routines, x.2.Obeys d

theorem Library.Obeys.find {d : Discipline} (h : lib.Obeys d) (hf : lib.find? id = some (key, r)) : r.Obeys d := by
  obtain ⟨name, hr⟩ := Library.holds_of_find? hf
  exact h _ (mem_of_getElem? hr)

def Library.Within (π : Policy) (lib : Library) : Prop :=
  ∀ id key r, lib.find? id = some (key, r) → π.routine key r

/-- The policy allows the subroutines that its routines define, given that `M` holds where their bodies start. -/
abbrev Policy.Covers (π : Policy) (lib : Library) (M : Option Step → State → Prop) : Prop :=
  ∀ fuel key r x s, π.routine key r → r.kind ≠ .gate → M r.body.head? (s.bound r r.formals) →
    Convert.CompletesAt (Convert.run lib fuel) r x s → π.defines s.ctx.build x

abbrev Policy.CoversGates (π : Policy) (lib : Library) : Prop := ∀ fuel key r x,
  π.routine key r → r.kind = .gate → Convert.CompletesGate (Convert.run lib fuel) r x → π.definesGate x

def Report.Over (N : String → Prop) : Report → Prop
  | .value v => v.Over N
  | _ => True

namespace Convert

variable {α : Type} {d : Discipline} {A B : Context → Prop} {s : State} {fuel : Nat} {action : Action}
  {args : List Value} {config : BuildConfig} {p : BuiltProgram} {e : Stop}
  {M : Option Step → State → Prop} {m : Runner → Convert α} {w : Option Step → Convert Unit}
  {N : String → Prop} {f : α → Report} {P : α → Prop}

/-! ### Reading operands -/

theorem reads_value (o : Operand) (s : State) : Reads (value o) s (fun v => o.eval s.bindings = .ok v) :=
  (reads_get s).seq fun t ht => by
    subst ht
    exact reads_liftOperand _ _

theorem reads_values (os : List Operand) (s : State) :
    Reads (values os) s (fun vs => Operand.evals s.bindings os = .ok vs) :=
  (reads_get s).seq fun t ht => by
    subst ht
    exact reads_liftOperand _ _

theorem reads_exprs (os : List Operand) (s : State) : Reads (exprs os) s (fun _ => True) :=
  (reads_get s).seq fun _ _ => (reads_liftOperand _ _).mono fun _ _ => trivial

theorem reads_inspect {h : Handle} {f : Context → Report} (hctx : (f s.ctx).Over N) (hfin : (f s.finished).Over N) :
    Reads (inspect h f) s (fun r => r.Over N) := by
  cases h with
  | own =>
    refine (reads_context s).seq fun c hc => .pure ?_
    subst hc
    exact hctx
  | finished =>
    refine (reads_get s).seq fun t ht => .pure ?_
    subst ht
    exact hfin
  | absent => exact .fault

theorem reads_routine (id : String) (s : State) : Reads (routine lib id) s (fun x => lib.find? id = some x) := by
  unfold routine
  split
  · exact .pure ‹_›
  · exact .fault

/-! ### Operations -/

theorem Goes.report {m : Convert α} (h : Goes d m s fun a _ => P a)
    (hf : ∀ a, P a → (f a).Over d.name) : Goes d (m >>= fun a => Pure.pure (f a)) s (fun r _ => r.Over d.name) :=
  h.bind fun a _ _ hP => .pure (hf a hP)

theorem Follows.plain {m : Convert Report} (h : Goes d m s fun r _ => r.Over d.name) (hs : s.Over d) :
    Follows d A B s.ctx (Writes d s.ctx) m m s (fun r _ => r.Over d.name) := by
  refine (Follows.of_goes h hs fun _ hc => hc).mono (fun _ hc => hc) fun r t ht => ?_
  obtain ⟨c, -, -, hr⟩ := ht
  exact hr

theorem Follows.reported {m m' : Convert α}
    (h : Follows d A B s.ctx (Writes d s.ctx) m m' s fun a _ => P a) (hf : ∀ a, P a → (f a).Over d.name) :
    Follows d A B s.ctx (Writes d s.ctx) (m >>= fun a => Pure.pure (f a))
      (m' >>= fun a => Pure.pure (f a)) s (fun r _ => r.Over d.name) :=
  h.bind (fun _ hc => hc) fun a _ ht hw hP => .pure ht hw (hf a hP)

theorem Faithful.report {m m' : Convert α}
    (h : Faithful d A B m m' P) (hs : s.Over d) (hf : ∀ a, P a → (f a).Over d.name) :
    Follows d A B s.ctx (Writes d s.ctx) (m >>= fun a => Pure.pure (f a))
      (m' >>= fun a => Pure.pure (f a)) s (fun r _ => r.Over d.name) :=
  (h s hs).reported hf

theorem over_bindParams {b : Bindings} (hb : b.Over d.name) {params : List GateParam}
    (hp : ∀ p ∈ params, d.name p.name) : (bindParams b params).Over d.name := by
  induction params generalizing b with
  | nil => exact hb
  | cons p ps ih =>
    refine ih (hb.bind _ ?_) fun q hq => hp q (mem_cons_of_mem _ hq)
    have hname := hp p (mem_cons_self ..)
    cases p <;> exact hname

theorem reads_draftOf {main : Bool} {mode : Mode} (s : State) :
    Reads (draftOf main mode) s (fun r => r.Over N) := by
  refine (reads_allow mode s).seq fun _ _ => (reads_context s).seq fun c _ => ?_
  dsimp only
  generalize (if main = true then c.root else c.current) = p
  split
  · exact (reads_liftFault (.error .missingPart) s).seq fun _ h => by cases h
  · exact .pure trivial

theorem faithful_bindName {name : Option String} {v : Value} (hv : v.Over d.name) :
    Faithful d A B (bindName name v) (bindName name v) fun _ => True := by
  intro s hs
  cases name with
  | none => exact .pure hs .refl trivial
  | some n =>
    have hover : State.Over d { s with bindings := s.bindings.bind n v } :=
      ⟨hs.bindings.bind n hv, hs.ctx, hs.finished⟩
    exact .of_apply (modify_apply _ s) (fun _ => ⟨.refl, .refl, hover⟩) (fun _ _ => trivial) fun _ _ _ => rfl

/-- What a step makes of the end of its operation. -/
def concluded (word : String) (target : Option String) (guarded : Bool) :
    Except Stop Report → State → Except Stop Unit × State
  | .ok (.value v), s => bindName target v (note word (.ok (.value v)) s)
  | .ok report, s => (.ok (), note word (.ok report) s)
  | .error (.error e), s => (if guarded then .ok () else .error (.error e), note word (.error e) s)
  | .error stop, s => (.error stop, s)

theorem step_apply (again : Runner) (fuel : Nat) (action : Action) (target : Option String)
    (guarded : Bool) (h : Handle) (s : State) :
    step again lib fuel (.mk action target guarded h) s = concluded action.word target guarded
      (perform again lib fuel h action s).1 (perform again lib fuel h action s).2 := by
  unfold step
  dsimp only
  rcases perform again lib fuel h action s with ⟨(_ | _ | _ | _) | r, t⟩
  · rfl
  · rfl
  · rfl
  · rfl
  · cases r <;> rfl

/-- After its operation a step only notes what happened and binds the result. -/
theorem concluded_state {w : String} {n : Option String} {g : Bool} {r : Except Stop Report}
    (ht : t.Over d) (hr : ∀ report, r = .ok report → report.Over d.name) :
    (concluded w n g r t).2.ctx = t.ctx ∧ (concluded w n g r t).2.finished = t.finished ∧
      (concluded w n g r t).2.Over d := by
  have hnote : ∀ outcome, (note w outcome t).Over d := fun _ => ⟨ht.bindings, ht.ctx, ht.finished⟩
  rcases r with (e | f | e | _) | report
  · exact ⟨rfl, rfl, hnote _⟩
  · exact ⟨rfl, rfl, ht⟩
  · exact ⟨rfl, rfl, ht⟩
  · exact ⟨rfl, rfl, ht⟩
  · have hover := hr report rfl
    cases report with
    | value v =>
      cases n with
      | none => exact ⟨rfl, rfl, hnote _⟩
      | some name => exact ⟨rfl, rfl, (hnote _).bindings.bind name hover, ht.ctx, ht.finished⟩
    | _ => exact ⟨rfl, rfl, hnote _⟩

theorem excused_concluded {w : String} {n : Option String} {g : Bool}
    {r : Except Stop Report} (hr : π.Excused r) : π.Excused (concluded w n g r t).1 := by
  obtain ⟨e, rfl, he⟩ := hr
  cases e with
  | error e => exact absurd he (π.caught e)
  | _ => exact ⟨_, rfl, he⟩

section perform
variable {again again' : Runner} {f f' : Nat} {h : Handle} {os : List Operand} {vs : List Value}

theorem wires_of_evals (hv : Operand.evals s.bindings os = .ok vs) (hs : s.Over d) (ho : ∀ o ∈ os, o.Keeps d.name)
    (hq : ∀ o ∈ os, ∀ v, o.eval s.bindings = .ok v → d.wire v) : ∀ v ∈ vs, d.Qubit v := by
  intro v hmem
  obtain ⟨o, hos, hov⟩ := exists_of_forall₂ (Operand.evals_forall₂ hv) v hmem
  exact ⟨ho o hos hs.bindings hov, hq o hos v hov⟩

theorem over_initial {v u : Value} (hv : v.Over N) (h : initial? v = some u) : u.Over N := by
  unfold initial? at h
  split at h
  · cases h
  · cases h
    exact hv

theorem mem_zip_of_forall₂ {ι σ τ : Type} {R : σ → τ → Prop} {ps : List ι} {as : List σ} {bs : List τ}
    (h : Forall₂ R as bs) {p : ι} {b : τ} (hb : (p, b) ∈ ps.zip bs) :
    ∃ a, (p, a) ∈ ps.zip as ∧ R a b := by
  induction h generalizing ps with
  | nil => simp at hb
  | cons hr _ ih =>
    cases ps with
    | nil => simp at hb
    | cons q ps =>
      rw [zip_cons_cons] at hb
      rcases mem_cons.1 hb with heq | hb
      · cases heq
        exact ⟨_, mem_cons_self .., hr⟩
      · obtain ⟨a, ha, hab⟩ := ih hb
        exact ⟨a, mem_cons_of_mem _ ha, hab⟩

theorem fits_of_evals
    (hr : lib.find? id = some (key, r)) (ha : (Action.call id os).Obeys d lib s.bindings) (hs : s.Over d)
    (hv : Operand.evals s.bindings os = .ok vs) : Fits d r.params vs := by
  refine ⟨Operand.over_evals hs.bindings ha.operands hv, fun x hx hq => ?_⟩
  obtain ⟨o, ho, hov⟩ := mem_zip_of_forall₂ (Operand.evals_forall₂ hv) hx
  refine ha.wires o ?_ _ hov
  simp only [Action.wires, hr, mem_map, mem_filter]
  exact ⟨(x.1, o), ⟨ho, hq⟩, rfl⟩

theorem wire_of_evals {g : NativeGate}
    (ha : (Action.gate g os).Obeys d lib s.bindings) (hv : Operand.evals s.bindings os = .ok vs) :
    ∀ i < g.qubits, d.wire (vs.getD i .none) := by
  intro i hi
  rw [getD_eq_getElem?_getD]
  cases hvi : vs[i]? with
  | none => exact d.nothing
  | some v =>
    have hmem : v ∈ vs.take g.qubits := by
      refine mem_of_getElem? (i := i) ?_
      rw [getElem?_take_of_lt hi, hvi]
    obtain ⟨o, ho, hov⟩ := exists_of_forall₂ (forall₂_take g.qubits (Operand.evals_forall₂ hv)) v hmem
    exact ha.wires o ho v hov

theorem goes_plain (hplain : action.isPlain = true) (ha : action.Obeys d lib s.bindings)
    (hn : s.Counts d) (hg : action.Within d.policy s)
    (hc : ∀ name ∈ action.choices lib s.ctx, d.policy.chosen s.ctx.nextVar name) (hs : s.Over d) :
    Goes d (perform again lib f h action) s (fun r _ => r.Over d.name) := by
  have hone : ∀ {o : Operand} {v : Value}, o ∈ action.operands → o.eval s.bindings = .ok v →
      v.Over d.name := fun ho hv => ha.operands _ ho hs.bindings hv
  cases action with
  | gate g os =>
    refine .seq (reads_values os s) fun vs hvs => ?_
    exact .report (goes_applyNative hg (Operand.over_evals hs.bindings ha.operands hvs)
      (wire_of_evals ha hvs)) fun _ _ => trivial
  | measure os =>
    refine .seq (reads_values os s) fun vs hvs => ?_
    have hm := goes_measure (h := h) hn.1 (wires_of_evals hvs hs ha.operands ha.wires)
    refine .report (hm.mono fun v _ hv => ?_) fun _ hv => hv
    obtain ⟨⟨stem, n, hname⟩, -⟩ := hv
    exact show d.name v.name from hname ▸ d.generated stem n
  | reset o =>
    refine .seq (reads_value o s) fun v hv => ?_
    exact .report (goes_reset ⟨hone mem_cons_self hv,
      ha.wires o mem_cons_self v hv⟩) fun _ _ => trivial
  | barrier os =>
    refine .seq (reads_values os s) fun vs hvs => ?_
    exact .report (goes_barrier (wires_of_evals hvs hs ha.operands ha.wires)) fun _ _ => trivial
  | compare c l r =>
    refine .seq (reads_value l s) fun a hl => .seq (reads_value r s) fun b hr => ?_
    exact .report (goes_compare hn.1 (hone mem_cons_self hl) (hone (mem_cons_of_mem _ mem_cons_self) hr))
      fun _ hv => hv
  | logical c l r =>
    refine .seq (reads_value l s) fun a hl => .seq (reads_value r s) fun b hr => ?_
    exact .report (goes_logical hn.1 (hone mem_cons_self hl) (hone (mem_cons_of_mem _ mem_cons_self) hr))
      fun _ hv => hv
  | not o =>
    refine .seq (reads_value o s) fun v hv => ?_
    exact .report (goes_negate hn.1 (hone mem_cons_self hv)) fun _ hv => hv
  | arithmetic op l r =>
    refine .seq (reads_value l s) fun a hl => .seq (reads_value r s) fun b hr => ?_
    exact .report (goes_arithmetic (hone mem_cons_self hl)
      (hone (mem_cons_of_mem _ mem_cons_self) hr)) fun _ hv => hv
  | newVar kind init =>
    refine .seq (reads_value init s) fun v hv => ?_
    refine .report ((goes_newVar hn.1 fun u hu => ?_).mono fun _ _ hv => hv.1) fun _ hv => hv
    cases eq_of_initial hu
    exact ⟨hone mem_cons_self hv, fun e => ha.initials init mem_cons_self v e hv⟩
  | newArray elem dims init =>
    refine .seq (reads_value init s) fun v hv => ?_
    refine .report (goes_newArray hn.1 ⟨hone mem_cons_self hv, fun e => ?_⟩) fun _ hv => hv
    exact ha.initials init mem_cons_self v e hv
  | assign target o =>
    refine .seq (reads_value o s) fun v hv => ?_
    have hchosen := fun hnew => hc target (Action.mem_choices_assign o hnew)
    refine .report (goes_assign (ha.names target mem_cons_self) hchosen
      ⟨hone mem_cons_self hv, fun e => ?_⟩) fun _ hv => hv
    exact ha.initials o mem_cons_self v e hv
  | name o =>
    refine .seq (reads_value o s) fun v hv => ?_
    exact .pure (hone mem_cons_self hv)
  | leaveLoop => exact .report (goes_leaveLoop hg) fun _ _ => trivial
  | nextTurn => exact .report (goes_nextTurn hg) fun _ _ => trivial
  | leaveRoutine o =>
    refine .seq (reads_value o s) fun v hv => ?_
    exact .report (goes_leaveRoutine (hone mem_cons_self hv) (hg v hv)) fun _ _ => trivial
  | play frame waveform => exact .report goes_play fun _ _ => trivial
  | frameCall op frame arg =>
    refine .seq (reads_value arg s) fun v hv => ?_
    exact .report (goes_frameCall (hone mem_cons_self hv)) fun _ _ => trivial
  | delay ns os =>
    refine .seq (reads_values os s) fun vs hvs => ?_
    exact .report (goes_delay (wires_of_evals hvs hs ha.operands ha.wires)) fun _ _ => trivial
  | fail message => exact .raise ⟨rfl, .inr rfl⟩
  | isActive => exact .seq (reads_isActive h s) fun _ _ => .pure trivial
  | «stacks» | qubits | isVarUsed | declaredQubits | config | buildId =>
    exact .of_reads (reads_inspect trivial trivial) fun _ hr => hr
  | returned =>
    refine .of_reads (reads_inspect ?_ ?_) fun _ hr => hr
    · cases hret : s.ctx.returned with
      | none => trivial
      | some v => exact hs.ctx v hret
    · cases hret : s.finished.returned with
      | none => trivial
      | some v => exact hs.finished v hret
  | _ => cases hplain

/-- If the operation calls a routine and fails, then it may. -/
def FailsOnly (π : Policy) (lib : Library) (action : Action) (r : Except Stop Report) : Prop :=
  ∀ id os key q e, action = .call id os → lib.find? id = some (key, q) → r = .error (.error e) →
    π.fails q.name

/-- What is only known of a success, or where the policy lets an error pass, is known of every exit. -/
theorem Follows.mended {m m' : Convert α} {o : Context} {E F : Context → Prop} {Q : α → State → Prop}
    (h : Follows d A B o E m m' s fun a t => Q a t ∧ F t.ctx)
    (hF : ∀ c, E c → (∃ e, (m s).1 = .error (.error e)) ∨ (∀ name, d.policy.fails name) → F c) :
    Follows d A B o F m m' s Q := by
  obtain ⟨r, t, hm, hreach, hres, hsame⟩ := h.apply
  rw [hm] at hF
  refine .of_apply hm (fun hn => ?_) (fun a ha => (hres a ha).1) hsame
  have hr := hreach hn
  refine ⟨?_, hr.finished, hr.names⟩
  rcases r with e | a
  · by_cases hcatch : ∃ x, e = .error x
    · obtain ⟨x, rfl⟩ := hcatch
      exact hF _ hr.ctx (.inl ⟨x, rfl⟩)
    · rcases d.policy.lost with hall | hlost
      · exact hF _ hr.ctx (.inr hall)
      · exact absurd ⟨e, rfl, hlost e fun x hx => hcatch ⟨x, hx⟩⟩ hn
  · exact (hres a rfl).2

theorem follows_operation (hA : ∀ n config id, Quiet d A (Context.start n config id))
    (hlib : lib.Obeys d) (hcalls : lib.Within d.policy) (hrun : Runs d A B again again')
    (hf : Turns d f f') (ha : action.Obeys d lib s.bindings) (hn : s.Counts d)
    (hfails : FailsOnly d.policy lib action (perform again lib f h action s).1)
    (hg : action.Within d.policy s)
    (hc : ∀ name ∈ action.choices lib s.ctx, d.policy.chosen s.ctx.nextVar name) (hs : s.Over d) :
    Follows d A B s.ctx (Writes d s.ctx) (perform again lib f h action)
      (perform again' lib f' h action) s (fun r _ => r.Over d.name) := by
  have hone : ∀ {o : Operand} {v : Value}, o ∈ action.operands → o.eval s.bindings = .ok v →
      v.Over d.name := fun ho hv => ha.operands _ ho hs.bindings hv
  cases action with
  | gate | measure | reset | barrier | compare | logical | not | arithmetic | newVar | newArray | assign | name
  | leaveLoop | nextTurn | leaveRoutine | play | frameCall | delay | fail | isActive | «stacks» | qubits | isVarUsed
  | declaredQubits | config | buildId | returned => exact .plain (goes_plain rfl ha hn hg hc hs) hs
  | call id os =>
    -- an error may leave the context where the conversion of the routine was given up
    refine Follows.mended (E := fun c => Writes d s.ctx c ∨
      ∃ key r, lib.find? id = some (key, r) ∧ Breaks d r s.ctx c) ?_ ?_
    · refine .seq (reads_routine id s) hs (.inl .refl) fun ⟨key, r⟩ hr => ?_
      refine .seq (reads_values os s) hs (.inl .refl) fun vs hvs => ?_
      refine (follows_call hA hrun (hlib.find hr) (hcalls id key r hr) hn.1 (fits_of_evals hr ha hs hvs) hs
        fun hk p hp => hc p.name (Action.mem_choices_call _ os hr hk hp)).bind
          (fun c hc => .inr ⟨key, r, hr, hc⟩) fun v t ht _ hv => ?_
      exact .pure ht (.inl hv.2.1) ⟨hv.1, hv.2.1⟩
    · rintro c (hw | ⟨key, r, hr, hb⟩) hcase
      · exact hw
      · refine hb.writes ?_
        rcases hcase with ⟨e, he⟩ | hall
        · exact hfails id os key r e rfl hr he
        · exact hall _
  | build id settings =>
    refine .seq (reads_routine id s) hs .refl fun ⟨key, r⟩ hr => ?_
    exact (faithful_build hA hrun.plain (hlib.find hr)).report hs fun _ _ => trivial
  | branch cond thn els =>
    refine .seq (reads_value cond s) hs .refl fun v hv => ?_
    refine (faithful_branch (hone mem_cons_self hv) (hrun.plain _) ?_).report hs fun _ _ => trivial
    cases els with
    | none => exact .none
    | some els => exact .some (hrun.plain els)
  | unroll target iter body =>
    refine .seq (reads_value iter s) hs .refl fun v hv => ?_
    refine (faithful_unroll (hone mem_cons_self hv) fun u hu => ?_).report hs fun _ _ => trivial
    exact (faithful_bindName hu).bind fun _ _ => hrun.plain body
  | loopOver target start stop step body =>
    refine .seq (reads_value start s) hs .refl fun a hstart => ?_
    refine .seq (reads_value stop s) hs .refl fun b hstop => ?_
    have hfrom : a.Over d.name := hone (by cases step <;> simp [Action.operands]) hstart
    have hto : b.Over d.name := hone (by cases step <;> simp [Action.operands]) hstop
    have hbody : ∀ v : Value, v.Over d.name → Faithful d A B (do bindName target v; again body)
        (do bindName target v; again' body) fun _ => True := fun v hv =>
      (faithful_bindName hv).bind fun _ _ => hrun.plain body
    cases step with
    | none => exact (follows_loopOver hs hn.1 hfrom hto (by simp) hbody).reported fun _ _ => trivial
    | some o =>
      refine .seq ((reads_value o s).map (T := fun c => ∀ v, c = some v → v.Over d.name)
        fun v hv u hu => over_initial (hone (by simp [Action.operands]) hv) hu) hs .refl fun c hc => ?_
      exact (follows_loopOver hs hn.1 hfrom hto hc hbody).reported fun _ _ => trivial
  | whileLoop cond test body =>
    have htest : Faithful d A B (do again cond; value test) (do again' cond; value test)
        fun v => v.Over d.name := by
      refine (hrun.plain cond).bind fun _ _ t ht => ?_
      refine (Follows.of_reads (reads_value test t) ht .refl).mono (fun _ hc => hc) fun v _ hv => ?_
      exact ha.operands test mem_cons_self ht.bindings hv.2
    exact (faithful_whileLoop htest (hrun.plain body) hf).report hs fun _ _ => trivial
  | verbatim body => exact (faithful_verbatim (hrun.plain body)).report hs fun _ _ => trivial
  | nextName kind =>
    have hname : Follows d A B s.ctx (Writes d s.ctx) (nextName h kind) (nextName h kind) s fun _ _ => True := by
      unfold nextName
      split
      · exact .of_error (raise_apply _ s) hs .refl
      · exact .onHandle h hs ((goes_freshName kind hn.1).mono fun _ _ _ => trivial)
          ((goes_freshName (s := exchange s) kind hn.2).mono fun _ _ _ => trivial)
    have heq : ∀ (run : Runner) (n : Nat), perform run lib n h (.nextName kind) =
        nextName h kind >>= fun name => pure (.text name) := fun _ _ => map_eq_pure_bind ..
    rw [heq, heq]
    exact hname.reported fun _ _ => trivial
  | registerQubit n =>
    refine .goesOnHandle h hs fun t => ?_
    have hw : Acts d t.ctx ([n].foldl Context.register t.ctx) :=
      .register (.inr (ha.indices n mem_cons_self))
    refine (Goes.update hw).bind fun _ c _ _ => ?_
    exact .of_reads ((reads_context _).seq fun c _ => .pure trivial) fun _ hr => hr
  | draft main mode =>
    exact .goesOnHandle h hs fun t => .of_reads (reads_draftOf t) fun _ hr => hr
  | result =>
    refine .goesOnHandle h hs fun t => goes_makeProgram.bind fun p c _ _ => ?_
    exact .of_reads ((reads_context _).seq fun c _ => .pure trivial) fun _ hr => hr
  | inProgram body =>
    have hb := ha.byHand trivial
    exact (Faithful.onHandle h (faithful_withProgram hb (hrun.plain body))
      (faithful_withProgram hb (hrun.plain body).exchanging)).report hs fun _ _ => trivial
  | gateDef name params body =>
    refine .seq (reads_get s) hs .refl fun t ht => ?_
    subst ht
    have hnames : ∀ p ∈ params, d.name p.name := fun p hp =>
      ha.names _ (mem_map.2 ⟨p, hp, rfl⟩)
    have hbody := faithful_withBindings (over_bindParams hs.bindings hnames) (hrun.plain body)
    have hb := ha.byHand trivial
    have hdefine : ∀ {C D : Context → Prop} {m m' : Convert Unit}, Faithful d C D m m' (fun _ => True) →
        Faithful d C D (defineGate name params m) (defineGate name params m') fun _ => True :=
      fun hm t ht => (follows_defineGate (.inl hb) hm (fun _ _ _ => hg _ rfl) ht).mono (fun _ hc => hc)
        fun _ _ _ => trivial
    exact (Faithful.onHandle h (hdefine hbody) (hdefine hbody.exchanging)).report hs fun _ _ => trivial
  | calibrationDef gate qs as body =>
    refine .seq (reads_exprs qs s) hs .refl fun qs _ => .seq (reads_exprs as s) hs .refl fun as _ => ?_
    exact (Faithful.onHandle h (faithful_defineCalibration (hrun.plain body))
      (faithful_defineCalibration (hrun.plain body).exchanging)).report hs fun _ _ => trivial
  | validateTargets qs as =>
    refine .seq (reads_exprs qs s) hs .refl fun qs _ => .seq (reads_exprs as s) hs .refl fun as _ => ?_
    refine .goesOnHandle h hs fun t => .seq (reads_context t) fun c _ => ?_
    split
    · exact .refuse
    · exact .pure trivial
  | nestedBuild config body =>
    refine .seq (reads_isActive h s) hs .refl fun active _ => ?_
    dsimp only
    split
    · exact (hrun.plain body).report hs fun _ _ => trivial
    · exact (faithful_inNewContext (fun n => hA n config) (hrun.plain body)).report hs fun _ _ => trivial

theorem follows_step (hA : ∀ n config id, Quiet d A (Context.start n config id)) (hlib : lib.Obeys d)
    (hcalls : lib.Within d.policy) (hrun : Runs d A B again again') (hf : Turns d f f') {st : Step}
    (ha : st.action.Obeys d lib s.bindings) (hn : s.Counts d)
    (hfails : FailsOnly d.policy lib st.action (perform again lib f st.handle st.action s).1)
    (hg : st.action.Within d.policy s)
    (hc : ∀ name ∈ st.action.choices lib s.ctx, d.policy.chosen s.ctx.nextVar name) (hs : s.Over d) :
    Follows d A B s.ctx (Writes d s.ctx) (step again lib f st) (step again' lib f' st) s (fun _ _ => True) := by
  obtain ⟨action, target, guarded, h⟩ := st
  obtain ⟨r, t, hm, hreach, hres, hsame⟩ :=
    (follows_operation (h := h) hA hlib hcalls hrun hf ha hn hfails hg hc hs).apply
  have hout : ∀ (run : Runner) (n : Nat), perform run lib n h action s = (r, t) →
      step run lib n (.mk action target guarded h) s = concluded action.word target guarded r t := by
    intro run n hrun
    rw [step_apply, hrun]
  have hend : ¬ d.policy.Excused (concluded action.word target guarded r t).1 →
      ¬ d.policy.Excused r := mt excused_concluded
  refine .of_apply (hout again f hm) (fun hx => ?_) (fun _ _ => trivial)
    fun ha hb hx => hout again' f' (hsame ha hb (hend hx))
  have hr := hreach (hend hx)
  obtain ⟨hctx, hfin, hover⟩ := concluded_state (w := action.word) (n := target) (g := guarded) hr.names hres
  exact ⟨hctx ▸ hr.ctx, hfin ▸ hr.finished, hover⟩

end perform

/-! ### Runs under observation -/

/-- Runs the steps of a body as `run` does. Before each step of any body, and at its end, `watch` has a
look at the state. -/
def observed (watch : Option Step → Convert Unit) (lib : Library) : Nat → Runner
  | 0, _ => throw .exhausted
  | fuel + 1, steps => do
    steps.forM fun st => do
      watch (some st)
      step (observed watch lib fuel) lib fuel st
    watch none

theorem observed_idle (lib : Library) : ∀ fuel, observed (fun _ => pure ()) lib fuel = run lib fuel
  | 0 => rfl
  | fuel + 1 => by
    funext steps
    simp only [observed, run, observed_idle lib fuel, pure_bind, bind_pure_unit]

/-- Whenever a step is about to be carried out, and whenever a body ends, `M` holds: someone who does
nothing as long as `M` holds does nothing at all. -/
def Throughout (lib : Library) (fuel : Nat) (M : Option Step → State → Prop) (m : Runner → Convert α)
    (s : State) : Prop :=
  ∀ watch : Option Step → Convert Unit, (∀ o t, M o t → watch o t = (.ok (), t)) →
    m (observed watch lib fuel) s = m (run lib fuel) s

theorem Throughout.mono {N : Option Step → State → Prop}
    (h : Throughout lib fuel M m s) (hMN : ∀ o t, M o t → N o t) : Throughout lib fuel N m s :=
  fun watch hwatch => h watch fun o t ho => hwatch o t (hMN o t ho)

theorem Throughout.of_forall (h : ∀ o t, M o t) : Throughout lib fuel M m s := by
  intro watch hwatch
  have hidle : watch = fun _ => pure () := funext fun o => funext fun t => hwatch o t (h o t)
  rw [hidle, observed_idle]

section congr
variable {again again' : Runner}

theorem runBody_congr (h : again r.body = again' r.body) : runBody again r = runBody again' r := by
  funext args
  unfold runBody
  rw [h]

theorem call_congr (hr : again r.body = again' r.body) (h : Handle) (key : Nat) :
    call again h key r = call again' h key r := by
  funext args
  simp only [call, callGate, defineGateRoutine, callSubroutine, defineSubroutine, buildProgram, runBody_congr hr]

/-- An operation depends on the way in which bodies are run only for its own and those of the library. -/
theorem perform_congr {h : Handle} {f : Nat} (hbodies : ∀ b ∈ action.bodies, again b = again' b)
    (hlib : ∀ x ∈ lib.routines, again x.2.body = again' x.2.body) :
    perform again lib f h action = perform again' lib f h action := by
  have hfind : ∀ {id key r}, lib.find? id = some (key, r) → again r.body = again' r.body := by
    intro id key r hr
    obtain ⟨name, hr⟩ := Library.holds_of_find? hr
    exact hlib _ (mem_of_getElem? hr)
  cases action with
  | call id args =>
    cases hr : lib.find? id with
    | none => simp only [perform, routine, hr, liftFault, throw_bind]
    | some x => simp only [perform, routine, hr, pure_bind, call_congr (hfind hr)]
  | build id settings =>
    cases hr : lib.find? id with
    | none => simp only [perform, routine, hr, liftFault, throw_bind]
    | some x => simp only [perform, routine, hr, pure_bind, build, buildProgram, runBody_congr (hfind hr)]
  | branch cond thn els =>
    have hthn := hbodies (thn.getD []) (mem_cons_self ..)
    cases els with
    | none => simp only [perform, hthn, Option.map_none]
    | some b =>
      have hels := hbodies b (mem_cons_of_mem _ (mem_singleton.2 rfl))
      simp only [perform, hthn, Option.map_some, hels]
  | whileLoop cond test body =>
    have hcond := hbodies cond (mem_cons_self ..)
    have hbody := hbodies body (mem_cons_of_mem _ (mem_singleton.2 rfl))
    simp only [perform, hcond, hbody]
  | unroll _ _ body | loopOver _ _ _ _ body | verbatim body | inProgram body | gateDef _ _ body
  | calibrationDef _ _ _ body | nestedBuild _ body =>
    have hbody := hbodies body (mem_singleton.2 rfl)
    simp only [perform, hbody]
  | _ => rfl

theorem forM_congr {f g : α → Convert Unit} {as : List α} (h : ∀ a ∈ as, f a = g a) : as.forM f = as.forM g := by
  induction as with
  | nil => rfl
  | cons a as ih =>
    rw [List.forM, List.forM, h a (mem_cons_self ..), ih fun b hb => h b (mem_cons_of_mem _ hb)]

section steps
variable {P : Step → Prop} (hbodies : ∀ st, P st → ∀ b ∈ st.action.bodies, ∀ st' ∈ b, P st')
  (hlib : ∀ x ∈ lib.routines, ∀ st ∈ x.2.body, P st)

include hbodies hlib in
/-- Two who do the same before the steps that there are cannot be told apart. -/
theorem observed_congr {w' : Option Step → Convert Unit} (hstep : ∀ st, P st → w (some st) = w' (some st))
    (hend : w none = w' none) {steps : List Step} (hsteps : ∀ st ∈ steps, P st) :
    observed w lib fuel steps = observed w' lib fuel steps := by
  induction fuel generalizing steps with
  | zero => rfl
  | succ fuel ih =>
    have hsame : ∀ st, P st → step (observed w lib fuel) lib fuel st = step (observed w' lib fuel) lib fuel st := by
      rintro ⟨action, target, guarded, h⟩ hst
      have hperform : perform (observed w lib fuel) lib fuel h action =
          perform (observed w' lib fuel) lib fuel h action :=
        perform_congr (fun b hb => ih (hbodies _ hst b hb)) fun x hx => ih (hlib x hx)
      funext t
      rw [step_apply, step_apply, hperform]
    unfold observed
    rw [hend, forM_congr fun st hst => ?_]
    rw [hstep st (hsteps st hst), hsame st (hsteps st hst)]

open Classical in
include hbodies hlib in
theorem Throughout.and_steps
    (hm : ∀ again again' : Runner, (∀ b, (∀ st ∈ b, P st) → again b = again' b) → m again = m again')
    (h : Throughout lib fuel M m s) : Throughout lib fuel (fun o t => M o t ∧ ∀ st ∈ o, P st) m s := by
  intro watch hwatch
  -- someone who looks away before all other steps
  let w : Option Step → Convert Unit := fun o => if ∀ st ∈ o, P st then watch o else pure ()
  have hsame : m (observed watch lib fuel) = m (observed w lib fuel) := by
    refine hm _ _ fun b hb => observed_congr hbodies hlib (fun st hst => ?_) ?_ hb
    · exact (if_pos (by simpa using hst)).symm
    · exact (if_pos (by simp)).symm
  rw [hsame]
  refine h w fun o t ho => ?_
  unfold w
  split
  · exact hwatch o t ⟨ho, ‹_›⟩
  · rfl

include hbodies hlib in
theorem throughout_of_steps (hM : ∀ st, P st → ∀ t, M (some st) t) (hend : ∀ t, M none t)
    (hr : ∀ st ∈ r.body, P st) :
    Throughout lib fuel M (buildProgram · r config args) s := by
  refine (Throughout.and_steps (M := fun _ _ => True) hbodies hlib (fun again again' hsame => ?_)
    (.of_forall fun _ _ => trivial)).mono fun o t ho => ?_
  · simp only [buildProgram, runBody_congr (hsame r.body hr)]
  · cases o with
    | none => exact hend t
    | some st => exact hM st (ho.2 st rfl) t

end steps

end congr

/-- A step may be carried out, or a body may end, as far as the discipline goes; `runs` are the ways in
which bodies are run, one for each bound. -/
structure Allows (d : Discipline) (lib : Library) (runs : Nat → Runner) (o : Option Step) (t : State) :
    Prop where
  counts : t.Counts d
  obeys : ∀ st, o = some st → st.action.Obeys d lib t.bindings
  fails : ∀ st, o = some st → ∀ fuel,
    FailsOnly d.policy lib st.action (perform (runs fuel) lib fuel st.handle st.action t).1
  within : ∀ st, o = some st → st.action.Within d.policy t
  chosen : ∀ st, o = some st → ∀ name ∈ st.action.choices lib t.ctx, d.policy.chosen t.ctx.nextVar name

/-- The state stays as it is; if there is no stop, then `P` holds. -/
def Looks (m : Convert Unit) (s : State) (P : Prop) : Prop :=
  (∃ e, m s = (.error e, s)) ∨ m s = (.ok (), s) ∧ P

/-- If `g` stops before every step that is not allowed, then what `observed g` does is a stretch of a
build, and `w` may look as long as it does what `g` does at the states that are passed. -/
theorem runs_observed {g : Option Step → Convert Unit}
    (hA : ∀ n config id, Quiet d A (Context.start n config id)) (hlib : lib.Obeys d)
    (hcalls : lib.Within d.policy)
    (hg : ∀ o t, Looks (g o) t (Allows d lib (observed g lib) o t))
    (hw : ∀ o t, A t.ctx → B t.finished → ¬ d.policy.Excused (g o t).1 → w o t = g o t)
    (hdef : ∀ fuel key r x s, d.policy.routine key r → r.kind ≠ .gate →
      CompletesAt (observed g lib fuel) r x s → d.policy.defines s.ctx.build x) {fuel' : Nat} (hf : Turns d fuel fuel')
    (hgate : ∀ fuel key r x, d.policy.routine key r → r.kind = .gate →
      CompletesGate (observed g lib fuel) r x → d.policy.definesGate x := by
        exact fun _ _ _ _ _ _ _ => trivial) :
    Runs d A B (observed g lib fuel) (observed w lib fuel') := by
  -- a look at the state
  have hlook : ∀ o t, t.Over d → Follows d A B t.ctx (Writes d t.ctx) (g o) (w o) t
      (fun _ u => u = t ∧ Allows d lib (observed g lib) o t) := by
    intro o t ht
    have hagree : Quiet d A t.ctx → Quiet d B t.finished → ¬ d.policy.Excused (g o t).1 →
        w o t = g o t := fun ha hb hx => hw o t ha.here hb.here hx
    rcases hg o t with ⟨e, hgo⟩ | ⟨hgo, hallows⟩
    · rw [hgo] at hagree
      exact .of_apply hgo (fun _ => ⟨.refl, .refl, ht⟩) (fun _ hr => by cases hr) hagree
    · rw [hgo] at hagree
      exact .of_apply hgo (fun _ => ⟨.refl, .refl, ht⟩) (fun _ _ => ⟨rfl, hallows⟩) hagree
  induction fuel generalizing fuel' with
  | zero => exact ⟨fun steps _ hs => hf.exhausted (m := (observed w lib · steps)) rfl hs, hdef 0, hgate 0⟩
  | succ fuel ih =>
    obtain ⟨k, rfl, hk⟩ := hf.of_succ
    have hstep : ∀ st, Faithful d A B (do g (some st); step (observed g lib fuel) lib fuel st)
        (do w (some st); step (observed w lib k) lib k st) fun _ => True := by
      intro st t ht
      refine (hlook (some st) t ht).bind (fun _ hc => hc) fun _ u hu _ hlooked => ?_
      obtain ⟨rfl, hallows⟩ := hlooked
      exact follows_step hA hlib hcalls (ih hk) hk (hallows.obeys st rfl) hallows.counts
        (hallows.fails st rfl fuel) (hallows.within st rfl) (hallows.chosen st rfl) hu
    refine ⟨fun steps s hs => ?_, hdef (fuel + 1), hgate (fuel + 1)⟩
    refine (Faithful.forM hstep steps s hs).bind (fun _ hw => hw) fun _ t ht hst _ => ?_
    refine ((hlook none t ht).since fun hq => hq.writes hst).mono (fun _ hc => hst.trans hc) ?_
    rintro _ _ ⟨rfl, hallows⟩
    exact hallows.counts

/-! ### Insisting -/

open Classical in
/-- Stops where `M` does not hold. -/
noncomputable def insist (M : Option Step → State → Prop) (e : Stop) (o : Option Step) : Convert Unit :=
  fun t => if M o t then (.ok (), t) else (.error e, t)

theorem insist_apply (M : Option Step → State → Prop) (e : Stop) (o : Option Step) (t : State) :
    insist M e o t = (.ok (), t) ∨ ∃ x, x = e ∧ insist M e o t = (.error x, t) := by
  unfold insist
  split
  · exact .inl rfl
  · exact .inr ⟨e, rfl, rfl⟩

/-- Insisting on what holds throughout a run does not change it. -/
theorem Throughout.insist (h : Throughout lib fuel M m s) (e : Stop) :
    m (observed (insist M e) lib fuel) s = m (run lib fuel) s := by
  refine h _ fun o t ho => ?_
  simp only [Convert.insist, if_pos ho]

theorem looks_insist {P : Option Step → State → Prop} (e : Stop)
    (hM : ∀ o t, M o t → P o t) (o : Option Step) (t : State) : Looks (insist M e o) t (P o t) := by
  unfold Looks Convert.insist
  split
  · exact .inr ⟨rfl, hM o t ‹_›⟩
  · exact .inl ⟨_, rfl⟩

/-! ### Runs under a discipline -/

/-- The step obeys the discipline, if there is one. -/
abbrev Obeyed (d : Discipline) (lib : Library) (o : Option Step) (t : State) : Prop :=
  ∀ st, o = some st → st.action.Obeys d lib t.bindings

/-- Every step that is carried out obeys the discipline. -/
def Disciplined (d : Discipline) (lib : Library) (fuel : Nat) (m : Runner → Convert α) (s : State) :
    Prop :=
  Throughout lib fuel (Obeyed d lib) m s

theorem Disciplined.insist (h : Disciplined d lib fuel m s) :
    m (observed (Convert.insist (Obeyed d lib) .exhausted) lib fuel) s = m (run lib fuel) s :=
  Throughout.insist h .exhausted

theorem allows_of_obeys {runs : Nat → Runner} {o : Option Step} (hd : d.policy = {}) (h : Obeyed d lib o t) :
    Allows d lib runs o t := by
  obtain ⟨name, wire, index, generated, nothing, policy⟩ := d
  cases hd
  exact ⟨⟨trivial, trivial⟩, h, fun _ _ _ _ _ _ _ _ _ _ _ => trivial,
    fun _ _ => .of_forall, fun _ _ _ _ => trivial⟩

theorem faithful_insist (hlib : lib.Obeys d) (fuel : Nat) (hd : d.policy = {} := by rfl) (steps : List Step) :
    Faithful d (fun _ => True) (fun _ => True)
      (observed (Convert.insist (Obeyed d lib) .exhausted) lib fuel steps)
      (observed (Convert.insist (Obeyed d lib) .exhausted) lib fuel steps) fun _ => True := by
  obtain ⟨name, wire, index, generated, nothing, policy⟩ := d
  cases hd
  exact (runs_observed (fun _ _ _ _ _ => trivial) hlib (fun _ _ _ _ => trivial)
    (looks_insist _ fun o t => allows_of_obeys rfl) (fun _ _ _ _ _ => rfl) (fun _ _ _ _ _ _ _ _ => trivial)
    (.inl rfl) (fun _ _ _ _ _ _ _ => trivial)).plain steps

/-! ### Runs without a discipline -/

section policy
variable (π : Policy)

theorem obeys_discipline (lib : Library) (b : Bindings) (a : Action)
    (hi : ∀ o ∈ a.initials, ∀ v e, o.eval b = .ok v → v.toExpr = .ok e → π.discipline.Grants e)
    (hb : a.IsByHand → π.byHand) : a.Obeys π.discipline lib b :=
  ⟨fun o _ => o.keeps_true, fun _ _ _ _ => trivial, fun _ _ => trivial, fun _ _ => trivial, hi, hb⟩

theorem routine_obeys_discipline (r : Routine) : r.Obeys π.discipline := ⟨fun _ _ => trivial, r.result.keeps_true⟩

theorem library_obeys_discipline (lib : Library) : lib.Obeys π.discipline := fun x _ =>
  routine_obeys_discipline π x.2

theorem over_discipline (s : State) : s.Over π.discipline :=
  ⟨.of_true s.bindings, fun _ _ => trivial, fun _ _ => trivial⟩

end policy

theorem obeys_free (lib : Library) (b : Bindings) (a : Action) : a.Obeys .free lib b :=
  obeys_discipline _ lib b a (fun _ _ _ _ _ _ _ _ => trivial) fun _ => trivial

theorem routine_obeys_free (r : Routine) : r.Obeys .free := routine_obeys_discipline _ r

theorem library_obeys_free (lib : Library) : lib.Obeys .free := library_obeys_discipline _ lib

theorem over_free (s : State) : s.Over .free := over_discipline _ s

/-- Every run is a stretch of a build, and whoever does nothing at the states that it can pass does
nothing at all. -/
theorem faithful_run (hA : ∀ n config id, Quiet .free A (Context.start n config id))
    (hw : ∀ o t, A t.ctx → B t.finished → w o t = (.ok (), t)) (lib : Library) (fuel : Nat)
    (steps : List Step) :
    Faithful .free A B (run lib fuel steps) (observed w lib fuel steps) fun _ => True := by
  rw [← observed_idle]
  exact (runs_observed hA (library_obeys_free lib) (fun _ _ _ _ => trivial)
    (fun o t => .inr ⟨rfl, allows_of_obeys rfl fun st _ => obeys_free lib _ _⟩)
    (fun o t ha hb _ => hw o t ha hb) (fun _ _ _ _ _ _ _ _ => trivial) (.inl rfl)).plain steps

theorem faithful_run_self (lib : Library) (fuel : Nat) (steps : List Step) :
    Faithful .free (fun _ => True) (fun _ => True) (run lib fuel steps) (run lib fuel steps) fun _ => True := by
  have hrun := faithful_run (A := fun _ => True) (B := fun _ => True) (w := fun _ => pure ())
    (fun _ _ _ _ _ => trivial) (fun _ _ _ _ => rfl) lib fuel steps
  rwa [observed_idle] at hrun

/-- What holds of every context that a build can pass holds throughout it. -/
theorem throughout_of_quiet
    (hA : ∀ n config id, Quiet .free A (Context.start n config id)) (hB : Quiet .free B s.finished) :
    Throughout lib fuel (fun _ t => A t.ctx ∧ B t.finished) (buildProgram · r config args) s := by
  intro watch hwatch
  have hrun := faithful_run (B := B) hA (fun o t ha hb => hwatch o t ⟨ha, hb⟩) lib fuel
  have hbuild := follows_buildProgram (o := Context.start 0 config "") (E := fun _ => True) (r := r)
    (fun n id => hA n config id) hrun (routine_obeys_free r) (fun v (_ : v ∈ args) => v.over_true)
    (over_free s) trivial
  exact hbuild.same (hA 0 config "") hB

theorem writes_of_build {s' : State} (hp : buildProgram (run lib fuel) r config args s = (.ok p, s')) :
    ∃ t u, Writes .free (s.started config).ctx t.ctx ∧ declareRegister t = (.ok (), u) ∧ p = u.ctx.result := by
  obtain ⟨v, t, u, hbody, hdecl, rfl⟩ := buildProgram_ok hp
  have hw := (faithful_runBody (r := r) (faithful_run_self lib fuel) (routine_obeys_free r)
    (fun v (_ : v ∈ args) => v.over_true) (s.started config) (over_free _)).exits
  rw [hbody] at hw
  exact ⟨t, u, hw, hdecl, rfl⟩

theorem follows_perform {h : Handle} {again again' : Runner} {f : Nat}
    (hA : ∀ n config id, Quiet .free A (Context.start n config id)) (hlib : lib.Obeys .free)
    (hrun : ∀ steps, Faithful .free A B (again steps) (again' steps) fun _ => True)
    (ha : action.Obeys .free lib s.bindings) (hs : s.Over .free) :
    Follows .free A B s.ctx (Writes .free s.ctx) (perform again lib f h action)
      (perform again' lib f h action) s (fun r _ => r.Over Discipline.free.name) := by
  have hruns : Runs .free A B again again' :=
    ⟨fun steps s hs => (hrun steps s hs).mono (fun _ hc => hc) fun _ _ _ => ⟨trivial, trivial⟩,
      fun _ _ _ _ _ _ _ => trivial, fun _ _ _ _ _ _ => trivial⟩
  exact follows_operation hA hlib (fun _ _ _ _ => trivial) hruns (.inl rfl) ha ⟨trivial, trivial⟩
    (fun _ _ _ _ _ _ _ _ => trivial) .of_forall (fun _ _ => trivial) hs

/-! ### Runs under a policy -/

theorem allows_of_within {runs : Nat → Runner} {o : Option Step} (h : ∀ st, o = some st → st.action.Within π t)
    (hnumber : ∀ n, π.number n := by intros; trivial) (hcallee : ∀ name, π.callee name := by intros; trivial)
    (hhand : π.byHand := by trivial) (hfails : ∀ name, π.fails name := by intros; trivial)
    (hchosen : ∀ n name, π.chosen n name := by intros; trivial) : Allows π.discipline lib runs o t := by
  refine ⟨⟨hnumber _, hnumber _⟩, fun st _ => ?_, fun _ _ _ _ _ _ _ _ _ _ _ => hfails _, h,
    fun _ _ _ _ => hchosen _ _⟩
  exact obeys_discipline π lib _ _ (fun _ _ _ _ _ _ name _ => hcallee name) fun _ => hhand

section cut
variable {X : Stop → Prop} (hX : ∀ e, ¬ X (.error e)) {g : Option Step → Convert Unit} {fuel' : Nat}

/-- Someone who does nothing but stop a run may be replaced by whoever does nothing where the run goes
on. -/
theorem runs_watched (hg : ∀ o t, g o t = (.ok (), t) ∨ ∃ e, X e ∧ g o t = (.error e, t))
    (hw : ∀ o t, g o t = (.ok (), t) → w o t = (.ok (), t)) (lib : Library)
    (hf : Turns (Policy.cut X hX).discipline fuel fuel') :
    Runs (Policy.cut X hX).discipline (fun _ => True) (fun _ => True) (observed g lib fuel)
      (observed w lib fuel') := by
  refine runs_observed (d := (Policy.cut X hX).discipline) (fun _ _ _ _ _ => trivial)
    (library_obeys_discipline _ lib) (fun _ _ _ _ => trivial) (fun o t => ?_) (fun o t _ _ hx => ?_)
    (fun _ _ _ _ _ _ _ _ => trivial) hf
  · rcases hg o t with h | ⟨e, -, h⟩
    · exact .inr ⟨h, allows_of_within fun _ _ => .of_forall⟩
    · exact .inl ⟨e, h⟩
  · rcases hg o t with h | ⟨e, he, h⟩
    · rw [hw o t h, h]
    · rw [h] at hx
      exact absurd ⟨e, rfl, he⟩ hx

/-- Someone who does nothing but stop a run may as well not be there, unless the run was stopped. -/
theorem runs_cut (hg : ∀ o t, g o t = (.ok (), t) ∨ ∃ e, X e ∧ g o t = (.error e, t)) (lib : Library)
    (hf : Turns (Policy.cut X hX).discipline fuel fuel') :
    Runs (Policy.cut X hX).discipline (fun _ => True) (fun _ => True) (observed g lib fuel) (run lib fuel') := by
  rw [← observed_idle]
  exact runs_watched hX hg (fun _ _ _ => rfl) lib hf

theorem perform_cut (hg : ∀ o t, g o t = (.ok (), t) ∨ ∃ e, X e ∧ g o t = (.error e, t))
    (hf : Turns (Policy.cut X hX).discipline fuel fuel')
    (hx : ¬ (Policy.cut X hX).Excused (perform (observed g lib fuel) lib fuel h action t).1) :
    perform (run lib fuel') lib fuel' h action t = perform (observed g lib fuel) lib fuel h action t := by
  refine (follows_operation (d := (Policy.cut X hX).discipline) (fun _ _ _ _ _ => trivial)
    (library_obeys_discipline _ lib) (fun _ _ _ _ => trivial) (runs_cut hX hg lib hf) hf ?_ ⟨trivial, trivial⟩
    (fun _ _ _ _ _ _ _ _ => trivial) .of_forall (fun _ _ => trivial)
    (over_discipline _ t)).agrees (fun _ _ => trivial) (fun _ _ => trivial) hx
  exact obeys_discipline _ lib _ _ (fun _ _ _ _ _ _ _ _ => trivial) fun _ => trivial

theorem runBody_cut (hg : ∀ o t, g o t = (.ok (), t) ∨ ∃ e, X e ∧ g o t = (.error e, t))
    (hf : Turns (Policy.cut X hX).discipline fuel fuel')
    (hx : ¬ (Policy.cut X hX).Excused (runBody (observed g lib fuel) r args t).1) :
    runBody (run lib fuel') r args t = runBody (observed g lib fuel) r args t :=
  (faithful_runBody (runs_cut hX hg lib hf).plain (routine_obeys_discipline _ r)
    (fun v _ => v.over_true) t (over_discipline _ t)).agrees (fun _ _ => trivial) (fun _ _ => trivial) hx

end cut

/-- An operation that ends within some bound ends in the same way within a larger one. -/
theorem perform_of_le {h : Handle} {k k' : Nat} (hle : k ≤ k')
    (hne : (perform (run lib k) lib k h action t).1 ≠ .error .exhausted) :
    perform (run lib k') lib k' h action t = perform (run lib k) lib k h action t := by
  rw [← observed_idle lib k] at hne ⊢
  refine perform_cut (X := (· = .exhausted)) nofun (fun _ _ => .inl rfl) (.inr ⟨hle, rfl⟩) ?_
  rintro ⟨x, hx, rfl⟩
  exact hne hx

theorem perform_ne_error {hd : Handle}
    (h : (perform (run lib fuel) lib fuel hd action t).1.isOk = true) (n : Nat) (e : Error) :
    (perform (run lib n) lib n hd action t).1 ≠ .error (.error e) := by
  intro heq
  rcases Nat.le_total fuel n with hle | hle
  · have hne : (perform (run lib fuel) lib fuel hd action t).1 ≠ .error .exhausted := by
      intro hx
      rw [hx] at h
      cases h
    rw [← perform_of_le hle hne, heq] at h
    cases h
  · have hne : (perform (run lib n) lib n hd action t).1 ≠ .error .exhausted := by
      rw [heq]
      nofun
    rw [perform_of_le hle hne, heq] at h
    cases h

/-! ### Checking a build -/

def stopUnless (M : Option Step → State → Bool) (o : Option Step) : Convert Unit := fun t =>
  if M o t then (.ok (), t) else (.error .exhausted, t)

/-- A conversion in which the test never failed is one throughout which it succeeds, given that it depends
on how bodies are run as operations do. -/
theorem throughout_of_unstopped {M : Option Step → State → Bool} (hX : ∀ x, Stop.error x ≠ .exhausted)
    (hm : ∀ again again', Runs (Policy.cut (· = .exhausted) hX).discipline (fun _ => True) (fun _ => True) again
      again' → ¬ (Policy.cut (· = .exhausted) hX).Excused (m again s).1 → m again' s = m again s)
    (h : (m (observed (stopUnless M) lib fuel) s).1 ≠ .error .exhausted) :
    Throughout lib fuel (fun o t => M o t = true) m s := by
  intro watch hwatch
  have hg : ∀ o t, stopUnless M o t = (.ok (), t) ∧ M o t = true ∨
      ∃ e, e = .exhausted ∧ stopUnless M o t = (.error e, t) := by
    intro o t
    unfold stopUnless
    split
    · exact .inl ⟨rfl, ‹_›⟩
    · exact .inr ⟨_, rfl, rfl⟩
  have hsame : ∀ w : Option Step → Convert Unit, (∀ o t, M o t = true → w o t = (.ok (), t)) →
      m (observed w lib fuel) s = m (observed (stopUnless M) lib fuel) s := by
    intro w hw
    have hruns := runs_watched (X := (· = .exhausted)) hX (fun o t => (hg o t).imp_left And.left)
      (w := w) (fun o t hok => ?_) lib (.inl rfl : Turns _ fuel fuel)
    · refine hm _ _ hruns ?_
      rintro ⟨e, he, hexcused⟩
      exact h (he.trans (congrArg _ hexcused))
    · rcases hg o t with ⟨-, ht⟩ | ⟨e, -, herr⟩
      · exact hw o t ht
      · rw [herr] at hok
        cases hok
  have hidle := hsame (fun _ => pure ()) fun _ _ _ => rfl
  rw [observed_idle] at hidle
  exact (hsame watch hwatch).trans hidle.symm

/-- A build in which the test never failed is one throughout which it succeeds. -/
theorem throughout_of_stopUnless {M : Option Step → State → Bool}
        (h : (buildProgram (observed (stopUnless M) lib fuel) r config args s).1 ≠ .error .exhausted) :
    Throughout lib fuel (fun o t => M o t = true) (buildProgram · r config args) s := by
  refine throughout_of_unstopped nofun (fun again again' hruns hx => ?_) h
  exact (follows_buildProgram (o := s.ctx) (E := fun _ => True) (fun _ _ _ _ => trivial) hruns.plain
    (routine_obeys_discipline _ r) (fun v _ => v.over_true) (over_discipline _ s) trivial).agrees
    (fun _ _ => trivial) (fun _ _ => trivial) hx

theorem throughout_of_check [∀ o t, Decidable (M o t)]
        (h : (buildProgram (observed (stopUnless fun o t => decide (M o t)) lib fuel) r config args s).1.isOk =
      true) : Throughout lib fuel M (buildProgram · r config args) s := by
  refine (throughout_of_stopUnless (M := fun o t => decide (M o t)) fun heq => ?_).mono
    fun _ _ ht => of_decide_eq_true ht
  rw [heq] at h
  cases h

theorem exists_of_toOption {α β : Type} {x : Except Stop α × State} {f : α → β} {b : β}
    (h : x.1.toOption.map f = some b) : ∃ a s', x = (.ok a, s') ∧ f a = b := by
  obtain ⟨_ | a, s'⟩ := x
  · cases h
  · exact ⟨a, s', rfl, Option.some.inj h⟩

theorem not_throughout_of_stopUnless {M : Option Step → State → Bool}
        (hends : (buildProgram (run lib fuel) r config args s).1.isOk = true)
    (hstops : (buildProgram (observed (stopUnless M) lib fuel) r config args s).1.isOk = false) :
    ¬ Throughout lib fuel (fun o t => M o t = true) (buildProgram · r config args) s := by
  intro h
  have hsame : buildProgram (observed (stopUnless M) lib fuel) r config args s =
      buildProgram (run lib fuel) r config args s := h (stopUnless M) fun _ _ ht => if_pos ht
  rw [hsame, hends] at hstops
  cases hstops

/-! ### Insisting on a policy -/

/-- A body that has come to its end was not stopped by someone who insists. -/
theorem run_of_insist (he : ∀ x, Stop.error x ≠ e) {b : List Step} {u : State}
    (h : observed (insist M e) lib fuel b t = (.ok (), u)) : run lib fuel b t = (.ok (), u) := by
  rw [← h]
  refine ((runs_cut (X := (· = e)) he (insist_apply M e) lib (.inl rfl)).plain b t
    (over_discipline _ t)).agrees (fun _ _ => trivial) (fun _ _ => trivial) ?_
  rw [h]
  exact not_excused_ok _ _

theorem runBody_of_insist (he : ∀ x, Stop.error x ≠ e) {v : Value} {u : State}
    (h : runBody (observed (insist M e) lib fuel) r args t = (.ok v, u)) :
    runBody (run lib fuel) r args t = (.ok v, u) := by
  rw [runBody_cut (X := (· = e)) he (insist_apply M e) (.inl rfl), h]
  rw [h]
  exact not_excused_ok _ _

theorem holds_of_insist {o : Option Step} {u : State} (h : insist M e o t = (.ok (), u)) : M o t := by
  by_contra hM
  rw [insist, if_neg hM] at h
  cases h

/-- What is insisted on holds where a body starts that comes to its end. -/
theorem starts_of_insist {b : List Step} {u : State} (h : observed (insist M e) lib fuel b t = (.ok (), u)) :
    M b.head? t := by
  cases fuel with
  | zero => cases h
  | succ fuel =>
    obtain ⟨_, v, hsteps, hend⟩ := exists_of_bind_ok h
    cases b with
    | nil =>
      cases hsteps
      exact holds_of_insist hend
    | cons st b =>
      obtain ⟨_, _, hfirst, -⟩ := exists_of_bind_ok hsteps
      obtain ⟨_, _, hlook, -⟩ := exists_of_bind_ok hfirst
      exact holds_of_insist hlook

theorem CompletesAt.of_insist {x : SubroutineDef} (he : ∀ x, Stop.error x ≠ e)
    (h : CompletesAt (observed (insist M e) lib fuel) r x s) :
    M r.body.head? (s.bound r r.formals) ∧ CompletesAt (run lib fuel) r x s := by
  obtain ⟨hentered, v, t, u, hrun, hemit, rfl⟩ := h
  obtain ⟨_, hbody, -⟩ := runBody_ok hrun
  obtain ⟨_, _, hbody, -⟩ := exists_of_bind_ok hbody
  exact ⟨starts_of_insist hbody, hentered, v, t, u, runBody_of_insist he hrun, hemit, rfl⟩

theorem CompletesGate.of_insist {x : GateDef} (he : ∀ x, Stop.error x ≠ e)
    (h : CompletesGate (observed (insist M e) lib fuel) r x) : CompletesGate (run lib fuel) r x := by
  obtain ⟨params, s, v, t, hparams, hpermits, hempty, hgates, hrun, rfl⟩ := h
  exact ⟨params, s, v, t, hparams, hpermits, hempty, hgates, runBody_of_insist he hrun, rfl⟩

/-- Where `M` is what the policy asks for, a run that insists on it is a stretch of a build under the
policy, and whoever looks at states that cannot be passed may be in its place. -/
theorem runs_insist (he : π.excuses e)
    (hA : ∀ n config id, Quiet π.discipline A (Context.start n config id)) (hcalls : lib.Within π)
    (hM : ∀ o t, M o t → Allows π.discipline lib (run lib) o t)
    (hdef : π.Covers lib M)
    (hw : ∀ o t, M o t → A t.ctx → B t.finished → w o t = (.ok (), t)) (fuel : Nat)
    (hgate : π.CoversGates lib := by exact fun _ _ _ _ _ _ _ => trivial) :
    Runs π.discipline A B (observed (insist M e) lib fuel) (observed w lib fuel) := by
  have hX : ∀ x, Stop.error x ≠ e := by
    rintro x rfl
    exact π.caught x he
  -- an operation that fails under the eyes of someone who insists fails without as well
  have hfails : ∀ o t, M o t → Allows π.discipline lib (observed (insist M e) lib) o t := by
    intro o t ho
    obtain ⟨hcounts, hobeys, hfails, hwithin, hchosen⟩ := hM o t ho
    refine ⟨hcounts, hobeys, fun st hst n id os key q x hcall hq hr => ?_, hwithin, hchosen⟩
    refine hfails st hst n id os key q x hcall hq ?_
    rw [perform_cut (X := (· = e)) hX (insist_apply M e) (.inl rfl), hr]
    rw [hr]
    exact not_excused_error _ _
  refine runs_observed (d := π.discipline) hA (library_obeys_discipline π lib) hcalls
    (looks_insist e hfails) (fun o t ha hb hx => ?_) (fun n key r x s hr hk hc => ?_) (.inl rfl)
    (fun n key r x hr hk hc => ?_)
  · unfold Convert.insist at hx ⊢
    split
    · exact hw o t ‹_› ha hb
    · rw [if_neg ‹_›] at hx
      exact absurd ⟨e, rfl, he⟩ hx
  · obtain ⟨hstart, hc⟩ := hc.of_insist hX
    exact hdef n key r x s hr hk hstart hc
  · exact hgate n key r x hr hk (hc.of_insist hX)

theorem error_ne_exhausted (x : Error) : Stop.error x ≠ .exhausted := by
  intro h
  cases h

theorem exists_other_stop (r : Except Stop α) : ∃ e, (∀ x, Stop.error x ≠ e) ∧ r ≠ .error e := by
  by_cases h : r = .error .exhausted
  · refine ⟨.fault .missingPart, nofun, ?_⟩
    rw [h]
    nofun
  · exact ⟨.exhausted, nofun, h⟩

section build
variable (h : Throughout lib fuel M (buildProgram · r config args) s) (hcalls : lib.Within π)

include h hcalls

/-- If what holds throughout a build is what the policy asks for, then the contexts passed are such that
a build under the policy can pass, and so are those that the finished context takes on. -/
theorem Throughout.upheld_finished (hdef : π.Covers lib M) (hfails : ∀ name, π.fails name)
    (hA : ∀ e he n config id, Quiet (π.excusing hfails e he).discipline A (Context.start n config id))
    (hB : ∀ e he, Quiet (π.excusing hfails e he).discipline B s.finished)
    (hM : ∀ e he o t, M o t → Allows (π.excusing hfails e he).discipline lib (run lib) o t)
    (hgate : π.CoversGates lib := by exact fun _ _ _ _ _ _ _ => trivial) :
    Throughout lib fuel (fun o t => M o t ∧ A t.ctx ∧ B t.finished) (buildProgram · r config args) s := by
  intro watch hwatch
  obtain ⟨e, he, hother⟩ := exists_other_stop (buildProgram (run lib fuel) r config args s).1
  have hruns := runs_insist (π := π.excusing hfails e he) rfl (hA e he) hcalls (hM e he) hdef
    (fun o t ho ha hb => hwatch o t ⟨ho, ha, hb⟩) fuel hgate
  have hbuild := follows_buildProgram (o := Context.start 0 config "") (E := fun _ => True)
    (fun n id => hA e he n config id) hruns.plain (routine_obeys_discipline _ r)
    (fun v (_ : v ∈ args) => v.over_true) (over_discipline _ s) trivial
  rw [← h.insist e] at hother
  refine (hbuild.agrees (hA e he 0 config "") (hB e he) ?_).trans (h.insist e)
  rintro ⟨x, hx, hexcused⟩
  exact hother (hx.trans (congrArg _ hexcused))

theorem Throughout.upheld (hdef : π.Covers lib M) (hfails : ∀ name, π.fails name)
    (hA : ∀ e he n config id, Quiet (π.excusing hfails e he).discipline A (Context.start n config id))
    (hM : ∀ e he o t, M o t → Allows (π.excusing hfails e he).discipline lib (run lib) o t)
    (hgate : π.CoversGates lib := by exact fun _ _ _ _ _ _ _ => trivial) :
    Throughout lib fuel (fun o t => M o t ∧ A t.ctx) (buildProgram · r config args) s :=
  (h.upheld_finished (B := fun _ => True) hcalls hdef hfails hA
    (fun _ _ _ _ => trivial) hM hgate).mono fun _ _ ht => ⟨ht.1, ht.2.1⟩

theorem Throughout.writes (hdef : π.Covers lib M)
    (he : π.excuses e) (hM : ∀ o t, M o t → Allows π.discipline lib (run lib) o t)
    {s' : State} (hp : buildProgram (run lib fuel) r config args s = (.ok p, s'))
    (hgate : π.CoversGates lib := by exact fun _ _ _ _ _ _ _ => trivial) :
    ∃ t u, Writes π.discipline (s.started config).ctx t.ctx ∧ declareRegister t = (.ok (), u) ∧
      p = u.ctx.result := by
  obtain ⟨v, t, u, hbody, hdecl, rfl⟩ := buildProgram_ok ((h.insist e).trans hp)
  have hruns := runs_insist (A := fun _ => True) (B := fun _ => True) (w := Convert.insist M e) he
    (fun _ _ _ _ _ => trivial) hcalls hM hdef (fun o t ho _ _ => if_pos ho) fuel hgate
  have hreach := (faithful_runBody hruns.plain (routine_obeys_discipline π r)
    (fun v (_ : v ∈ args) => v.over_true) (s.started config) (over_discipline π _)).reaches
  rw [hbody] at hreach
  exact ⟨t, u, (hreach (not_excused_ok _ _)).ctx, hdecl, rfl⟩

end build

end Convert

end QasmStudio

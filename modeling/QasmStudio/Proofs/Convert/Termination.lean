import Mathlib.Data.Finset.Card
import QasmStudio.Proofs.Convert.Judgement
import QasmStudio.Proofs.Convert.RecursionGuard

/-!
# Conversions that come to an end

The code has no decreasing argument. What decreases is the number of routines that may still be entered
(`Library.room`): entering a body takes one of them away, and bodies within a body are smaller. So a
build whose calls stay within it, and whose loops are not turned while converting, does not run out of
fuel if there was enough of it, and more fuel makes no difference.
-/

namespace QasmStudio

open List

variable {st : Step}

theorem Action.sizeOf_bodies {a : Action} {body : List Step} (h : body ∈ a.bodies) : sizeOf body < sizeOf a := by
  cases a with
  | branch cond thn els =>
    rcases mem_cons.1 h with rfl | h
    · cases thn <;> simp <;> omega
    · cases els with
      | none => cases h
      | some b =>
        cases mem_singleton.1 h
        simp only [branch.sizeOf_spec, Option.some.sizeOf_spec]
        omega
  | whileLoop cond test body =>
    rw [whileLoop.sizeOf_spec]
    rcases mem_cons.1 h with rfl | h
    · omega
    · cases mem_singleton.1 h
      omega
  | unroll | loopOver | verbatim | inProgram | gateDef | calibrationDef | nestedBuild =>
    cases mem_singleton.1 h
    simp only [unroll.sizeOf_spec, loopOver.sizeOf_spec, verbatim.sizeOf_spec, inProgram.sizeOf_spec,
      gateDef.sizeOf_spec, calibrationDef.sizeOf_spec, nestedBuild.sizeOf_spec]
    omega
  | _ => cases h

theorem Step.sizeOf_bodies {body : List Step} (h : body ∈ st.action.bodies) : sizeOf body < sizeOf st := by
  obtain ⟨action, target, guarded, handle⟩ := st
  have hbody := Action.sizeOf_bodies h
  simp only [Step.mk.sizeOf_spec, Step.action] at hbody ⊢
  omega

/-! ### Room -/

namespace Library
variable {lib : Library} {l l' : Level} {key : Nat} {r : Routine}

/-- The body of the routine may be entered. -/
def Idle (lib : Library) (l : Level) (key : Nat) : Prop :=
  ∃ r, lib.Holds key r ∧ (r.kind ≠ .gate → ∀ x ∈ l.converting, x.1 ≠ key) ∧
    (r.kind = .gate → ∀ g ∈ l.gates, g.name ≠ r.name)

open Classical in
/-- How many routines may be entered. -/
noncomputable def room (lib : Library) (l : Level) : Nat :=
  ((Finset.range lib.routines.length).filter (lib.Idle l)).card

theorem Holds.sizeOf_body (h : lib.Holds key r) : sizeOf r.body < sizeOf lib.routines := by
  obtain ⟨id, h⟩ := h
  have hmem : sizeOf (id, r) < sizeOf lib.routines := sizeOf_lt_of_mem (mem_of_getElem? h)
  cases r
  simp only [Prod.mk.sizeOf_spec, Routine.mk.sizeOf_spec] at hmem ⊢
  omega

theorem room_le (lib : Library) (l : Level) : lib.room l ≤ lib.routines.length := by
  classical
  exact (Finset.card_filter_le _ _).trans (Finset.card_range _).le

open Classical in
theorem room_mono (h : ∀ key, lib.Idle l' key → lib.Idle l key) : lib.room l' ≤ lib.room l :=
  Finset.card_le_card fun _ hk =>
    Finset.mem_filter.2 ⟨(Finset.mem_filter.1 hk).1, h _ (Finset.mem_filter.1 hk).2⟩

open Classical in
theorem room_lt (h : ∀ key, lib.Idle l' key → lib.Idle l key) (hr : lib.Holds key r) (hi : lib.Idle l key)
    (hn : ¬ lib.Idle l' key) : lib.room l' < lib.room l := by
  refine Finset.card_lt_card ⟨fun _ hk => ?_, fun hsub => ?_⟩
  · exact Finset.mem_filter.2 ⟨(Finset.mem_filter.1 hk).1, h _ (Finset.mem_filter.1 hk).2⟩
  · exact hn (Finset.mem_filter.1 (hsub (Finset.mem_filter.2 ⟨Finset.mem_range.2 hr.lt, hi⟩))).2

theorem room_gate_le (g : GateRecord) : lib.room { l with gates := g :: l.gates } ≤ lib.room l := by
  refine room_mono fun key ⟨r, hr, hsub, hgate⟩ => ⟨r, hr, hsub, fun hk x hx => ?_⟩
  exact hgate hk x (mem_cons_of_mem _ hx)

theorem room_gate_lt {g : GateRecord} (hr : lib.Holds key r) (hk : r.kind = .gate) (hg : g.name = r.name)
    (hi : ∀ x ∈ l.gates, x.name ≠ r.name) : lib.room { l with gates := g :: l.gates } < lib.room l := by
  refine room_lt (fun k ⟨q, hq, hsub, hgate⟩ => ⟨q, hq, hsub, fun hk x hx => ?_⟩) hr
    ⟨r, hr, fun hn => absurd hk hn, fun _ => hi⟩ ?_
  · exact hgate hk x (mem_cons_of_mem _ hx)
  · rintro ⟨q, hq, -, hgate⟩
    cases hq.unique hr
    exact hgate hk g (mem_cons_self ..) hg

theorem room_routine_lt {stub : Stub} (hr : lib.Holds key r) (hk : r.kind ≠ .gate)
    (hi : l.converting.lookup key = none) :
    lib.room { l with converting := (key, stub) :: l.converting } < lib.room l := by
  have hidle : ∀ x ∈ l.converting, x.1 ≠ key := fun x hx heq =>
    absurd (lookup_eq_none_iff.1 hi x hx) (by simp [heq])
  refine room_lt (fun k ⟨q, hq, hsub, hgate⟩ => ⟨q, hq, fun hn x hx => ?_, hgate⟩) hr
    ⟨r, hr, fun _ => hidle, fun hg => absurd hg hk⟩ ?_
  · exact hsub hn x (mem_cons_of_mem _ hx)
  · rintro ⟨q, hq, hsub, -⟩
    cases hq.unique hr
    exact hsub hk (key, stub) (mem_cons_self ..) rfl

end Library

namespace Convert

variable {α β : Type} {l l' : Level} {s : State} {m : Convert α} {f : α → Convert β}

/-! ### The judgement -/

/-- From `s` the conversion does not run out of fuel, and it goes back to where it was. -/
structure EndsFrom (s : State) (m : Convert α) : Prop where
  ends : (m s).1 ≠ .error .exhausted
  ctx : (m s).2.ctx.level = s.ctx.level
  finished : (m s).2.finished.level = s.finished.level

/-- As `EndsFrom`, wherever the two contexts have the given levels. -/
def Ends (l l' : Level) (m : Convert α) : Prop :=
  ∀ s : State, s.ctx.level = l → s.finished.level = l' → EndsFrom s m

namespace EndsFrom

theorem of_apply {r : Except Stop α} {t : State} (h : m s = (r, t)) (hr : r ≠ .error .exhausted)
    (hc : t.ctx.level = s.ctx.level) (hf : t.finished.level = s.finished.level) : EndsFrom s m := by
  refine ⟨?_, ?_, ?_⟩ <;> rw [h]
  exacts [hr, hc, hf]

theorem of_mild (h : Mild m s) : EndsFrom s m :=
  ⟨fun heq => (h.own _ heq).ne_exhausted rfl, h.level, congrArg Context.level h.finished⟩

theorem bind (h : EndsFrom s m)
    (hf : ∀ a t, m s = (.ok a, t) → Ends s.ctx.level s.finished.level (f a)) : EndsFrom s (m >>= f) := by
  obtain ⟨hend, hctx, hfin⟩ := h
  rcases hm : m s with ⟨e | a, t⟩ <;> rw [hm] at hend hctx hfin
  · exact of_apply (bind_of_error hm f) (fun heq => hend (congrArg _ (Except.error.inj heq))) hctx hfin
  · obtain ⟨hend', hctx', hfin'⟩ := hf a t hm t hctx hfin
    rw [← bind_of_ok hm f] at hend' hctx' hfin'
    exact ⟨hend', hctx'.trans hctx, hfin'.trans hfin⟩

theorem mapError (g : Error → Error) (h : EndsFrom s m) : EndsFrom s (mapError g m) := by
  obtain ⟨hend, hctx, hfin⟩ := h
  obtain ⟨hstate, -⟩ := mapError_apply g m s
  refine ⟨fun heq => hend ?_, hstate ▸ hctx, hstate ▸ hfin⟩
  unfold Convert.mapError at heq
  rcases hm : m s with ⟨(_ | _ | _ | _) | _, _⟩ <;> rw [hm] at heq <;> first | rfl | cases heq

end EndsFrom

namespace Ends

theorem of_mild (h : ∀ s, Mild m s) : Ends l l' m := fun s _ _ => .of_mild (h s)

theorem bind (h : Ends l l' m) (hf : ∀ a, Ends l l' (f a)) : Ends l l' (m >>= f) := fun s hc hs =>
  (h s hc hs).bind fun a _ _ => hc ▸ hs ▸ hf a

theorem given {Q : State → α → Prop} (h : ∀ s, Reads m s (Q s))
    (hf : ∀ s a, s.ctx.level = l → Q s a → Ends l l' (f a)) : Ends l l' (m >>= f) := by
  intro s hc hs
  rcases (h s).bind f with ⟨e, he, h⟩ | ⟨a, ha, h⟩
  · exact .of_apply h (fun heq => he.own.ne_exhausted (Except.error.inj heq)) rfl rfl
  · obtain ⟨hend, hctx, hfin⟩ := hf s a hc ha s hc hs
    rw [← h] at hend hctx hfin
    exact ⟨hend, hctx, hfin⟩

theorem update {g : Context → Context} (hg : ∀ c, (g c).level = c.level) : Ends l l' (updateContext g) :=
  of_mild fun _ => .update hg

theorem bracketContext {enter leave : Context → Context} {k : Level} (h : Ends k l' m)
    (henter : ∀ c, c.level = l → (enter c).level = k) (hleave : ∀ c, c.level = k → (leave c).level = l) :
    Ends l l' (bracketContext enter leave m) := by
  intro s hc hs
  obtain ⟨hend, hctx, hfin⟩ := h { s with ctx := enter s.ctx } (henter _ hc) hs
  refine .of_apply (bracketContext_apply enter leave m s) hend ?_ hfin
  exact (hleave _ (hctx.trans (henter _ hc))).trans hc.symm

theorem block {m : Convert Unit} (h : Ends l l' m) : Ends l l' (block m) := by
  refine .bracketContext (k := l) ?_ (fun _ hc => hc) fun _ hc => hc
  exact h.bind fun _ s _ _ => .of_apply rfl nofun rfl rfl

theorem withGate {g : GateRecord} (h : Ends { l with gates := g :: l.gates } l' m) : Ends l l' (withGate g m) := by
  refine .bracketContext h (fun c hc => by rw [← hc]; rfl) fun c hc => ?_
  have hgates : c.gates = g :: l.gates := congrArg Level.gates hc
  have hconv : c.converting = l.converting := congrArg Level.converting hc
  have hactive : c.active = l.active := congrArg Level.active hc
  simp [Context.level, hgates, hconv, hactive]

theorem withStub {key : Nat} {stub : Stub} (hi : l.converting.lookup key = none)
    (h : Ends { l with converting := (key, stub) :: l.converting } l' m) : Ends l l' (withStub key stub m) := by
  refine .bracketContext h (fun c hc => by rw [← hc]; rfl) fun c hc => ?_
  have hgates : c.gates = l.gates := congrArg Level.gates hc
  have hconv : c.converting = (key, stub) :: l.converting := congrArg Level.converting hc
  have hactive : c.active = l.active := congrArg Level.active hc
  have hrest : ∀ x ∈ l.converting, (x.1 != key) = true := fun x hx =>
    bne_iff_ne.2 fun heq => absurd (lookup_eq_none_iff.1 hi x hx) (by simp [heq])
  have hfilter : c.converting.filter (·.1 != key) = l.converting := by
    rw [hconv, filter_cons_of_neg (by simp), filter_eq_self.2 hrest]
  simp only [Context.level, hgates, hfilter, hactive]

theorem forM {ι : Type} {f : ι → Convert PUnit} {as : List ι} (h : ∀ a ∈ as, Ends l l' (f a)) :
    Ends l l' (as.forM f) := by
  induction as with
  | nil => exact fun s _ _ => .of_apply rfl nofun rfl rfl
  | cons a as ih =>
    unfold List.forM
    exact (h a (mem_cons_self ..)).bind fun _ => ih fun b hb => h b (mem_cons_of_mem _ hb)

end Ends

/-- A place tells the levels of the two contexts. -/
def ending (again : Runner) : Judgement where
  Place := Level × Level
  Holds i := fun {_} F => Ends i.1 i.2 (F again)
  At i c := c.level = i.1
  defining i key stub := ({ i.1 with converting := (key, stub) :: i.1.converting }, i.2)
  gated i g := ({ i.1 with gates := g :: i.1.gates }, i.2)
  exchanged i := i.swap
  Starts i j := j = (⟨[], [], true⟩, i.2)
  leaf hm _ _ := .of_mild fun s => (hm s).toMild
  bind := .bind
  given _ hm hG := .given hm hG
  applyGate _ := .of_mild fun _ => (neat_applyGate (p := True)).toMild
  register _ _ := .of_mild fun _ => mild_declareRegister
  tagging _ h := fun s hc hs => (h s hc hs).mapError _
  settling _ h := fun s hc hs => (h s hc hs).mapError _
  block _ hF hG := hF.block.bind fun sts => hG sts nofun
  turn _ hF := hF.block
  box _ _ h := by
    refine .bracketContext (k := _) (.bind (fun s hc hs => (h.block s hc hs).mapError _) fun _ => ?_)
      (fun _ hc => hc) fun _ hc => hc
    exact .bind (.update (g := (·.emit _)) fun _ => rfl) fun _ => .update (g := (·.emit _)) fun _ => rfl
  program h := .bracketContext h (fun _ hc => hc) fun _ hc => hc
  define _ hc hidle h := by
    refine .withStub ?_ (.bracketContext h (fun _ hc => hc) fun _ hc => hc)
    rwa [← hc]
  gate _ _ h := by
    refine .withGate (.given (reads_allow _) fun _ _ _ _ => h.block.bind fun _ => ?_)
    refine .given reads_context fun _ _ _ _ => ?_
    split
    · exact .update fun _ => rfl
    · exact fun s _ _ => .of_apply rfl nofun rfl rfl
  calibration _ h := by
    unfold defineCalibration withCalibration
    refine .bracketContext (.given (reads_allow _) fun _ _ _ _ => h.block.bind fun _ => ?_) (fun _ hc => hc)
      fun _ hc => hc
    exact fun s _ _ => .of_apply rfl nofun rfl rfl
  bindings {_ b} _ _ h := fun s hc hs =>
    have hin := h { s with bindings := b } hc hs
    ⟨hin.ends, hin.ctx, hin.finished⟩
  start {_ config} _ _ h := fun s _ hs =>
    have hin := h _ rfl (s.started config) rfl hs
    ⟨hin.ends, rfl, hin.finished⟩
  exchanging h := fun s hc hs =>
    have hin := h (exchange s) hs hc
    ⟨hin.ends, hin.finished, hin.ctx⟩

/-! ### Operations -/

/-- What the operation does stays within the build, and a loop is not turned while converting. -/
def Stays (again : Runner) (h : Handle) (s : State) : Action → Prop
  | .call .. | .nestedBuild .. => h = .own
  | .build .. => False
  | .whileLoop cond test _ => ∀ t, (do again cond; value test) s ≠ (.ok (.bool true), t)
  | _ => True

/-- The bodies of routines end where there is less room than at `l`. -/
def EndsBelow (lib : Library) (again : Runner) (l : Level) : Prop :=
  ∀ key r, lib.Holds key r → ∀ l₁ l', l₁.active = l.active → lib.room l₁ < lib.room l → Ends l₁ l' (again r.body)

section perform
variable {lib : Library} {again : Runner} {fuel : Nat} {h : Handle}

theorem callable_ending {i : (ending again).Place} {key : Nat} {r : Routine} (hr : lib.Holds key r)
    (hact : i.1.active = true) (hb : EndsBelow lib again i.1) : (ending again).Callable .own i key r where
  subroutine hk c hc hidle stub := hb key r hr _ _ rfl (Library.room_routine_lt hr hk (hc ▸ hidle))
  gate hk c hc hidle params _ := by
    refine ⟨hb key r hr _ _ rfl (Library.room_gate_lt hr hk rfl fun x hx hname => ?_), trivial⟩
    have hfree := any_eq_false.1 hidle x (by rw [← hc] at hx; exact hx)
    exact hfree (beq_iff_eq.2 hname)
  program _ c hc hne := by
    have hactive : c.active = i.1.active := congrArg Level.active hc
    rw [hne rfl, hact] at hactive
    cases hactive

/-- A loop whose condition does not come out true is not turned while converting. -/
theorem endsFrom_whileLoop {cond body : List Step} {test : Operand}
    (hc : Ends s.ctx.level s.finished.level (again cond)) (hb : Ends s.ctx.level s.finished.level (again body))
    (hstay : Stays again h s (.whileLoop cond test body)) :
    EndsFrom s (whileLoop h fuel (do again cond; value test) (again body)) := by
  let J := ending again
  let i : J.Place := (s.ctx.level, s.finished.level)
  have hcond : Ends s.ctx.level s.finished.level (do again cond; value test) :=
    J.bind (i := i) (F := (· cond)) hc fun _ => J.value test
  rw [Judgement.whileLoop_eq]
  refine ((hcond s rfl rfl).mapError _).bind fun v t hv => ?_
  refine J.loopOn_of (i := i) (F := (· body)) (C := fun again => do again cond; value test) trivial trivial hb ?_
  rintro rfl
  have hv := ((mapError_apply Error.tag _ s).2 _).1 (Prod.ext_iff.1 hv).1
  exact (hstay _ (Prod.ext hv rfl)).elim

theorem endsFrom_perform {action : Action} (hact : s.ctx.active = true) (hstay : Stays again h s action)
    (hbody : ∀ b ∈ action.bodies, ∀ l l', l.active = true → lib.room l ≤ lib.room s.ctx.level →
      Ends l l' (again b))
    (hcall : EndsBelow lib again s.ctx.level) :
    EndsFrom s (perform again lib fuel h action) := by
  let J := ending again
  let i : J.Place := (s.ctx.level, s.finished.level)
  have hhere : ∀ b ∈ action.bodies, ∀ l', Ends s.ctx.level l' (again b) := fun b hb l' =>
    hbody b hb _ l' hact le_rfl
  by_cases hwhile : ∃ cond test body, action = .whileLoop cond test body
  · obtain ⟨cond, test, body, rfl⟩ := hwhile
    have hin : EndsFrom s (whileLoop h fuel (do again cond; value test) (again body)) :=
      endsFrom_whileLoop (hhere cond (mem_cons_self ..) _)
        (hhere body (mem_cons_of_mem _ (mem_singleton.2 rfl)) _) hstay
    exact hin.bind fun _ _ _ => J.pure (i := i) _
  refine J.perform (i := i) trivial ?_ s rfl rfl
  cases action with
  | call =>
    cases hstay
    exact ⟨trivial, fun key r hr => callable_ending hr hact hcall⟩
  | build => exact hstay.elim
  | whileLoop cond test body => exact absurd ⟨cond, test, body, rfl⟩ hwhile
  | branch cond thn els =>
    refine ⟨trivial, hhere _ (mem_cons_self ..) _, fun b hb => ?_⟩
    exact hhere b (mem_cons_of_mem _ (hb ▸ mem_singleton.2 rfl)) _
  | unroll | verbatim | loopOver => exact ⟨trivial, hhere _ (mem_singleton.2 rfl) _⟩
  | inProgram | calibrationDef => cases h <;> exact hhere _ (mem_singleton.2 rfl) _
  | gateDef name params body =>
    refine ⟨?_, fun _ => ⟨fun _ => trivial, fun _ => trivial⟩⟩
    have hb := hbody body (mem_singleton.2 rfl)
    cases h with
    | finished => exact hb _ _ hact le_rfl
    | _ => exact hb _ _ hact (Library.room_gate_le _)
  | nestedBuild config body =>
    cases hstay
    refine ⟨hhere body (mem_singleton.2 rfl) _, fun c hc hne => ?_⟩
    have hactive : c.active = s.ctx.active := congrArg Level.active hc
    rw [hne rfl, hact] at hactive
    cases hactive
  | registerQubit | nextName | result => exact fun _ => trivial
  | draft | validateTargets => trivial
  | _ => exact J.plain (i := i) trivial trivial nofun rfl

end perform

/-! ### Runs -/

section run
variable {lib : Library} {again : Runner} {f : Nat}

theorem eq_exhausted_of_concluded {w : String} {n : Option String} {g : Bool} {r : Except Stop Report}
    (h : (concluded w n g r s).1 = .error .exhausted) : r = .error .exhausted := by
  rcases r with (e | _ | _ | _) | report
  · cases g <;> cases h
  · cases h
  · cases h
  · rfl
  · cases report with
    | value v => cases n <;> cases h
    | _ => cases h

theorem endsFrom_step (h : EndsFrom s (perform again lib f st.handle st.action)) :
    EndsFrom s (step again lib f st) := by
  obtain ⟨action, target, guarded, handle⟩ := st
  obtain ⟨hend, hctx, hfin⟩ := h
  obtain ⟨hc, hf, -⟩ := concluded_state (d := .free) (w := action.word) (n := target) (g := guarded)
    (r := (perform again lib f handle action s).1) (over_free (perform again lib f handle action s).2)
    fun report _ => by cases report <;> first | exact Value.over_true _ | trivial
  refine ⟨fun heq => hend ?_, ?_, ?_⟩
  · rw [step_apply] at heq
    exact eq_exhausted_of_concluded heq
  · rw [step_apply, hc]
    exact hctx
  · rw [step_apply, hf]
    exact hfin

/-- What the step does stays within the build, however deep it may go. -/
def Confined (lib : Library) (o : Option Step) (t : State) : Prop :=
  ∀ st, o = some st → ∀ fuel, Stays (run lib fuel) st.handle t st.action

theorem Stays.insist {M : Option Step → State → Prop} {e : Stop} (he : ∀ x, Stop.error x ≠ e) {fuel : Nat}
    {h : Handle} {action : Action} (hstay : Stays (run lib fuel) h s action) :
    Stays (observed (Convert.insist M e) lib fuel) h s action := by
  cases action with
  | whileLoop cond test body =>
    intro t ht
    refine hstay t ?_
    have hruns := runs_cut (X := (· = e)) he (insist_apply M e) lib (.inl rfl : Turns _ fuel fuel)
    have htest : Faithful (Policy.cut (· = e) he).discipline (fun _ => True) (fun _ => True)
        (do observed (Convert.insist M e) lib fuel cond; value test) (do run lib fuel cond; value test)
        fun _ => True :=
      (hruns.plain cond).bind fun _ _ u hu =>
        (Follows.of_reads (reads_value test u) hu .refl).mono (fun _ hc => hc) fun _ _ _ => trivial
    rw [(htest s (over_discipline _ s)).agrees (fun _ _ => trivial) (fun _ _ => trivial), ht]
    rw [ht]
    exact not_excused_ok _ _
  | _ => exact hstay

/-- With fuel for the steps at hand and for the bodies of all routines that may be entered, a body ends. -/
theorem ends_observed {e : Stop} (he : ∀ x, Stop.error x ≠ e) (hend : e ≠ .exhausted) {fuel : Nat}
    {steps : List Step} (hl : l.active = true)
    (hfuel : sizeOf steps + (sizeOf lib.routines + 1) * lib.room l < fuel) :
    Ends l l' (observed (insist (Confined lib) e) lib fuel steps) := by
  induction fuel generalizing steps l l' with
  | zero => omega
  | succ fuel ih =>
    have hlook : ∀ o, Ends l l' (insist (Confined lib) e o) := by
      intro o s _ _
      rcases insist_apply (Confined lib) e o s with h | ⟨x, rfl, h⟩
      · exact .of_apply h nofun rfl rfl
      · exact .of_apply h (fun heq => hend (Except.error.inj heq)) rfl rfl
    refine (Ends.forM fun st hst s hs hs' => ?_).bind fun _ => hlook none
    by_cases hconf : Confined lib (some st) s
    · have hok : insist (Confined lib) e (some st) s = (.ok (), s) := if_pos hconf
      have hstep : EndsFrom s (step (observed (insist (Confined lib) e) lib fuel) lib fuel st) := by
        subst hs hs'
        refine endsFrom_step (endsFrom_perform hl ((hconf st rfl fuel).insist he) ?_ ?_)
        · -- a body of the step is smaller than the body that the step is in
          intro b hb k k' hk hroom
          have hsize : sizeOf st < sizeOf steps := sizeOf_lt_of_mem hst
          have hbody := Step.sizeOf_bodies hb
          have hmul := Nat.mul_le_mul_left (sizeOf lib.routines + 1) hroom
          exact ih hk (by omega)
        · -- the body of a routine leaves less room
          intro key r hr k k' hk hroom
          have hbody := hr.sizeOf_body
          have hmul := Nat.mul_le_mul_left (sizeOf lib.routines + 1) (Nat.succ_le_of_lt hroom)
          rw [Nat.mul_succ] at hmul
          exact ih (hk.trans hl) (by omega)
      refine .of_apply (bind_of_ok hok _) hstep.ends hstep.ctx hstep.finished
    · have herr : insist (Confined lib) e (some st) s = (.error e, s) := if_neg hconf
      exact .of_apply (bind_of_error herr _) (fun heq => hend (Except.error.inj heq)) rfl rfl

end run

/-! ### Builds -/

theorem ends_buildProgram {again : Runner} {r : Routine} {config : BuildConfig} {args : List Value}
    (hb : ∀ l', Ends ⟨[], [], true⟩ l' (again r.body)) (s : State) :
    (buildProgram again r config args s).1 ≠ .error .exhausted := by
  let i : (ending again).Place := (s.ctx.level, s.finished.level)
  have hends : (ending again).Holds i (buildProgram · r config args) :=
    (ending again).buildProgram trivial (fun j hj => hj ▸ hb _) config
  exact (hends s rfl rfl).ends

theorem buildProgram_of_le {lib : Library} {fuel fuel' : Nat} (hle : fuel ≤ fuel') {r : Routine}
    {config : BuildConfig} {args : List Value} {s : State}
    (h : (buildProgram (run lib fuel) r config args s).1 ≠ .error .exhausted) :
    buildProgram (run lib fuel') r config args s = buildProgram (run lib fuel) r config args s := by
  have hX : ∀ x, Stop.error x ≠ .exhausted := fun x h => by cases h
  have hruns := runs_cut (X := (· = .exhausted)) hX (g := fun _ => pure ()) (fun _ _ => .inl rfl) lib
    (.inr ⟨hle, rfl⟩ : Turns _ fuel fuel')
  rw [observed_idle] at hruns
  refine (follows_buildProgram (o := s.ctx) (E := fun _ => True) (fun _ _ _ _ => trivial) hruns.plain
    (routine_obeys_discipline _ r) (fun v _ => v.over_true) (over_discipline _ s) trivial).agrees
    (fun _ _ => trivial) (fun _ _ => trivial) ?_
  rintro ⟨e, he, rfl⟩
  exact h he

/-- A build of which all stays within it ends, if there is fuel for all routines of the library. -/
theorem buildProgram_ends (lib : Library) (r : Routine) : ∃ bound, ∀ fuel ≥ bound, ∀ config args s,
      Throughout lib fuel (Confined lib) (buildProgram · r config args) s →
      (buildProgram (run lib fuel) r config args s).1 ≠ .error .exhausted := by
  refine ⟨sizeOf r.body + (sizeOf lib.routines + 1) * lib.routines.length + 1, fun fuel hfuel config args s h => ?_⟩
  rw [← h.insist (.fault .missingPart)]
  have hmul := Nat.mul_le_mul_left (sizeOf lib.routines + 1) (lib.room_le ⟨[], [], true⟩)
  have hbody : ∀ l', Ends ⟨[], [], true⟩ l'
      (observed (insist (Confined lib) (.fault .missingPart)) lib fuel r.body) :=
    fun l' => ends_observed (fun _ h => by cases h) (fun h => by cases h) rfl (by omega)
  exact ends_buildProgram hbody s

/-- As long as no program and no gate definition is opened by hand, the bodies in progress at any moment
of a build belong to different routines, with a program for each subroutine in conversion. A build of
which all stays within it, and in which no loop is turned while converting, comes to an end: with enough
fuel it does not run out, and more fuel makes no difference. -/
theorem recursion_guarded :
    (∀ (lib : Library) (fuel : Nat) (r : Routine) (config : BuildConfig) (args : List Value) (s : State),
      Throughout lib fuel (fun o _ => ∀ st, o = some st → ¬ st.action.IsByHand)
        (buildProgram · r config args) s →
      Throughout lib fuel
        (fun _ t => t.ctx.Guarded lib ∧
          t.ctx.converting.length + t.ctx.gates.length ≤ lib.routines.length)
        (buildProgram · r config args) s) ∧
    ∀ (lib : Library) (r : Routine), ∃ bound, ∀ fuel ≥ bound,
      ∀ (config : BuildConfig) (args : List Value) (s : State),
      Throughout lib fuel (Confined lib) (buildProgram · r config args) s →
      (buildProgram (run lib fuel) r config args s).1 ≠ .error .exhausted ∧
      ∀ fuel' ≥ fuel, buildProgram (run lib fuel') r config args s =
        buildProgram (run lib fuel) r config args s := by
  refine ⟨fun lib fuel r config args s h => ?_, fun lib r => ?_⟩
  · exact (throughout_guarded h).mono fun _ _ hguard => ⟨hguard, hguard.length_le⟩
  · obtain ⟨bound, hbound⟩ := buildProgram_ends lib r
    refine ⟨bound, fun fuel hfuel config args s h => ?_⟩
    have hend := hbound fuel hfuel config args s h
    exact ⟨hend, fun fuel' hle => buildProgram_of_le hle hend⟩

def cycleMain : Routine :=
  .main "main" [.mk (.call "ping" []) none false .own, .mk (.call "main" []) none false .own] []

/-- Two subroutines that call each other, a gate, and the main program. -/
def cycleLibrary : Library :=
  .ofRoutines
    [.subroutine "ping" [] none [.mk (.call "pong" []) none false .own] (.const .none),
     .subroutine "pong" [] none [.mk (.call "ping" []) none false .own,
       .mk (.call "flip" [.const (.int .word 0)]) none false .own] (.const .none),
     .gate "flip" [⟨"a", some (.qubit 0)⟩] [.mk (.gate ⟨"x", 1, 0⟩ [.arg 0]) none false .own],
     cycleMain]

/-- A call or a gate, in the context that goes on. -/
def IsPlain (st : Step) : Prop :=
  st.handle = .own ∧ ((∃ id args, st.action = .call id args) ∨ ∃ g os, st.action = .gate g os)

theorem IsPlain.bodies (h : IsPlain st) : st.action.bodies = [] := by
  obtain ⟨-, ⟨id, args, h⟩ | ⟨g, os, h⟩⟩ := h <;> rw [h] <;> rfl

theorem recursion_guarded_cycle :
    (buildProgram (run cycleLibrary 5) cycleMain {} [] {}).1.toOption.map
      (·.program.subroutines.map (·.name)) = some ["pong", "ping", "main"] ∧
    Throughout cycleLibrary 5 (fun _ t => t.ctx.Guarded cycleLibrary ∧
      t.ctx.converting.length + t.ctx.gates.length ≤ cycleLibrary.routines.length)
      (buildProgram · cycleMain {} []) {} ∧
    ∃ bound, ∀ fuel ≥ bound, buildProgram (run cycleLibrary fuel) cycleMain {} [] {} =
        buildProgram (run cycleLibrary bound) cycleMain {} [] {} ∧
      (buildProgram (run cycleLibrary fuel) cycleMain {} [] {}).1 ≠ .error .exhausted := by
  have hbodies : ∀ st, IsPlain st → ∀ b ∈ st.action.bodies, ∀ st' ∈ b, IsPlain st' := by
    intro st hst b hb
    rw [hst.bodies] at hb
    cases hb
  have hlib : ∀ x ∈ cycleLibrary.routines, ∀ st ∈ x.2.body, IsPlain st := by
    simp [cycleLibrary, cycleMain, Library.ofRoutines, Routine.subroutine, Routine.gate, Routine.main,
      IsPlain, Step.handle, Step.action]
  have hmain : ∀ st ∈ cycleMain.body, IsPlain st :=
    hlib ("main", cycleMain) (List.mem_map.2 ⟨cycleMain, by simp, rfl⟩)
  have hplain : ∀ {fuel}, Throughout cycleLibrary fuel (fun o _ => ∀ st, o = some st → IsPlain st)
      (buildProgram · cycleMain {} []) {} :=
    throughout_of_steps hbodies hlib (fun st hst _ st' h => Option.some.inj h ▸ hst)
      (fun _ _ h => by cases h) hmain
  have hconfined : ∀ {fuel}, Throughout cycleLibrary fuel (Confined cycleLibrary)
      (buildProgram · cycleMain {} []) {} := by
    refine hplain.mono fun o t ho st hst n => ?_
    obtain ⟨hown, ⟨id, args, h⟩ | ⟨g, os, h⟩⟩ := ho st hst
    · rw [h]
      exact hown
    · rw [h]
      trivial
  have hbyHand : Throughout cycleLibrary 5 (fun o _ => ∀ st, o = some st → ¬ st.action.IsByHand)
      (buildProgram · cycleMain {} []) {} := by
    refine hplain.mono fun o _ ho st hst => ?_
    obtain ⟨-, ⟨id, args, h⟩ | ⟨g, os, h⟩⟩ := ho st hst <;> rw [h] <;> exact not_false
  obtain ⟨bound, hbound⟩ := recursion_guarded.2 cycleLibrary cycleMain
  have hends : (buildProgram (run cycleLibrary 5) cycleMain {} [] {}).1.toOption.map
      (·.program.subroutines.map (·.name)) = some ["pong", "ping", "main"] := by decide +kernel
  have hguarded := recursion_guarded.1 cycleLibrary 5 cycleMain {} [] {} hbyHand
  refine ⟨hends, hguarded, bound, fun fuel hfuel => ⟨?_, ?_⟩⟩
  · exact (hbound bound le_rfl {} [] {} hconfined).2 fuel hfuel
  · exact (hbound fuel hfuel {} [] {} hconfined).1

def pushMain : Routine :=
  .main "main" [.mk (.inProgram [.mk .stacks none false .own]) none false .own] []

/-- It opens the definition of a gate, by hand, within a definition of the same name. -/
def nestedGateMain : Routine :=
  .main "main" [.mk (.gateDef "g" [] [.mk (.gateDef "g" [] []) none false .own]) none false .own] []

/-- In a program that was opened by hand there are two programs on the stack while no subroutine is in
conversion, and gates that are defined by hand may have the same name. -/
theorem unguarded_byHand :
    ¬ Throughout ⟨[]⟩ 3 (fun _ t => decide (t.ctx.stackSize = t.ctx.converting.length + 1) = true)
      (buildProgram · pushMain {} []) {} ∧
    ¬ Throughout ⟨[]⟩ 3 (fun _ t => decide (t.ctx.gates.map (·.name)).Nodup = true)
      (buildProgram · nestedGateMain {} []) {} := by
  refine ⟨not_throughout_of_stopUnless ?_ ?_, not_throughout_of_stopUnless ?_ ?_⟩
  all_goals decide +kernel

end Convert

end QasmStudio

import QasmStudio.Proofs.Convert.Judgement

/-!
# Errors that come up from bodies

An operation runs bodies through a runner, and nothing inside of an operation catches: the first body
that stops is the last that is run. `instead again b v r` is the runner `again` with another result for
the body `b` at the state `v`. For an operation `F` and a pair `b`, `v`, either the result makes no
difference, or `F` comes to run `b` at `v`, and then whatever stops `b` there stops `F`.

`Relays P w F` says this, and that an error of a body leaves `F` as `w` makes it (`id` for most, a tag for
an operator, a settled error for a call). All other errors that `F` stops with are its own and satisfy
`P`: in the end, that they are bare (`Error.IsBare`). This is a judgement (`relaying`).
-/

namespace QasmStudio

namespace Error

theorem untagged_of_positions {e : Error} (h : e.positions = 0) : e.untagged? = none := by
  induction e with
  | inResult _ e ih => exact ih h
  | tagged | settled => cases h
  | _ => rfl

theorem IsBare.settle {e : Error} (h : e.IsBare) : e.settle = e := by
  rw [Error.settle, untagged_of_positions h.positions]

end Error

/-- The stop, with its error changed if it is one. -/
def Stop.map (w : Error → Error) : Stop → Stop
  | .error e => .error (w e)
  | stop => stop

namespace Convert

variable {α β : Type} {P Q : Error → Prop}

/-! ### What an operation does with the results of its bodies -/

open Classical in
/-- The runner, with another result for the body `b` at the state `v`. -/
noncomputable def instead (again : Runner) (b : List Step) (v : State) (r : Except Stop Unit × State) :
    Runner := fun steps s => if steps = b ∧ s = v then r else again steps s

theorem instead_at (again : Runner) (b : List Step) (v : State) (r : Except Stop Unit × State) :
    instead again b v r b v = r := if_pos ⟨rfl, rfl⟩

theorem instead_other {again : Runner} {b b' : List Step} {v v' : State} {r : Except Stop Unit × State}
    (h : ¬ (b' = b ∧ v' = v)) : instead again b v r b' v' = again b' v' := if_neg h

theorem instead_same (again : Runner) (b : List Step) (v : State) : instead again b v (again b v) = again := by
  funext steps s
  by_cases h : steps = b ∧ s = v
  · rw [h.1, h.2, instead_at]
  · exact instead_other h

/-- The operation comes to run the body `b` at the state `v`: what stops it there stops the operation,
errors changed by `w`. -/
def Asks (w : Error → Error) (again : Runner) (F : Runner → Convert α) (s : State) (b : List Step)
    (v : State) : Prop :=
  ∀ stop u, ∃ u', F (instead again b v (.error stop, u)) s = (.error (stop.map w), u')

/-- Either a body at a state makes no difference or the operation comes to run it. An error is that of a
body it runs, changed by `w`, or one of its own. -/
structure Relays (P : Error → Prop) (w : Error → Error) (F : Runner → Convert α) : Prop where
  asks : ∀ again s b v, (∀ r, F (instead again b v r) s = F again s) ∨ Asks w again F s b v
  raises : ∀ again s e u, F again s = (.error (.error e), u) →
    P e ∨ ∃ b v e' u', again b v = (.error (.error e'), u') ∧ Asks w again F s b v

namespace Relays
variable {w : Error → Error} {F : Runner → Convert α} {G : α → Runner → Convert β}

theorem const {m : Convert α} (h : ∀ s e u, m s = (.error (.error e), u) → P e) : Relays P w fun _ => m :=
  ⟨fun _ _ _ _ => .inl fun _ => rfl, fun _ s e u he => .inl (h s e u he)⟩

theorem body (b : List Step) : Relays P id fun again => again b := by
  have hasks : ∀ again s, Asks id again (fun again => again b) s b s := by
    intro again s stop u
    refine ⟨u, (instead_at again b s _).trans ?_⟩
    cases stop <;> rfl
  refine ⟨fun again s b' v => ?_, fun again s e u he => .inr ⟨b, s, e, u, he, hasks again s⟩⟩
  by_cases h : b = b' ∧ s = v
  · obtain ⟨rfl, rfl⟩ := h
    exact .inr (hasks again s)
  · exact .inl fun r => instead_other h

theorem bind (hF : Relays P w F) (hG : ∀ a, Relays P w (G a)) :
    Relays P w fun again => F again >>= fun a => G a again := by
  have hfront : ∀ {again s b v}, Asks w again F s b v →
      Asks w again (fun again => F again >>= fun a => G a again) s b v := by
    intro again s b v h stop u
    obtain ⟨u', hu'⟩ := h stop u
    exact ⟨u', bind_of_error hu' _⟩
  -- `F` has not come to run the body, so it ends as it does
  have hback : ∀ {again s b v a t}, (∀ r, F (instead again b v r) s = F again s) → F again s = (.ok a, t) →
      Asks w again (G a) t b v → Asks w again (fun again => F again >>= fun a => G a again) s b v := by
    intro again s b v a t hsame hok h stop u
    obtain ⟨u', hu'⟩ := h stop u
    exact ⟨u', (bind_of_ok ((hsame _).trans hok) _).trans hu'⟩
  refine ⟨fun again s b v => ?_, fun again s e u he => ?_⟩
  · rcases hF.asks again s b v with hsame | hasks
    · rcases hr : F again s with ⟨stop | a, t⟩
      · refine .inl fun r => ?_
        rw [bind_of_error ((hsame r).trans hr), bind_of_error hr]
      · rcases (hG a).asks again t b v with hsame' | hasks
        · refine .inl fun r => ?_
          rw [bind_of_ok ((hsame r).trans hr), bind_of_ok hr, hsame' r]
        · exact .inr (hback hsame hr hasks)
    · exact .inr (hfront hasks)
  · rcases hr : F again s with ⟨stop | a, t⟩
    · rw [bind_of_error hr] at he
      cases he
      refine (hF.raises again s e u hr).imp_right ?_
      rintro ⟨b, v, e', u', hb, hasks⟩
      exact ⟨b, v, e', u', hb, hfront hasks⟩
    · rw [bind_of_ok hr] at he
      refine ((hG a).raises again t e u he).imp_right ?_
      rintro ⟨b, v, e', u', hb, hasks⟩
      rcases hF.asks again s b v with hsame | hasks'
      · exact ⟨b, v, e', u', hb, hback hsame hr hasks⟩
      · exact ⟨b, v, e', u', hb, hfront hasks'⟩

theorem given {m : Convert α} {Q : State → α → Prop} (hP : ∀ e, Error.IsBare e → P e) (hm : ∀ s, Reads m s (Q s))
    (hG : ∀ s a, Q s a → Relays P w (G a)) : Relays P w fun again => m >>= fun a => G a again := by
  refine ⟨fun again s b v => ?_, fun again s e u he => ?_⟩
  · rcases hm s with ⟨x, -, hx⟩ | ⟨a, ha, hq⟩
    · exact .inl fun _ => (bind_of_error hx _).trans (bind_of_error hx _).symm
    · refine ((hG s a hq).asks again s b v).imp (fun hsame r => ?_) fun hasks stop u => ?_
      · rw [bind_of_ok ha, bind_of_ok ha, hsame r]
      · obtain ⟨u', hu'⟩ := hasks stop u
        exact ⟨u', (bind_of_ok ha _).trans hu'⟩
  · rcases hm s with ⟨x, hx, hs⟩ | ⟨a, ha, hq⟩
    · rw [bind_of_error hs] at he
      cases he
      exact .inl (hP e hx.own)
    · rw [bind_of_ok ha] at he
      refine ((hG s a hq).raises again s e u he).imp_right ?_
      rintro ⟨b, v, e', u', hb, hasks⟩
      refine ⟨b, v, e', u', hb, fun stop u => ?_⟩
      obtain ⟨u', hu'⟩ := hasks stop u
      exact ⟨u', (bind_of_ok ha _).trans hu'⟩

theorem mapError {f : Error → Error} (h : Relays P w F) (hPQ : ∀ e, P e → Q (f e)) :
    Relays Q (fun e => f (w e)) fun again => mapError f (F again) := by
  have hmap : ∀ {again s b v}, Asks w again F s b v →
      Asks (fun e => f (w e)) again (fun again => Convert.mapError f (F again)) s b v := by
    intro again s b v hasks stop u
    obtain ⟨u', hu'⟩ := hasks stop u
    refine ⟨u', ?_⟩
    show Convert.mapError f (F (instead again b v (.error stop, u))) s = _
    unfold Convert.mapError
    rw [hu']
    cases stop <;> rfl
  refine ⟨fun again s b v => ?_, fun again s e u he => ?_⟩
  · refine (h.asks again s b v).imp (fun hsame r => ?_) hmap
    unfold Convert.mapError
    rw [hsame r]
  · rcases hr : F again s with ⟨(e' | _ | _ | _) | a, t⟩
    · rw [mapError_of_error hr] at he
      cases he
      refine (h.raises again s e' u hr).imp (hPQ e') ?_
      rintro ⟨b, v, x, u', hb, hasks⟩
      exact ⟨b, v, x, u', hb, hmap hasks⟩
    all_goals
      unfold Convert.mapError at he
      rw [hr] at he
      cases he

theorem around {F' : Runner → Convert α} (enter : State → State) (leave : State → State → State) (h : Relays P w F)
    (hF' : ∀ again s, F' again s = ((F again (enter s)).1, leave s (F again (enter s)).2)) :
    Relays P w F' := by
  have hasks : ∀ {again s b v}, Asks w again F (enter s) b v → Asks w again F' s b v := by
    intro again s b v hasks stop u
    obtain ⟨u', hu'⟩ := hasks stop u
    refine ⟨leave s u', ?_⟩
    rw [hF', hu']
  refine ⟨fun again s b v => ?_, fun again s e u he => ?_⟩
  · refine (h.asks again (enter s) b v).imp (fun hsame r => ?_) hasks
    rw [hF', hF', hsame r]
  · rw [hF'] at he
    rcases hr : F again (enter s) with ⟨r, t⟩
    rw [hr] at he
    cases he
    refine (h.raises again (enter s) e t hr).imp_right ?_
    rintro ⟨b, v, e', u', hb, h⟩
    exact ⟨b, v, e', u', hb, hasks h⟩

theorem bracketContext (enter leave : Context → Context) (h : Relays P w F) :
    Relays P w fun again => bracketContext enter leave (F again) :=
  h.around (fun s => { s with ctx := enter s.ctx }) (fun _ t => { t with ctx := leave t.ctx }) fun _ _ => rfl

theorem block {F : Runner → Convert Unit} (h : Relays P w F) : Relays P w fun again => block (F again) :=
  .bracketContext _ _ (.bind h fun _ => .const fun _ _ _ he => by cases he)

end Relays

theorem Mild.relays {m : Convert α} (h : ∀ s, Mild m s)
    (he : (∀ e, Error.IsBare e → P e) ∨ ∀ s e, (m s).1 ≠ .error (.error e)) {w : Error → Error} :
    Relays P w fun _ => m := by
  refine .const fun s e u hm => ?_
  rcases he with hP | hne
  · exact hP e ((h s).own (.error e) (by rw [hm]))
  · exact absurd (congrArg Prod.fst hm) (hne s e)

/-! ### Operations -/

/-- A place tells which errors an operation may have of its own, and what becomes of those of its bodies. What
is under a tag has none of its own. -/
def relaying : Judgement where
  Place := (Error → Prop) × (Error → Error)
  Holds i := fun {_} F => Relays i.1 i.2 F
  Works i := ∀ e, Error.IsBare e → i.1 e
  Fails i := ∀ e, Error.IsBare e → i.1 e
  Tags i := i.2 = Error.tag
  Settles i := i = (Error.IsBare, Error.settle)
  tagged _ := (fun _ => False, id)
  settled _ := (Error.IsBare, id)
  exchanged i := i
  Starts i j := j = i
  works_fails h := h
  works_settled _ _ _ h := h
  fails_exchanged h := h
  fails_gated h _ := h
  defining_open h _ _ _ := ⟨h, trivial⟩
  starts_open h hj := hj ▸ ⟨h, trivial⟩
  leaf hm he _ := Mild.relays (fun s => (hm s).toMild) he
  bind := .bind
  given hf hm hG := .given hf hm fun s a => hG s a trivial
  applyGate hf := Mild.relays (fun _ => (neat_applyGate (p := True)).toMild) (.inl hf)
  register hf hj := hj ▸ Mild.relays (fun _ => mild_declareRegister) (.inl hf)
  tagging := by
    rintro ⟨P, w⟩ α F rfl h
    exact h.mapError fun _ he => he.elim
  settling := by
    rintro i α F rfl h
    exact h.mapError fun e (he : e.IsBare) => (he.settle.symm ▸ he : e.settle.IsBare)
  block _ hF hG := .bind hF.block fun sts => hG sts nofun
  turn _ hF := hF.block
  box := by
    rintro ⟨P, w⟩ F - rfl h
    refine .bracketContext _ _ (.bind (h.block.mapError fun _ he => he.elim) fun _ => ?_)
    exact .const fun _ _ _ he => by cases he
  program h := .bracketContext _ _ h
  define _ _ _ h := .bracketContext _ _ (.bracketContext _ _ h)
  gate hf _ h := by
    unfold defineGate withGate
    refine .bracketContext _ _ (.given hf (reads_allow _) fun _ _ _ => .bind h.block fun _ => ?_)
    refine .given hf reads_context fun _ _ _ => ?_
    split <;> exact .const fun _ _ _ he => by cases he
  calibration hf h := by
    unfold defineCalibration withCalibration
    refine .bracketContext _ _ (.given hf (reads_allow _) fun _ _ _ => .bind h.block fun _ => ?_)
    exact .const fun _ _ _ he => by cases he
  bindings {_ b} _ _ h :=
    h.around ({ · with bindings := b }) (fun s t => { t with bindings := s.bindings }) fun _ _ => rfl
  start {_ config} _ _ h := (h _ rfl).around (·.started config) State.ended fun _ _ => rfl
  exchanging h := h.around exchange (fun _ => exchange) fun _ _ => rfl

end Convert

end QasmStudio

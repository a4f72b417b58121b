import QasmStudio.Proofs.Convert.Operations

/-!
# Two conversions side by side

`Follows d A B o E m m' s Q`: from `s` the conversion `m` works on the two contexts as a build does, and
`m'` does the same as `m` if every context that can be passed from `o` satisfies `A`, and every one from
the finished context `B`. Every exit of `m` leaves a context that satisfies `E`; a result satisfies `Q`.
Nothing is said of an exit that the policy excuses.

The two conversions differ in how they run the bodies in them. A conversion with a body is `Faithful` if
the body is, so the judgement climbs from bodies to the operations around them.
-/

namespace QasmStudio
variable {s : State} {d : Discipline}

/-- The name of the variable with the latest result is in `N`. -/
def Context.Returns (N : String → Prop) (c : Context) : Prop := ∀ v, c.returned = some v → N v.name

theorem Acts.returns {c c' : Context} (h : Acts d c c') (hc : c.Returns d.name) : c'.Returns d.name := by
  induction h with
  | refl => exact hc
  | trans _ _ ih₁ ih₂ => exact ih₂ (ih₁ hc)
  | returned hv => exact hv
  | _ => exact hc

theorem Writes.returns {c c' : Context} (h : Writes d c c') (hc : c.Returns d.name) : c'.Returns d.name :=
  h.related (R := fun x y => (∀ v, x.2.1 = some v → d.name v.name) → ∀ v, y.2.1 = some v → d.name v.name)
    (fun h₁ h₂ hx => h₂ (h₁ hx)) (fun ha => ha.returns) hc

/-- The values at hand are over the names that the discipline allows. -/
structure State.Over (d : Discipline) (s : State) : Prop where
  bindings : s.bindings.Over d.name
  ctx : s.ctx.Returns d.name
  finished : s.finished.Returns d.name

theorem State.Over.writes {c : Context} (h : s.Over d) (hw : Writes d s.ctx c) : State.Over d { s with ctx := c } :=
  ⟨h.bindings, hw.returns h.ctx, h.finished⟩

/-- New names may be given out in both contexts. -/
def State.Counts (d : Discipline) (s : State) : Prop :=
  d.policy.number s.ctx.nextVar ∧ d.policy.number s.finished.nextVar

/-- From `s` a state `t` has been reached whose context satisfies `E`. -/
structure State.Reaches (d : Discipline) (E : Context → Prop) (s t : State) : Prop where
  ctx : E t.ctx
  finished : Writes d s.finished t.finished
  names : t.Over d

/-- The result is a stop after which nothing is known. -/
def Policy.Excused {α : Type} (π : Policy) (r : Except Stop α) : Prop := ∃ e, r = .error e ∧ π.excuses e

namespace Convert

variable {α β : Type} {A B : Context → Prop} {o : Context} {E F : Context → Prop}

structure Follows (d : Discipline) (A B : Context → Prop) (o : Context) (E : Context → Prop)
    (m m' : Convert α) (s : State) (Q : α → State → Prop) : Prop where
  reaches : ¬ d.policy.Excused (m s).1 → s.Reaches d E (m s).2
  result : ∀ a, (m s).1 = .ok a → Q a (m s).2
  agrees : Quiet d A o → Quiet d B s.finished → ¬ d.policy.Excused (m s).1 → m' s = m s

/-- A stretch of a build from wherever it starts, with a result that satisfies `Q`. -/
def Faithful (d : Discipline) (A B : Context → Prop) (m m' : Convert α) (Q : α → Prop) : Prop :=
  ∀ s : State, s.Over d → Follows d A B s.ctx (Writes d s.ctx) m m' s fun a _ => Q a

/-- A stretch of a build after which new names may be given out. -/
def FaithfulBody (d : Discipline) (A B : Context → Prop) (m m' : Convert Unit) : Prop :=
  ∀ s : State, s.Over d → Follows d A B s.ctx (Writes d s.ctx) m m' s fun _ t => t.Counts d

theorem not_excused_ok (π : Policy) (a : α) : ¬ π.Excused (.ok a : Except Stop α) := by
  rintro ⟨e, he, -⟩
  cases he

theorem not_excused_error (π : Policy) (e : Error) : ¬ π.Excused (.error (.error e) : Except Stop α) := by
  rintro ⟨_, he, hx⟩
  cases he
  exact π.caught e hx

namespace Follows
variable {m m' : Convert α} {P Q R : α → State → Prop} {T : β → State → Prop}

theorem mono (h : Follows d A B o E m m' s P) (hE : ∀ c, E c → F c) (hQ : ∀ a t, P a t → Q a t) :
    Follows d A B o F m m' s Q :=
  ⟨fun hx => have hr := h.reaches hx; ⟨hE _ hr.ctx, hr.finished, hr.names⟩,
    fun a ha => hQ a _ (h.result a ha), h.agrees⟩

/-- A result comes with the exit it is given at, and with the equation that gives it. -/
theorem traced (h : Follows d A B o E m m' s Q) :
    Follows d A B o E m m' s fun a t => Q a t ∧ E t.ctx ∧ m s = (.ok a, t) := by
  refine ⟨h.reaches, fun a ha => ⟨h.result a ha, (h.reaches ?_).ctx, Prod.ext ha rfl⟩, h.agrees⟩
  rw [ha]
  exact not_excused_ok d.policy a

theorem since {o' : Context} (h : Follows d A B o E m m' s Q) (ho : Quiet d A o' → Quiet d A o) :
    Follows d A B o' E m m' s Q :=
  ⟨h.reaches, h.result, fun ha hb => h.agrees (ho ha) hb⟩

/-! ### Where nothing is excused -/

theorem exits (h : Follows d A B o E m m' s Q) (hd : ∀ e, ¬ d.policy.excuses e := by exact fun _ h => h) :
    E (m s).2.ctx :=
  (h.reaches fun ⟨e, _, he⟩ => hd e he).ctx

theorem finished (h : Follows d A B o E m m' s Q)
    (hd : ∀ e, ¬ d.policy.excuses e := by exact fun _ h => h) : Writes d s.finished (m s).2.finished :=
  (h.reaches fun ⟨e, _, he⟩ => hd e he).finished

theorem same (h : Follows d A B o E m m' s Q) (ha : Quiet d A o) (hb : Quiet d B s.finished)
    (hd : ∀ e, ¬ d.policy.excuses e := by exact fun _ h => h) : m' s = m s :=
  h.agrees ha hb fun ⟨e, _, he⟩ => hd e he

/-! ### Rules -/

theorem of_apply {r : Except Stop α} {t : State} (hm : m s = (r, t))
    (hE : ¬ d.policy.Excused r → s.Reaches d E t) (hr : ∀ a, r = .ok a → Q a t)
    (hsame : Quiet d A o → Quiet d B s.finished → ¬ d.policy.Excused r → m' s = (r, t)) :
    Follows d A B o E m m' s Q := by
  refine ⟨?_, ?_, ?_⟩ <;> rw [hm]
  exacts [hE, hr, hsame]

theorem apply (h : Follows d A B o E m m' s Q) : ∃ r t, m s = (r, t) ∧
    (¬ d.policy.Excused r → s.Reaches d E t) ∧ (∀ a, r = .ok a → Q a t) ∧
    (Quiet d A o → Quiet d B s.finished → ¬ d.policy.Excused r → m' s = (r, t)) :=
  ⟨_, _, rfl, h.reaches, h.result, h.agrees⟩

theorem excused {e : Stop} {t : State} (h : m s = (.error e, t)) (he : d.policy.excuses e) :
    Follows d A B o E m m' s Q :=
  have hx : d.policy.Excused (.error e : Except Stop α) := ⟨e, rfl, he⟩
  of_apply h (fun hn => absurd hx hn) (fun _ hr => by cases hr) fun _ _ hn => absurd hx hn

theorem of_goes {T : α → Context → Prop} (h : Goes d m s T) (hs : s.Over d) (hE : ∀ c, Writes d s.ctx c → E c) :
    Follows d A B o E m m s (fun a t => ∃ c, t = { s with ctx := c } ∧ Writes d s.ctx c ∧ T a c) := by
  obtain ⟨-, c, hc, hacts, ha⟩ := h
  have hw : Writes d s.ctx c := .acts hacts
  have hm : m s = ((m s).1, { s with ctx := c }) := Prod.ext rfl hc
  exact of_apply hm (fun _ => ⟨hE c hw, .refl, hs.writes hw⟩) (fun a h => ⟨c, rfl, hw, ha a h⟩) fun _ _ _ => hm

theorem of_error {e : Stop} (h : m s = (.error e, s)) (hs : s.Over d) (hE : E s.ctx) : Follows d A B o E m m s Q :=
  of_apply h (fun _ => ⟨hE, .refl, hs⟩) (fun _ hr => by cases hr) fun _ _ _ => h

theorem of_reads {T : α → Prop} (h : Reads m s T) (hs : s.Over d) (hE : E s.ctx) :
    Follows d A B o E m m s (fun a t => t = s ∧ T a) := by
  rcases h with ⟨e, -, h⟩ | ⟨a, h, ha⟩
  · exact of_error h hs hE
  · refine of_apply h (fun _ => ⟨hE, .refl, hs⟩) (fun b hb => ?_) fun _ _ _ => h
    cases hb
    exact ⟨rfl, ha⟩

theorem pure {a : α} (hs : s.Over d) (hE : E s.ctx) (hQ : Q a s) : Follows d A B o E (pure a) (pure a) s Q :=
  of_apply (pure_apply a s) (fun _ => ⟨hE, .refl, hs⟩) (fun b hb => by cases hb; exact hQ) fun _ _ _ => rfl

theorem update {f : Context → Context} {T : Unit → State → Prop} (hs : s.Over d)
    (hr : (f s.ctx).returned = s.ctx.returned) (hE : E (f s.ctx)) (hT : T () { s with ctx := f s.ctx }) :
    Follows d A B o E (updateContext f) (updateContext f) s T := by
  have hover : State.Over d { s with ctx := f s.ctx } := ⟨hs.bindings, fun v hv => hs.ctx v (hr ▸ hv), hs.finished⟩
  exact of_apply (updateContext_apply f s) (fun _ => ⟨hE, .refl, hover⟩) (fun _ _ => hT) fun _ _ _ => rfl

theorem emit {st : Stmt} {T : Unit → State → Prop} (hs : s.Over d) (hE : E (s.ctx.emit st))
    (hT : T () { s with ctx := s.ctx.emit st }) : Follows d A B o E (emit st) (emit st) s T :=
  update (f := (·.emit st)) hs rfl hE hT

theorem bind {f f' : α → Convert β} (h : Follows d A B o E m m' s P) (hE : ∀ c, E c → F c)
    (hf : ∀ a t, t.Over d → E t.ctx → P a t → Follows d A B o F (f a) (f' a) t T) :
    Follows d A B o F (m >>= f) (m' >>= f') s T := by
  obtain ⟨r, t, hm, hreach, hres, hsame⟩ := h.apply
  cases r with
  | error e =>
    have hx : d.policy.Excused (.error e : Except Stop α) → d.policy.Excused (.error e : Except Stop β) := by
      rintro ⟨e', he, hex⟩
      cases he
      exact ⟨e, rfl, hex⟩
    refine of_apply (bind_of_error hm f) (fun hn => ?_) (fun _ hr => by cases hr)
      fun ha hb hn => bind_of_error (hsame ha hb fun he => hn (hx he)) f'
    have hr := hreach fun he => hn (hx he)
    exact ⟨hE _ hr.ctx, hr.finished, hr.names⟩
  | ok a =>
    have hx := not_excused_ok d.policy a
    have hr := hreach hx
    obtain ⟨r, u, hm₂, hreach₂, hres₂, hsame₂⟩ := (hf a t hr.names hr.ctx (hres a rfl)).apply
    refine of_apply ((bind_of_ok hm f).trans hm₂) (fun hn => ?_) hres₂ fun ha hb hn => ?_
    · have hr₂ := hreach₂ hn
      exact ⟨hr₂.ctx, hr.finished.trans hr₂.finished, hr₂.names⟩
    · rw [bind_of_ok (hsame ha hb hx) f']
      exact hsame₂ ha (hb.writes hr.finished) hn

/-- A change of the context that cannot fail is part of what follows. -/
theorem updateThen {g : Context → Context} {f f' : Unit → Convert β}
    (h : Follows d A B o E (f ()) (f' ()) { s with ctx := g s.ctx } T) :
    Follows d A B o E (updateContext g >>= f) (updateContext g >>= f') s T := by
  obtain ⟨r, t, hm, hreach, hres, hsame⟩ := h.apply
  have heq := updateContext_apply g s
  refine of_apply ((bind_of_ok heq f).trans hm) (fun hn => ?_) hres
    fun ha hb hn => (bind_of_ok heq f').trans (hsame ha hb hn)
  have hr := hreach hn
  exact ⟨hr.ctx, hr.finished, hr.names⟩

theorem seq {f f' : α → Convert β} {T : α → Prop} {U : β → State → Prop} (h : Reads m s T)
    (hs : s.Over d) (hE : E s.ctx) (hf : ∀ a, T a → Follows d A B o E (f a) (f' a) s U) :
    Follows d A B o E (m >>= f) (m >>= f') s U := by
  refine (of_reads h hs hE).bind (fun _ h => h) fun a t _ _ ht => ?_
  obtain ⟨rfl, ha⟩ := ht
  exact hf a ha

theorem refuse {e : DomainError} (hs : s.Over d) (hE : E s.ctx) :
    Follows d A B o E (refuse e) (refuse e) s Q := of_error (refuse_apply e s) hs hE

theorem refuseThen {e : DomainError} {f f' : α → Convert β} (hs : s.Over d)
    (hE : E s.ctx) : Follows d A B o E (Convert.refuse e >>= f) (Convert.refuse e >>= f') s T :=
  (refuse (Q := fun _ _ => False) hs hE).bind (fun _ h => h) fun _ _ _ _ h => h.elim

theorem goes {f f' : α → Convert β} {T : α → Context → Prop} {U : β → State → Prop}
    (h : Goes d m s T) (hs : s.Over d) (hE : ∀ c, Writes d s.ctx c → E c)
    (hf : ∀ a c, Writes d s.ctx c → State.Over d { s with ctx := c } → T a c →
      Follows d A B o E (f a) (f' a) { s with ctx := c } U) :
    Follows d A B o E (m >>= f) (m >>= f') s U := by
  refine (of_goes h hs hE).bind (fun _ h => h) fun a t ht _ hc => ?_
  obtain ⟨c, rfl, hw, hT⟩ := hc
  exact hf a c hw ht hT

theorem mapError {g : Error → Error} (h : Follows d A B o E m m' s Q) :
    Follows d A B o E (mapError g m) (mapError g m') s Q := by
  obtain ⟨r, t, hm, hreach, hres, hsame⟩ := h.apply
  by_cases herror : ∃ e, r = .error (.error e)
  · obtain ⟨e, rfl⟩ := herror
    have hx := not_excused_error (α := α) d.policy e
    exact of_apply (mapError_of_error hm) (fun _ => hreach hx) (fun _ hr => by cases hr)
      fun ha hb _ => mapError_of_error (hsame ha hb hx)
  · have hne : ∀ e, r ≠ .error (.error e) := fun e he => herror ⟨e, he⟩
    exact of_apply (mapError_of_ne hm hne) hreach hres fun ha hb hn => mapError_of_ne (hsame ha hb hn) hne

theorem bracketContext {enter leave : Context → Context}
    (h : Follows d A B o (fun c => E (leave c)) m m' { s with ctx := enter s.ctx }
      (fun a t => Q a { t with ctx := leave t.ctx }))
    (hl : ∀ c, (leave c).returned = c.returned) :
    Follows d A B o E (bracketContext enter leave m) (bracketContext enter leave m') s Q := by
  obtain ⟨r, t, hm, hreach, hres, hsame⟩ := h.apply
  refine of_apply (t := { t with ctx := leave t.ctx }) (r := r) ?_ (fun hn => ?_) hres fun ha hb hn => ?_
  · rw [bracketContext_apply, hm]
  · have hr := hreach hn
    exact ⟨hr.ctx, hr.finished, hr.names.bindings,
      fun v hv => hr.names.ctx v ((hl t.ctx).symm.trans hv), hr.names.finished⟩
  · rw [bracketContext_apply, hsame ha hb hn]

theorem withBindings {b : Bindings} (hs : s.Over d) (h : Follows d A B o E m m' { s with bindings := b }
      (fun a t => Q a { t with bindings := s.bindings })) :
    Follows d A B o E (withBindings b m) (withBindings b m') s Q := by
  obtain ⟨r, t, hm, hreach, hres, hsame⟩ := h.apply
  refine of_apply (t := { t with bindings := s.bindings }) (r := r) ?_ (fun hn => ?_) hres fun ha hb hn => ?_
  · simp only [Convert.withBindings, hm]
  · have hr := hreach hn
    exact ⟨hr.ctx, hr.finished, hs.bindings, hr.names.ctx, hr.names.finished⟩
  · simp only [Convert.withBindings, hsame ha hb hn]

theorem inNewContext {config : BuildConfig} (hs : s.Over d) (hE : E s.ctx) (hA : Quiet d A (s.started config).ctx)
    (h : (s.started config).Over d → Follows d A B (s.started config).ctx (fun _ => True) m m'
      (s.started config) (fun a t => Q a (s.ended t))) :
    Follows d A B o E (inNewContext config m) (inNewContext config m') s Q := by
  have hstart : (s.started config).Over d := by
    refine ⟨hs.bindings, fun v hv => ?_, hs.finished⟩
    simp [State.started, Context.start] at hv
  obtain ⟨r, t, hm, hreach, hres, hsame⟩ := (h hstart).apply
  refine of_apply (t := s.ended t) (r := r) ?_ (fun hn => ?_) hres fun ha hb hn => ?_
  · rw [inNewContext_apply, hm]
  · have hr := hreach hn
    exact ⟨hE, hr.finished, hr.names.bindings, hs.ctx, hr.names.finished⟩
  · rw [inNewContext_apply, hsame hA hb hn]

theorem exchanging {c₀ : Context} (hE : ∀ c, Writes d s.ctx c → E c) (ho : Quiet d A o → Quiet d A s.ctx)
    (h : Follows d B A c₀ (Writes d s.finished) m m' (exchange s) (fun a t => Q a (exchange t)))
    (hc : Quiet d B s.finished → Quiet d B c₀) :
    Follows d A B o E (exchanging m) (exchanging m') s Q := by
  obtain ⟨r, t, hm, hreach, hres, hsame⟩ := h.apply
  refine of_apply (t := exchange t) (r := r) ?_ (fun hn => ?_) hres fun ha hb hn => ?_
  · simp only [Convert.exchanging, bracket, hm]
  · have hr := hreach hn
    exact ⟨hE _ hr.finished, hr.ctx, hr.names.bindings, hr.names.finished, hr.names.ctx⟩
  · simp only [Convert.exchanging, bracket, hsame (hc hb) (ho ha) hn]

end Follows

theorem FaithfulBody.plain {m m' : Convert Unit} (h : FaithfulBody d A B m m') :
    Faithful d A B m m' fun _ => True := fun s hs =>
  (h s hs).mono (fun _ hc => hc) fun _ _ _ => trivial

namespace Faithful
variable {m m' : Convert α} {P Q : α → Prop}

theorem after (h : Faithful d A B m m' Q) (hs : s.Over d) (ho : Writes d o s.ctx) :
    Follows d A B o (Writes d o) m m' s fun a _ => Q a :=
  ((h s hs).since fun hq => hq.writes ho).mono (fun _ hc => ho.trans hc) fun _ _ hQ => hQ

theorem of_goes (h : ∀ s, Goes d m s fun a _ => Q a) : Faithful d A B m m Q := fun s hs =>
  (Follows.of_goes (h s) hs fun _ hc => hc).mono (fun _ hc => hc) fun _ _ ⟨_, _, _, hQ⟩ => hQ

theorem bind {f f' : α → Convert β} {R : β → Prop} (h : Faithful d A B m m' P)
    (hf : ∀ a, P a → Faithful d A B (f a) (f' a) R) : Faithful d A B (m >>= f) (m' >>= f') R :=
  fun s hs => (h s hs).bind (fun _ hc => hc) fun a _ ht hw hP => (hf a hP).after ht hw

theorem forM {f f' : α → Convert PUnit} (h : ∀ a, Faithful d A B (f a) (f' a) fun _ => True)
    (as : List α) : Faithful d A B (as.forM f) (as.forM f') fun _ => True := by
  induction as with
  | nil => exact of_goes fun _ => .pure trivial
  | cons a as ih =>
    unfold List.forM
    exact (h a).bind fun _ _ => ih

theorem mapError {g : Error → Error} (h : Faithful d A B m m' Q) :
    Faithful d A B (mapError g m) (mapError g m') Q := fun s hs => (h s hs).mapError

theorem exchanging (h : Faithful d A B m m' Q) : Faithful d B A (exchanging m) (exchanging m') Q := by
  intro s hs
  have hex : (exchange s).Over d := ⟨hs.bindings, hs.finished, hs.ctx⟩
  exact .exchanging (fun _ hc => hc) (fun hq => hq) (h _ hex) fun hq => hq

/-- In whatever context an operation is carried out, its bodies are in their own. -/
theorem onHandle {n n' : (Convert Unit → Convert Unit) → Convert α} (h : Handle)
    (hown : Faithful d A B (n id) (n' id) Q)
    (hfin : Faithful d B A (n Convert.exchanging) (n' Convert.exchanging) Q) :
    Faithful d A B (onHandle h n) (onHandle h n') Q := by
  cases h with
  | own => exact hown
  | finished => exact hfin.exchanging
  | absent =>
    refine of_goes (m := liftFault (.error .missingPart)) fun s => ?_
    exact .of_reads (reads_liftFault _ s) fun _ h => by cases h

end Faithful

theorem Follows.onHandle {m : Convert α} {Q : α → Prop} (h : Handle) (hs : s.Over d)
    (hown : Goes d m s fun a _ => Q a) (hfin : Goes d m (exchange s) fun a _ => Q a) :
    Follows d A B s.ctx (Writes d s.ctx) (Convert.onHandle h fun _ => m) (Convert.onHandle h fun _ => m) s
      fun a _ => Q a := by
  have hgoes : ∀ {C D : Context → Prop} {t : State}, t.Over d → (Goes d m t fun a _ => Q a) →
      Follows d C D t.ctx (Writes d t.ctx) m m t fun a _ => Q a := fun ht hg =>
    (Follows.of_goes hg ht fun _ hc => hc).mono (fun _ hc => hc) fun _ _ ⟨_, _, _, hQ⟩ => hQ
  cases h with
  | own => exact hgoes hs hown
  | finished =>
    have hex : (exchange s).Over d := ⟨hs.bindings, hs.finished, hs.ctx⟩
    exact .exchanging (fun _ hc => hc) (fun hq => hq) (hgoes hex hfin) fun hq => hq
  | absent => exact .of_error (e := .fault .missingPart) rfl hs .refl

theorem Follows.goesOnHandle {m : Convert α} {Q : α → Prop} (h : Handle) (hs : s.Over d)
    (hm : ∀ t, Goes d m t fun a _ => Q a) :
    Follows d A B s.ctx (Writes d s.ctx) (Convert.onHandle h fun _ => m) (Convert.onHandle h fun _ => m) s
      fun a _ => Q a := .onHandle h hs (hm s) (hm _)

end Convert

end QasmStudio

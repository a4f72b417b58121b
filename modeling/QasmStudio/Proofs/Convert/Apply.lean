import Mathlib.Data.List.Forall2
import QasmStudio.Convert.Run

/-!
# Conversions as functions of the state

Equations for the primitive conversions at a state, and `Reads`: a conversion that leaves the state
as it is. Most checks and resolutions read, so an operation is a chain of reads that ends in one
change; `Reads.bind` peels such a chain from the front. What a reading stops with is said as well
(`Stop.IsRefusal`).
-/

namespace QasmStudio

namespace Error

def positions : Error → Nat
  | tagged e | settled e => e.positions + 1
  | inResult _ e => e.positions
  | _ => 0

/-- An error without positions, which is a converter error itself or has none in it. -/
structure IsBare (e : Error) : Prop where
  positions : e.positions = 0
  kind : (∃ d, e = .domain d) ∨ e.domain? = none

theorem isBare_domain (d : DomainError) : (Error.domain d).IsBare := ⟨rfl, .inl ⟨d, rfl⟩⟩

end Error

namespace Stop

/-- A stop that an operation makes by itself: there is fuel left, and an error is bare. -/
def IsOwn : Stop → Prop
  | error e => e.IsBare
  | exhausted => False
  | _ => True

/-- As `IsOwn`, where no variable is declared. -/
structure IsRefusal (stop : Stop) : Prop where
  own : stop.IsOwn
  undeclared : ∀ name, stop ≠ error (.alreadyDeclared name)

theorem IsOwn.ne_exhausted {stop : Stop} (h : stop.IsOwn) : stop ≠ exhausted := by
  rintro rfl
  exact h

end Stop

/-- The state in which a build inside of `s` starts. -/
def State.started (s : State) (config : BuildConfig) : State :=
  { s with
    ctx := Context.start (s.builds + 1) config (BuildId.ofBytes (s.entropy.take 16))
    builds := s.builds + 1
    roots := (s.ctx.build, s.ctx.root) :: s.roots
    entropy := s.entropy.drop 16 }

/-- The state after a build inside of `s` that ended in `t`. -/
def State.ended (s t : State) : State :=
  { t with ctx := s.ctx, roots := (s.builds + 1, t.ctx.root) :: t.roots }

namespace Convert

variable {α β : Type} {m : Convert α} {s : State}

/-! ### Equations -/

@[simp] theorem pure_apply (a : α) (s : State) : (pure a : Convert α) s = (.ok a, s) := rfl

@[simp] theorem throw_apply (e : Stop) (s : State) : (throw e : Convert α) s = (.error e, s) := rfl

@[simp] theorem get_apply (s : State) : (get : Convert State) s = (.ok s, s) := rfl

@[simp] theorem modify_apply (f : State → State) (s : State) : (modify f : Convert PUnit) s = (.ok (), f s) := rfl

theorem bind_apply (m : Convert α) (f : α → Convert β) (s : State) : (m >>= f) s = match m s with
      | (.ok a, s') => f a s'
      | (.error e, s') => (.error e, s') := by
  show (do let r ← m; _ : StateM State _) s = _
  simp only [bind, StateT.bind]
  rcases m s with ⟨_ | _, _⟩ <;> rfl

theorem bind_of_ok {s' : State} {a : α} (h : m s = (.ok a, s')) (f : α → Convert β) : (m >>= f) s = f a s' := by
  rw [bind_apply, h]

theorem bind_of_error {s' : State} {e : Stop} (h : m s = (.error e, s'))
    (f : α → Convert β) : (m >>= f) s = (.error e, s') := by
  rw [bind_apply, h]

theorem throw_bind (e : Stop) (f : α → Convert β) : (throw e : Convert α) >>= f = throw e :=
  funext fun _ => bind_of_error rfl f

@[simp] theorem raise_apply (e : Error) (s : State) : (raise e : Convert α) s = (.error (.error e), s) := rfl

@[simp] theorem refuse_apply (e : DomainError) (s : State) :
    (refuse e : Convert α) s = (.error (.error (.domain e)), s) := rfl

@[simp] theorem context_apply (s : State) : context s = (.ok s.ctx, s) := rfl

@[simp] theorem updateContext_apply (f : Context → Context) (s : State) :
    updateContext f s = (.ok (), { s with ctx := f s.ctx }) := rfl

@[simp] theorem updateRoot_apply (f : Program → Program) (s : State) :
    updateRoot f s = (.ok (), { s with ctx := s.ctx.updateRoot f }) := rfl

@[simp] theorem emit_apply (st : Stmt) (s : State) :
    emit st s = (.ok (), { s with ctx := s.ctx.updateCurrent (·.add st) }) := rfl

theorem bracketContext_apply (enter leave : Context → Context) (m : Convert α) (s : State) :
    bracketContext enter leave m s = ((m { s with ctx := enter s.ctx }).1,
        { (m { s with ctx := enter s.ctx }).2 with
          ctx := leave (m { s with ctx := enter s.ctx }).2.ctx }) := rfl

theorem inNewContext_apply (config : BuildConfig) (m : Convert α) (s : State) :
    inNewContext config m s = ((m (s.started config)).1, s.ended (m (s.started config)).2) := rfl

theorem mapError_apply (f : Error → Error) (m : Convert α) (s : State) :
    (mapError f m s).2 = (m s).2 ∧ ∀ a, (mapError f m s).1 = .ok a ↔ (m s).1 = .ok a := by
  unfold mapError
  rcases m s with ⟨(_ | _ | _ | _) | _, _⟩ <;> simp

theorem mapError_of_error {f : Error → Error} {t : State} {e : Error}
    (h : m s = (.error (.error e), t)) : mapError f m s = (.error (.error (f e)), t) := by
  unfold mapError
  rw [h]

theorem mapError_of_ne {f : Error → Error} {t : State} {r : Except Stop α}
    (h : m s = (r, t)) (hr : ∀ e, r ≠ .error (.error e)) : mapError f m s = (r, t) := by
  unfold mapError
  rw [h]
  rcases r with (e | _ | _ | _) | _
  · exact absurd rfl (hr e)
  all_goals rfl

theorem requireActive_of_active (h : s.ctx.active = true) (operation : String) :
    requireActive .own operation s = (.ok (), s) := by
  have hread : isActive .own s = (.ok true, s) := by
    show (Except.ok (s.ctx.active && s.ctx.active), s) = _
    rw [h]
    rfl
  rw [requireActive, bind_of_ok hread]
  rfl

theorem allow_of_refusal {mode : Mode} (h : s.ctx.refusal? mode = none) : allow mode s = (.ok (), s) := by
  rw [allow, bind_of_ok (context_apply s), h]
  rfl

/-! ### Where a result comes from -/

theorem exists_of_bind_ok {f : α → Convert β} {b : β} {t : State} (h : (m >>= f) s = (.ok b, t)) :
    ∃ a u, m s = (.ok a, u) ∧ f a u = (.ok b, t) := by
  rcases hm : m s with ⟨_ | a, u⟩
  · rw [bind_of_error hm] at h
    cases (Prod.ext_iff.1 h).1
  · rw [bind_of_ok hm] at h
    exact ⟨a, u, rfl, h⟩

theorem exists_of_bracketContext_ok {enter leave : Context → Context} {a : α}
    (h : bracketContext enter leave m s = (.ok a, t)) :
    ∃ u, m { s with ctx := enter s.ctx } = (.ok a, u) ∧ t = { u with ctx := leave u.ctx } := by
  obtain ⟨hres, hstate⟩ := Prod.ext_iff.1 h
  exact ⟨(m { s with ctx := enter s.ctx }).2, Prod.ext hres rfl, hstate.symm⟩

theorem exists_of_inNewContext_ok {config : BuildConfig} {a : α} {t : State}
    (h : inNewContext config m s = (.ok a, t)) : ∃ u, m (s.started config) = (.ok a, u) ∧ t = s.ended u := by
  obtain ⟨hres, hstate⟩ := Prod.ext_iff.1 h
  exact ⟨(m (s.started config)).2, Prod.ext hres rfl, hstate.symm⟩

theorem eq_of_mapError_ok {g : Error → Error} {a : α} (h : mapError g m s = (.ok a, t)) : m s = (.ok a, t) :=
  Prod.ext (((mapError_apply g m s).2 a).1 (Prod.ext_iff.1 h).1)
    ((mapError_apply g m s).1.symm.trans (Prod.ext_iff.1 h).2)

/-! ### Reading -/

/-- At `s` the conversion leaves the state as it is, and what it returns satisfies `Q`. -/
def Reads (m : Convert α) (s : State) (Q : α → Prop) : Prop :=
  (∃ e, Stop.IsRefusal e ∧ m s = (.error e, s)) ∨ ∃ a, m s = (.ok a, s) ∧ Q a

namespace Reads
variable {Q R : α → Prop}

theorem pure {a : α} (h : Q a) : Reads (pure a) s Q := .inr ⟨a, rfl, h⟩

theorem fault {f : Fault} : Reads (throw (.fault f) : Convert α) s Q :=
  .inl ⟨.fault f, ⟨trivial, fun _ h => by cases h⟩, rfl⟩

theorem operand {e : ExprError} : Reads (throw (.operand e) : Convert α) s Q :=
  .inl ⟨.operand e, ⟨trivial, fun _ h => by cases h⟩, rfl⟩

theorem raise {e : Error} (he : e.IsBare) (hnew : ∀ name, e ≠ .alreadyDeclared name) :
    Reads (raise e : Convert α) s Q := .inl ⟨.error e, ⟨he, fun name h => hnew name (Stop.error.inj h)⟩, rfl⟩

theorem refuse {e : DomainError} : Reads (refuse e : Convert α) s Q :=
  raise (Error.isBare_domain e) fun _ h => by cases h

theorem mono (h : Reads m s Q) (hQ : ∀ a, Q a → R a) : Reads m s R := by
  rcases h with h | ⟨a, h, ha⟩
  · exact .inl h
  · exact .inr ⟨a, h, hQ a ha⟩

/-- What follows a reading conversion starts in the same state, unless the reading stops. -/
theorem bind (h : Reads m s Q) (f : α → Convert β) :
    (∃ e, Stop.IsRefusal e ∧ (m >>= f) s = (.error e, s)) ∨ ∃ a, Q a ∧ (m >>= f) s = f a s := by
  rcases h with ⟨e, he, h⟩ | ⟨a, h, ha⟩
  · exact .inl ⟨e, he, bind_of_error h f⟩
  · exact .inr ⟨a, ha, bind_of_ok h f⟩

theorem seq {f : α → Convert β} {T : β → Prop} (h : Reads m s Q) (hf : ∀ a, Q a → Reads (f a) s T) :
    Reads (m >>= f) s T := by
  rcases h.bind f with h | ⟨a, ha, h⟩
  · exact .inl h
  · unfold Reads
    rw [h]
    exact hf a ha

theorem map {f : α → β} {T : β → Prop} (h : Reads m s Q) (hf : ∀ a, Q a → T (f a)) : Reads (f <$> m) s T := by
  rw [map_eq_pure_bind]
  exact h.seq fun a ha => .pure (hf a ha)

theorem exists_of_bind_ok {f : α → Convert β} {b : β} {t : State} (hm : Reads m s Q)
    (h : (m >>= f) s = (.ok b, t)) : ∃ a, Q a ∧ f a s = (.ok b, t) := by
  rcases hm.bind f with ⟨e, -, he⟩ | ⟨a, ha, hf⟩
  · cases (Prod.ext_iff.1 (he.symm.trans h)).1
  · exact ⟨a, ha, hf.symm.trans h⟩

end Reads

theorem reads_liftFault (x : Except Fault α) (s : State) : Reads (liftFault x) s (fun a => x = .ok a) := by
  cases x with
  | error f => exact .fault
  | ok a => exact .pure rfl

theorem reads_liftOperand (x : Except ExprError α) (s : State) : Reads (liftOperand x) s (fun a => x = .ok a) := by
  cases x with
  | error f => exact .operand
  | ok a => exact .pure rfl

theorem reads_liftDomain (x : Except DomainError α) (s : State) : Reads (liftDomain x) s (fun a => x = .ok a) := by
  cases x with
  | error f => exact .refuse
  | ok a => exact .pure rfl

theorem reads_context (s : State) : Reads context s (fun c => c = s.ctx) := .inr ⟨_, rfl, rfl⟩

theorem reads_get (s : State) : Reads get s (fun t => t = s) := .inr ⟨_, rfl, rfl⟩

theorem reads_expression (v : Value) (s : State) : Reads (expression v) s (fun e => v.toExpr = .ok e) := by
  unfold expression
  split
  · exact .pure ‹_›
  · exact .raise ⟨rfl, .inr rfl⟩ fun _ h => by cases h

theorem reads_mapM {f : α → Convert β} {T : α → β → Prop} (hf : ∀ a, Reads (f a) s (T a)) (as : List α) :
    Reads (as.mapM f) s (fun bs => List.Forall₂ T as bs) := by
  induction as with
  | nil => exact .pure .nil
  | cons a as ih =>
    rw [List.mapM_cons]
    exact (hf a).seq fun b hb => ih.seq fun bs hbs => .pure (.cons hb hbs)

end Convert

end QasmStudio

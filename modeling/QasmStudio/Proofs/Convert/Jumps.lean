import QasmStudio.Proofs.Convert.Additions
import QasmStudio.Proofs.Convert.CallFrame
import QasmStudio.Proofs.Convert.DefinitionBodies
import QasmStudio.Proofs.Convert.Judgement
import QasmStudio.Proofs.Convert.Keeps

/-!
# Jumps

A jump is written wherever a step asks for it, so whether it is in place is up to the steps. A return is in
place if a routine is in conversion that it fits, which the context shows: that is a rule about what is
written. A break or a continue has to be in a loop of the program, which no context shows. But every
statement that is a loop has all jumps in it in place, so only the steps outside of loops matter
(`Step.Tied`), and of the loops under a condition only those have to become statements that jumps rely on.
-/

namespace QasmStudio
variable {action : Action} {kept : Action → Bool}

/-! ### Jumps of a statement -/

namespace Stmt

mutual
/-- What the statement returns, at any depth. -/
def returned : Stmt → List (Option Expr)
  | .return e => [e]
  | .branch _ thn els => allReturned thn ++ allReturned els
  | .forIn _ _ body | .while _ body | .box body => allReturned body
  | _ => []

def allReturned : List Stmt → List (Option Expr)
  | [] => []
  | st :: sts => st.returned ++ allReturned sts
end

theorem allReturned_append (xs ys : List Stmt) : allReturned (xs ++ ys) = allReturned xs ++ allReturned ys := by
  induction xs with
  | nil => rfl
  | cons st xs ih => simp [allReturned, ih]

theorem jumps_declarations (vs : List Var) :
    areLoose (vs.map .declare) = false ∧ allReturned (vs.map .declare) = [] := by
  induction vs with
  | nil => exact ⟨rfl, rfl⟩
  | cons v vs ih => exact ih

theorem jumps_of_callsOn {qubits : List Var} {sts : List Stmt} (h : ∀ st ∈ sts, st.CallsOn qubits) :
    areLoose sts = false ∧ allReturned sts = [] := by
  induction sts with
  | nil => exact ⟨rfl, rfl⟩
  | cons st sts ih =>
    have hst := h st (List.mem_cons_self ..)
    have hsts := ih fun x hx => h x (List.mem_cons_of_mem _ hx)
    cases st with
    | gate => exact hsts
    | _ => exact hst.elim

end Stmt

/-- Jumps are where they belong: breaks and continues in loops, and returns in subroutines, with a value
exactly if the subroutine declares one. -/
structure Program.JumpsInPlace (p : Program) : Prop where
  body : Stmt.areLoose p.body = false ∧ Stmt.allReturned p.body = []
  subroutines : ∀ x ∈ p.subroutines, Stmt.areLoose x.body = false ∧
    ∀ e ∈ Stmt.allReturned x.body, e.isSome = x.returns.isSome
  gates : ∀ x ∈ p.gates, Stmt.areLoose x.body = false ∧ Stmt.allReturned x.body = []
  calibrations : ∀ x ∈ p.calibrations, Stmt.areLoose x.body = false ∧ Stmt.allReturned x.body = []

theorem Program.jumpsInPlace_iff (p : Program) : p.JumpsInPlace ↔
    (Stmt.areLoose p.body = false ∧ Stmt.allReturned p.body = []) ∧
    (∀ x ∈ p.subroutines, Stmt.areLoose x.body = false ∧
      ∀ e ∈ Stmt.allReturned x.body, e.isSome = x.returns.isSome) ∧
    (∀ x ∈ p.gates, Stmt.areLoose x.body = false ∧ Stmt.allReturned x.body = []) ∧
    ∀ x ∈ p.calibrations, Stmt.areLoose x.body = false ∧ Stmt.allReturned x.body = [] :=
  ⟨fun h => ⟨h.body, h.subroutines, h.gates, h.calibrations⟩, fun h => ⟨h.1, h.2.1, h.2.2.1, h.2.2.2⟩⟩

instance (p : Program) : Decidable p.JumpsInPlace := decidable_of_iff _ p.jumpsInPlace_iff.symm

/-! ### Jumps of a step -/

namespace Action

/-- The bodies that are run where the operation stands, and in no loop of the program; `kept` are the loops
under a condition that the program has. -/
def exposed (kept : Action → Bool) (h : Convert.Handle) : Action → List (List Step)
  | .branch _ thn els => thn.getD [] :: els.toList
  | .whileLoop cond test body => if kept (.whileLoop cond test body) then [cond] else [cond, body]
  | .unroll _ _ body | .verbatim body | .nestedBuild _ body => [body]
  | .inProgram body | .gateDef _ _ body | .calibrationDef _ _ _ body => if h = .finished then [body] else []
  | _ => []

/-- A loop that is kept is one of the program, since its condition is not known to hold; and a routine is
left from inside of it, with a value exactly if it returns one. -/
def InPlace (lib : Library) (kept : Action → Bool) (t : State) : Action → Prop
  | .whileLoop cond test body => kept (.whileLoop cond test body) = true → ∀ n v u,
      (do Convert.run lib n cond; Convert.value test : Convert Value) t = (.ok v, u) → v ≠ .bool true
  | .leaveRoutine o => ∀ v, o.eval t.bindings = .ok v → t.ctx.Permits .classical →
      ∃ x ∈ t.ctx.converting.head?, (v = .none ↔ x.2.returns = none)
  | _ => True

end Action

/-- No loop is left outside of the loops of the program. -/
inductive Step.Tied (kept : Action → Bool) : Step → Prop
  | intro {st : Step} (hj : st.action.isJump = false)
      (hb : ∀ b ∈ st.action.exposed kept st.handle, ∀ x ∈ b, Tied kept x) : Tied kept st

theorem Step.tied_mk {target : Option String} {guarded : Bool}
    {h : Convert.Handle} : (Step.mk action target guarded h).Tied kept ↔
      action.isJump = false ∧ ∀ b ∈ action.exposed kept h, ∀ x ∈ b, x.Tied kept := by
  refine ⟨fun ht => ?_, fun ht => .intro ht.1 ht.2⟩
  obtain ⟨hj, hb⟩ := ht
  exact ⟨hj, hb⟩

/-! ### Rules -/

/-- Under a policy that lets no return stray, what is returned fits the routine in conversion. -/
def returnRule (π : Policy) (hπ : ∀ e, ¬ π.stray (.return e)) : Rule π.discipline where
  admits c sts := ∀ e ∈ Stmt.allReturned sts, c.Yields e
  congr _ _ _ _ hc _ := by simp only [Context.Yields, hc]
  nil _ _ h := absurd h List.not_mem_nil
  append hx hy e he := by
    rw [Stmt.allReturned_append] at he
    exact (List.mem_append.1 he).elim (hx e) (hy e)
  emits h := by
    cases h with
    | «return» _ _ hs => simpa [Stmt.allReturned, Stmt.returned] using hs.resolve_left (hπ _)
    | _ => simp [Stmt.allReturned, Stmt.returned]
  declares _ _ := by simp [Stmt.allReturned, Stmt.returned]
  nests _ hn hbs := by
    cases hn <;> simpa [Stmt.allReturned, Stmt.returned, or_imp, forall_and] using hbs
  boxes _ _ h e he := h e (by simpa [Stmt.allReturned, Stmt.returned] using he)

namespace Convert

variable {α β : Type} {σ : Side} {b : Bool} {m : Convert α} {f : α → Convert β} {s : State}

/-! ### The judgement -/

/-- However `m` ends, it has only added to the program on that side; nothing loose, if that is asked. -/
def Tight (σ : Side) (b : Bool) (m : Convert α) (s : State) : Prop :=
  (σ.of s).Grown (fun sts => b = true → Stmt.areLoose sts = false) (σ.of (m s).2)

namespace Tight

theorem of_eq (h : σ.of (m s).2 = σ.of s) : Tight σ b m s := by
  unfold Tight
  rw [h]
  exact .refl (fun _ => rfl) _

theorem bind (hm : Tight σ b m s) (hf : ∀ a t, m s = (.ok a, t) → Tight σ b (f a) t) : Tight σ b (m >>= f) s := by
  unfold Tight at hm ⊢
  rcases h : m s with ⟨e | a, t⟩ <;> rw [h] at hm
  · rwa [bind_of_error h]
  · rw [bind_of_ok h]
    exact hm.trans (fun hx hy hb => Stmt.not_loose_append (hx hb) (hy hb)) (hf a t h)

theorem seq {P : α → Prop} (hm : Reads m s P) (hf : ∀ a, P a → Tight σ b (f a) s) : Tight σ b (m >>= f) s := by
  rcases hm.bind f with ⟨e, -, he⟩ | ⟨a, ha, he⟩
  · exact of_eq (by rw [he])
  · unfold Tight
    rw [he]
    exact hf a ha

theorem look {m : Convert Unit} {f : Unit → Convert β} {p : Prop} (hm : Looks m s p)
    (hf : p → Tight σ b (f ()) s) : Tight σ b (m >>= f) s := by
  rcases hm with ⟨x, hm⟩ | ⟨hm, hp⟩
  · exact of_eq (by rw [bind_of_error hm])
  · unfold Tight
    rw [bind_of_ok hm]
    exact hf hp

theorem mapError {g : Error → Error} (hm : Tight σ b m s) : Tight σ b (mapError g m) s := by
  unfold Tight
  rwa [(mapError_apply g m s).1]

theorem of_neat (h : Neat (σ = .own ∧ b = true) m s) : Tight σ b m s := by
  cases σ with
  | own => exact h.grown.mono fun hsts hb => hsts ⟨rfl, hb⟩
  | finished => exact of_eq h.finished

theorem updateRoot {g : Program → Program} (hg : ∀ p, (g p).blocks = p.blocks) : Tight σ b (updateRoot g) s := by
  cases σ with
  | own => exact .updateRoot (fun _ => rfl) (hg _)
  | finished => exact of_eq rfl

/-- What is written in a block is taken out of it again. -/
theorem block {m : Convert Unit} {b' : Bool} (hm : ∀ t, Tight σ b m t) (hb : σ = .finished → b' = b) :
    Tight σ b' (block m) s ∧
      ∀ sts t, Convert.block m s = (.ok sts, t) → σ = .own → b = true → Stmt.areLoose sts = false := by
  have hbody : Tight σ b (do m; return (← context).current.innermost) { s with ctx := s.ctx.openBlock } :=
    (hm _).bind fun _ _ _ => of_eq rfl
  cases σ with
  | finished =>
    cases hb rfl
    exact ⟨hbody, fun _ _ _ h => by cases h⟩
  | own =>
    refine ⟨(Context.Grown.closeBlock (fun _ => rfl) hbody).1, fun sts t h _ hb => ?_⟩
    obtain ⟨u, hu, rfl⟩ := captured_of_block h
    have hin := hm { s with ctx := s.ctx.openBlock }
    rw [Tight, hu] at hin
    exact (Context.Grown.closeBlock (Q := fun _ => True) trivial hin).2 hb

end Tight

/-- Of a body that is run elsewhere, nothing is asked of what it writes there. -/
def slack : Side × Bool → Side × Bool
  | (.own, _) => (.own, false)
  | i => i

namespace Tight
variable {enter leave : Context → Context} {i : Side × Bool}

theorem around (he : ∀ c, (enter c).stack = c.stack) (hl : ∀ c, (leave c).stack = c.stack)
    (hm : ∀ t, Tight σ b m t) : Tight σ b (bracketContext enter leave m) s := by
  have hin := hm { s with ctx := enter s.ctx }
  cases σ with
  | finished => exact hin
  | own => exact hin.of_stacks (he _) (hl _)

theorem withProgram {p : Program} (hm : ∀ t, Tight (slack i).1 (slack i).2 m t) :
    Tight i.1 i.2 (withProgram p m) s := by
  obtain ⟨σ, b⟩ := i
  cases σ with
  | finished => exact hm { s with ctx := s.ctx.enterProgram p }
  | own => exact Context.Grown.leaveProgram (fun _ => rfl) (hm { s with ctx := s.ctx.enterProgram p })

theorem slack_block {m : Convert Unit} (hm : ∀ t, Tight (slack i).1 (slack i).2 m t) :
    Tight i.1 i.2 (Convert.block m) s := by
  obtain ⟨σ, b⟩ := i
  cases σ with
  | finished => exact (block hm fun _ => rfl).1
  | own => exact (block hm nofun).1

end Tight

/-- A place tells the side, and whether loose jumps matter there. -/
def tightness (again : Runner) : Judgement where
  Place := Side × Bool
  Holds i := fun {_} F => ∀ s, Tight i.1 i.2 (F again) s
  Strict i := i.1 = .own ∧ i.2 = true
  looped := slack
  aside := slack
  defining i _ _ := slack i
  gated i _ := slack i
  exchanged i := (i.1.other, i.2)
  Starts i j := i.1 = .finished ∧ j = i
  leaf hm _ _ s := .of_neat (hm s)
  bind hF hG s := (hF s).bind fun a t _ => hG a t
  given _ hm hG s := .seq (hm s) fun a ha => hG s a trivial ha s
  applyGate _ _ := .of_neat neat_applyGate
  register := by
    rintro ⟨σ, b⟩ j - ⟨rfl, rfl⟩ s
    exact .of_eq mild_declareRegister.finished
  tagging _ h s := (h s).mapError
  settling _ h s := (h s).mapError
  block _ hF hG s := (Tight.block hF fun _ => rfl).1.bind fun sts t ht =>
    hG sts (fun hstrict => (Tight.block hF fun _ => rfl).2 sts t ht hstrict.1 hstrict.2) t
  turn _ hF s := .slack_block hF
  box := by
    rintro i F - - h s
    refine .around (fun _ => rfl) (fun _ => rfl) fun s =>
      ((Tight.block h fun _ => rfl).1.mapError).bind fun sts t ht => ?_
    have ht := ((mapError_apply Error.tag _ s).2 _).1 (Prod.ext_iff.1 ht).1
    have hsts := (Tight.block h (fun _ => rfl) (s := s)).2 sts _ (Prod.ext ht rfl)
    refine (Tight.of_neat (.emit fun _ => rfl)).bind fun _ _ _ => .of_neat (.emit fun hstrict => ?_)
    simpa [Stmt.areLoose, Stmt.isLoose] using hsts hstrict.1 hstrict.2
  program h _ := .withProgram h
  define _ _ _ h _ := .around (fun _ => rfl) (fun _ => rfl) fun _ => .withProgram h
  gate _ _ h s := by
    refine .around (fun _ => rfl) (fun _ => rfl) fun s => .seq (reads_allow _ s) fun _ _ => ?_
    refine (Tight.slack_block h).bind fun _ t _ => .seq (reads_context t) fun _ _ => ?_
    split
    · exact .updateRoot fun _ => rfl
    · exact .of_eq rfl
  calibration _ h s := .around (fun _ => rfl) (fun _ => rfl) fun s => .seq (reads_allow _ s) fun _ _ =>
    (Tight.slack_block h).bind fun _ _ _ => .of_eq rfl
  bindings := by
    rintro ⟨_ | _, b⟩ bs α F h s <;> exact h { s with bindings := bs }
  start := by
    rintro ⟨_ | _, b⟩ config α F h s
    · exact .of_eq rfl
    · exact h _ ⟨rfl, rfl⟩ (s.started config)
  exchanging := by
    rintro ⟨_ | _, b⟩ α F h s <;> exact h (exchange s)

/-! ### Operations -/

section operations
variable {again : Runner} {lib : Library} {k : Nat} {h : Handle}

/-- A loop whose condition is not known to hold becomes a statement, whatever its body writes. -/
theorem tight_whileLoop {cond body : List Step} {test : Operand} (hc : ∀ t, Tight .own b (again cond) t)
    (hn : ∀ t, Tight .own false (again body) t)
    (hb : (∀ v u, (do again cond; value test : Convert Value) s = (.ok v, u) → v ≠ .bool true) ∨
      ∀ t, Tight .own b (again body) t) :
    Tight .own b (whileLoop h k (do again cond; value test) (again body)) s := by
  let J := tightness again
  let i : J.Place := (.own, b)
  rcases hb with hne | hb
  · have hcond : ∀ s, Tight .own b (do again cond; value test : Convert Value) s :=
      J.bind (i := i) (F := (· cond)) hc fun _ => J.value test
    rw [Judgement.whileLoop_eq]
    refine (hcond s).mapError.bind fun v t hv => ?_
    have hv := ((mapError_apply Error.tag _ s).2 _).1 (Prod.ext_iff.1 hv).1
    exact J.loopOn_of (i := i) (F := (· body)) (C := fun again => do again cond; value test) trivial trivial hn
      (fun htrue => absurd htrue (hne v _ (Prod.ext hv rfl))) t
  · exact J.whileLoop (i := i) trivial trivial hc hb hn (fun _ => .of_eq rfl) s

/-- An operation adds nothing loose, if it is no jump and the bodies that are run where it stands do not. -/
theorem tight_perform (hj : b = true → action.isJump = false)
    (hb : ∀ body b', (b' = true → b = true ∧ body ∈ action.exposed kept h) → ∀ t, Tight .own b' (again body) t)
    (hw : ∀ cond test body, action = .whileLoop cond test body → kept action = true → ∀ v u,
      (do again cond; value test : Convert Value) s = (.ok v, u) → v ≠ .bool true) :
    Tight .own b (perform again lib k h action) s := by
  let J := tightness again
  let i : J.Place := (.own, b)
  have hany : ∀ body t, Tight .own false (again body) t := fun body => hb body false nofun
  have hhere : ∀ body ∈ action.exposed kept h, ∀ t, Tight .own b (again body) t := fun body hmem =>
    hb body b fun hb => ⟨hb, hmem⟩
  by_cases hwhile : ∃ cond test body, action = .whileLoop cond test body
  · obtain ⟨cond, test, body, rfl⟩ := hwhile
    refine Tight.bind (tight_whileLoop (hhere cond ?_) (hany body) ?_) fun _ _ _ => .of_eq rfl
    · simp only [Action.exposed]
      split <;> exact List.mem_cons_self ..
    · cases hkept : kept (.whileLoop cond test body) with
      | true => exact .inl (hw cond test body rfl hkept)
      | false => exact .inr (hhere body (by simp [Action.exposed, hkept]))
  refine J.perform (i := i) trivial ?_ s
  cases action with
  | whileLoop cond test body => exact absurd ⟨cond, test, body, rfl⟩ hwhile
  | call =>
    refine ⟨trivial, fun _ _ _ => ⟨fun _ _ _ _ _ => hany _, fun _ _ _ _ _ _ => ⟨hany _, trivial⟩, ?_⟩⟩
    exact fun _ _ _ _ _ hj => nomatch hj.1
  | build => exact ⟨trivial, fun _ _ _ _ hj => nomatch hj.1⟩
  | branch cond thn els =>
    refine ⟨trivial, hhere _ (List.mem_cons_self ..), fun body hels => ?_⟩
    exact hhere body (List.mem_cons_of_mem _ (Option.mem_toList.2 hels))
  | unroll | verbatim => exact ⟨trivial, hhere _ (List.mem_singleton.2 rfl)⟩
  | loopOver => exact ⟨trivial, hany _⟩
  | inProgram | calibrationDef =>
    cases h with
    | finished => exact hhere _ (by simp [Action.exposed])
    | _ => exact hany _
  | gateDef =>
    refine ⟨?_, fun _ => ⟨fun _ => trivial, fun _ => trivial⟩⟩
    cases h with
    | finished => exact hhere _ (by simp [Action.exposed])
    | _ => exact hany _
  | nestedBuild => exact ⟨hhere _ (List.mem_singleton.2 rfl), fun _ _ _ _ hj => nomatch hj.1⟩
  | registerQubit | nextName | result => exact fun _ => trivial
  | draft | validateTargets => trivial
  | _ => exact J.plain (i := i) trivial trivial (fun hstrict => hj hstrict.2) rfl

end operations

/-! ### Runs -/

section runs
variable {lib : Library} {M : Option Step → State → Prop} {e : Stop} {r : Routine}

/-- A body whose steps are tied to loops adds nothing loose, as long as steps are in place. -/
theorem tight_observed (he : ∀ x, Stop.error x ≠ e) (hM : ∀ st t, M (some st) t → st.action.InPlace lib kept t)
    {body : List Step} (hb : b = true → ∀ st ∈ body, st.Tied kept) (fuel : Nat) (s : State) :
    Tight .own b (observed (insist M e) lib fuel body) s := by
  induction fuel generalizing b body s with
  | zero => exact .of_eq rfl
  | succ fuel ih =>
    have hsteps : ∀ body : List Step, (b = true → ∀ st ∈ body, st.Tied kept) → ∀ t, Tight .own b (body.forM fun st => do
        insist M e (some st)
        step (observed (insist M e) lib fuel) lib fuel st) t := by
      intro body hb
      induction body with
      | nil => exact fun _ => .of_eq rfl
      | cons st body ihb =>
        refine fun t => Tight.bind (.look (looks_insist e (fun _ _ h => h) _ t) fun hmind => ?_)
          fun _ u _ => ihb (fun h x hx => hb h x (List.mem_cons_of_mem _ hx)) u
        have htied : b = true → st.Tied kept := fun h => hb h st (List.mem_cons_self ..)
        obtain ⟨action, target, guarded, h⟩ := st
        unfold Tight
        rw [step_apply, side_concluded]
        refine tight_perform (fun h => (Step.tied_mk.1 (htied h)).1)
          (fun body b' hmem => ih fun hb' => (Step.tied_mk.1 (htied (hmem hb').1)).2 body (hmem hb').2) ?_
        rintro cond test body rfl hkept v u hv
        -- the condition is evaluated as if nobody looked
        rcases hcond : observed (insist M e) lib fuel cond t with ⟨x | _, w⟩
        · rw [bind_of_error hcond] at hv
          cases hv
        · rw [bind_of_ok hcond] at hv
          exact hM _ t hmind hkept fuel v u ((bind_of_ok (run_of_insist he hcond) _).trans hv)
    refine (hsteps body hb s).bind fun _ t _ => ?_
    rcases insist_apply M e none t with h | ⟨x, -, h⟩ <;> exact .of_eq (by rw [h])

theorem tight_runBody {again : Runner} (h : ∀ t, Tight .own true (again r.body) t) (args : List Value) :
    Tight .own true (runBody again r args) s := (tightness again).runBody (i := (.own, true)) trivial h args s

theorem CompletesAt.not_loose {again : Runner} {x : SubroutineDef} (hx : CompletesAt again r x s)
    (h : ∀ t, Tight .own true (again r.body) t) : Stmt.areLoose x.body = false := by
  obtain ⟨hentered, v, t, u, hrun, hemit, rfl⟩ := hx
  have hbody := (tight_runBody (s := s) h r.formals).current
  have hresult := (Tight.of_neat (σ := .own) (b := true) (neat_emitResult r v (s := t))).current
  rw [hrun] at hbody
  rw [hemit] at hresult
  have htop := (hbody.trans (fun hx hy hb => Stmt.not_loose_append (hx hb) (hy hb)) hresult).top
    (hentered.current ▸ r.blocks_blank.1)
  exact Stmt.not_loose_append (Stmt.jumps_declarations _).1 (htop rfl)

/-- The policy of builds in which routines are left where they may be. -/
def returnPolicy (lib : Library) : Policy where
  routine := lib.Holds
  stray st := st.returned = []
  defines _ x := Stmt.areLoose x.body = false
  lost := Policy.lost_default

theorem allows_returnPolicy {runs : Nat → Runner} {o : Option Step} {t : State}
    (h : ∀ st, o = some st → st.action.InPlace lib kept t) :
    Allows (returnPolicy lib).discipline lib runs o t := by
  refine allows_of_within ?_
  rintro ⟨action, target, guarded, handle⟩ hst
  have hplace := h _ hst
  cases action with
  | leaveLoop | nextTurn => rfl
  | gateDef => exact fun _ _ => trivial
  | leaveRoutine o =>
    intro v hv hp e hnone
    obtain ⟨x, hx, hreturns⟩ := hplace v hv hp
    refine .inr ⟨x, hx, ?_⟩
    have hiff := hnone.trans hreturns
    cases e <;> cases hret : x.2.returns <;> simp_all
  | _ => trivial

theorem body_result {t u : State} (h : declareRegister t = (.ok (), u)) :
    ∃ vs : List Var, u.ctx.result.program.body = vs.map .declare ++ t.ctx.root.top := by
  have hu : ∃ vs : List Var, u.ctx.root.body = vs.map .declare ++ t.ctx.root.top := by
    rcases declareRegister_ok h with ⟨-, -, rfl⟩ | ⟨-, -, rfl⟩
    · exact ⟨_, rfl⟩
    · refine ⟨(t.ctx.withRegister t.ctx.registerSize).root.pending ++ [registerVar t.ctx.registerSize], ?_⟩
      rw [List.map_append, List.append_assoc]
      rfl
  rcases u.ctx.program_result with hp | hp <;> rw [hp] <;> exact hu

section build
variable {fuel : Nat} {config : BuildConfig} {args : List Value} {s' : State} {p : BuiltProgram}

/-- A build with its jumps in place is written under the policy, and leaves nothing loose at the root. -/
theorem writes_in_place (hlib : ∀ key f, lib.Holds key f → f.kind ≠ .gate → ∀ st ∈ f.body, st.Tied kept)
    (hmain : ∀ st ∈ r.body, st.Tied kept)
    (hplace : Throughout lib fuel (fun o t => ∀ st, o = some st → st.action.InPlace lib kept t)
      (buildProgram · r config args) s)
    (hp : buildProgram (run lib fuel) r config args s = (.ok p, s')) :
    ∃ t u, Writes (returnPolicy lib).discipline (s.started config).ctx t.ctx ∧
      Stmt.areLoose t.ctx.current.top = false ∧ declareRegister t = (.ok (), u) ∧ p = u.ctx.result := by
  let M : Option Step → State → Prop := fun o t => ∀ st, o = some st → st.action.InPlace lib kept t
  obtain ⟨v, t, u, hbody, hdecl, rfl⟩ := buildProgram_ok ((hplace.insist .exhausted).trans hp)
  have htight : ∀ {b : List Step}, (∀ st ∈ b, st.Tied kept) → ∀ n t,
      Tight .own true (observed (insist M .exhausted) lib n b) t := fun hb n t =>
    tight_observed error_ne_exhausted (fun st t h => h st rfl) (fun _ => hb) n t
  refine ⟨t, u, ?_, ?_, hdecl, rfl⟩
  · have hruns : Runs (returnPolicy lib).discipline (fun _ => True) (fun _ => True)
        (observed (insist M .exhausted) lib fuel) (observed (insist M .exhausted) lib fuel) :=
      runs_observed (fun _ _ _ _ _ => trivial) (library_obeys_discipline (returnPolicy lib) lib)
        (fun _ _ _ hf => Library.holds_of_find? hf) (looks_insist .exhausted fun o t => allows_returnPolicy)
        (fun _ _ _ _ _ => rfl) (fun n key f x _ hf hk hx => hx.not_loose (htight (hlib key f hf hk) n)) (.inl rfl)
    have hexits := (faithful_runBody hruns.plain (routine_obeys_discipline _ r)
      (fun v (_ : v ∈ args) => v.over_true) (s.started config) (over_discipline _ _)).exits
    rwa [hbody] at hexits
  · have hloose := (tight_runBody (s := s.started config) (htight hmain fuel) args).current
    rw [hbody] at hloose
    exact hloose.top rfl rfl

end build

end runs

/-- If every step of a body that leaves a loop is in a loop over a range, or in one under a condition that
is not known to hold, and routines are left where they may be, then the jumps of a build are in place. -/
theorem jumps_in_place {lib : Library} {fuel : Nat} {r : Routine} {config : BuildConfig} {args : List Value}
    {s s' : State} {p : BuiltProgram} (kept : Action → Bool)
    (hlib : ∀ key f, lib.Holds key f → f.kind ≠ .gate → ∀ st ∈ f.body, st.Tied kept)
    (hmain : ∀ st ∈ r.body, st.Tied kept)
    (hplace : Throughout lib fuel (fun o t => ∀ st, o = some st → st.action.InPlace lib kept t)
      (buildProgram · r config args) s)
    (hp : buildProgram (run lib fuel) r config args s = (.ok p, s')) : p.program.JumpsInPlace := by
  obtain ⟨t, u, hw, hloose, hdecl, rfl⟩ := writes_in_place hlib hmain hplace hp
  let R := returnRule (returnPolicy lib) fun e h => List.cons_ne_nil _ _ h
  have hcurrent : t.ctx.current = t.ctx.root := by
    have hsize : t.ctx.inner.length = 0 := Nat.add_right_cancel hw.advance.stackSize
    rw [Context.current, List.length_eq_zero_iff.1 hsize]
    rfl
  refine ⟨?_, fun x hx => ?_, fun x hx => ?_, fun x hx => ?_⟩
  · obtain ⟨vs, hvs⟩ := body_result hdecl
    rw [hvs, ← hcurrent, Stmt.allReturned_append, (Stmt.jumps_declarations vs).2]
    refine ⟨Stmt.not_loose_append (Stmt.jumps_declarations vs).1 hloose, ?_⟩
    -- at the root, no routine is in conversion
    refine List.eq_nil_iff_forall_not_mem.2 fun e hmem => ?_
    obtain ⟨x, hx, -⟩ := (hw.adds R).current.top rfl e hmem
    cases hx
  · rw [subroutines_result hdecl] at hx
    obtain ⟨hloose, c, c₁, key, f, stub, hb, hin, rfl⟩ := (hw.orderly
      (Context.orderly_start _ _ _ _) fun _ _ h => h).subroutines x hx
    refine ⟨hloose, fun e hmem => ?_⟩
    obtain ⟨y, hy, hsome⟩ := (hin.adds R).body hb.permits e hmem
    obtain ⟨z, -, rfl⟩ := hb.stub
    cases hy
    exact hsome
  · rw [gates_result hdecl] at hx
    obtain ⟨new, hnew, hunitary⟩ := hw.advance.defined
    rw [hnew] at hx
    exact Stmt.jumps_of_callsOn (hunitary x hx)
  · have hkept : t.ctx.root.calibrations = [] := hcurrent ▸ hw.advance.current.kept.calibrations
    rw [field_result hdecl (·.calibrations) (fun _ => rfl) (fun _ _ => rfl), hkept] at hx
    cases hx

/-- Are the jumps of the step in place, given that no steps decide whether a loop goes on? -/
def inPlace? : Option Step → State → Bool
  | some ⟨.whileLoop [] test _, _, _, _⟩, t =>
    match test.eval t.bindings with
    | .ok (.bool b) => !b
    | _ => true
  | some ⟨.whileLoop _ _ _, _, _, _⟩, _ => false
  | some ⟨.leaveRoutine o, _, _, _⟩, t =>
    match o.eval t.bindings, t.ctx.converting.head? with
    | .ok .none, some x => x.2.returns.isNone
    | .ok _, some x => x.2.returns.isSome
    | .ok _, none => false
    | .error _, _ => true
  | _, _ => true

theorem inPlace_of_check {lib : Library} {st : Step} {t : State}
    (h : inPlace? (some st) t = true) : st.action.InPlace lib kept t := by
  obtain ⟨action, target, guarded, handle⟩ := st
  cases action with
  | whileLoop cond test body =>
    cases cond with
    | cons => cases h
    | nil =>
      rintro - n v u hv rfl
      have hrun : value test t = (.ok (.bool true), u) := by
        cases n with
        | zero => cases hv
        | succ n => exact hv
      rcases reads_value test t with ⟨e, -, he⟩ | ⟨v, hv, heval⟩
      · rw [he] at hrun
        cases hrun
      · rw [hv] at hrun
        cases hrun
        simp [inPlace?, heval] at h
  | leaveRoutine o =>
    rintro v hv -
    simp only [inPlace?, hv] at h
    cases hx : t.ctx.converting.head? with
    | none => simp [hx] at h
    | some x =>
      refine ⟨x, rfl, ?_⟩
      cases v <;> simpa [hx, ← Option.isSome_iff_ne_none] using h
  | _ => trivial

/-- A subroutine that may return early. -/
def trialLibrary : Library :=
  .ofRoutines
    [.subroutine "trial" [] (some Ty.int)
      [.mk (.measure [.const (.int .word 0)]) (some "b") false .own,
       .mk (.branch (.named "b") (some [.mk (.leaveRoutine (.const (.int .word 1))) none false .own]) none)
         none false .own]
      (.const (.int .word 0))]

/-- It leaves a loop under a condition from inside of an unrolled one, and a turn of a loop that calls. -/
def trialMain : Routine :=
  .main "main"
    [.mk (.measure [.const (.int .word 0)]) (some "b") false .own,
     .mk (.whileLoop [] (.named "b")
       [.mk (.unroll none (.const (.int .word 2))
         [.mk (.branch (.named "b") (some [.mk .leaveLoop none false .own])
           (some [.mk .nextTurn none false .own])) none false .own]) none false .own]) none false .own,
     .mk (.loopOver none (.const (.int .word 0)) (.const (.int .word 3)) none
       [.mk (.call "trial" []) none false .own, .mk .nextTurn none false .own]) none false .own] []

theorem jumps_in_place_trial :
    (∀ st ∈ trialMain.body, st.Tied fun _ => true) ∧
    (∀ key f, trialLibrary.Holds key f → f.kind ≠ .gate → ∀ st ∈ f.body, st.Tied fun _ => true) ∧
    Throughout trialLibrary 6 (fun o t => ∀ st, o = some st → st.action.InPlace trialLibrary (fun _ => true) t)
      (buildProgram · trialMain {} []) {} ∧
    ∃ p s', buildProgram (run trialLibrary 6) trialMain {} [] {} = (.ok p, s') ∧
      p.program.subroutines.map (fun x => (Stmt.allReturned x.body).length) = [2] ∧ p.program.JumpsInPlace := by
  have hmain : ∀ st ∈ trialMain.body, st.Tied fun _ => true := by
    simp [trialMain, Routine.main, Step.tied_mk, Action.exposed, Action.isJump]
  have hlib : ∀ key f, trialLibrary.Holds key f → f.kind ≠ .gate → ∀ st ∈ f.body, st.Tied fun _ => true := by
    rintro key f ⟨id, hid⟩ -
    have hmem := List.mem_of_getElem? hid
    simp only [trialLibrary, Library.ofRoutines, List.map_cons, List.map_nil, List.mem_cons, Prod.mk.injEq,
      List.not_mem_nil, or_false] at hmem
    obtain ⟨-, rfl⟩ := hmem
    simp [Routine.subroutine, Step.tied_mk, Action.exposed, Action.isJump]
  have hplace : Throughout trialLibrary 6
      (fun o t => ∀ st, o = some st → st.action.InPlace trialLibrary (fun _ => true) t)
      (buildProgram · trialMain {} []) {} := by
    refine (throughout_of_check (M := fun o t => inPlace? o t = true) (by decide +kernel)).mono ?_
    rintro o t ho st rfl
    exact inPlace_of_check ho
  have hends : (buildProgram (run trialLibrary 6) trialMain {} [] {}).1.toOption.map
      (fun p => p.program.subroutines.map fun x => (Stmt.allReturned x.body).length) = some [2] := by
    decide +kernel
  obtain ⟨p, s', hp, hreturned⟩ := exists_of_toOption hends
  exact ⟨hmain, hlib, hplace, p, s', hp, hreturned, jumps_in_place _ hlib hmain hplace hp⟩

/-- A main program whose build succeeds, with a jump that is out of place. -/
def Misplaces (lib : Library) (body : List Step) : Prop :=
  ∃ p s', buildProgram (run lib 4) (.main "main" body []) {} [] {} = (.ok p, s') ∧ ¬ p.program.JumpsInPlace

theorem misplaces_of_check {lib : Library} {body : List Step}
    (h : (buildProgram (run lib 4) (.main "main" body []) {} [] {}).1.toOption.map
      (fun p => decide p.program.JumpsInPlace) = some false) : Misplaces lib body := by
  obtain ⟨p, s', hp, hno⟩ := exists_of_toOption h
  exact ⟨p, s', hp, of_decide_eq_false hno⟩

/-- Subroutines that return something else than they declare. -/
def strayLibrary : Library :=
  .ofRoutines
    [.subroutine "silent" [] none [.mk (.leaveRoutine (.const (.int .word 1))) none false .own] (.const .none),
     .subroutine "counting" [] (some Ty.int) [.mk (.leaveRoutine (.const .none)) none false .own]
       (.const (.int .word 1))]

/-- Outside of any loop, in a loop that is unrolled, in a main program, and with a value or without one against
the declaration, jumps are written all the same. -/
theorem stray_jumps :
    Misplaces ⟨[]⟩ [.mk .leaveLoop none false .own] ∧
    Misplaces ⟨[]⟩ [.mk (.unroll none (.const (.int .word 2)) [.mk .nextTurn none false .own]) none false .own] ∧
    Misplaces ⟨[]⟩ [.mk (.leaveRoutine (.const .none)) none false .own] ∧
    Misplaces strayLibrary [.mk (.call "silent" []) none false .own] ∧
    Misplaces strayLibrary [.mk (.call "counting" []) none false .own] :=
  ⟨misplaces_of_check (by decide +kernel), misplaces_of_check (by decide +kernel),
    misplaces_of_check (by decide +kernel), misplaces_of_check (by decide +kernel),
    misplaces_of_check (by decide +kernel)⟩

end Convert

end QasmStudio

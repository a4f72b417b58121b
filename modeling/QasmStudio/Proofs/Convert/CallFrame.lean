import QasmStudio.Proofs.Convert.Interpreter
import QasmStudio.Proofs.Lang.GeneratedNames

/-!
# The frame of a call

The body of a subroutine is converted in the middle of its caller, against the same context. All that
the caller's program shows of it is one statement at the end of its innermost block: the call, or the
declaration of a new variable that holds what the call returns. And what the root defines as the
subroutine is what the body left in its own program, never the placeholder that stands for a routine in
conversion: a placeholder goes to the program on top, and while a routine is in conversion that is not
the root.

The variables that wait for their declaration have names that were given out. So a new name is none of
theirs, and all of them go on waiting, as long as the numbers of names have not come around.
-/

namespace QasmStudio

open List

variable {key : Nat} {stem : String}

/-! ### Names that were given out -/

/-- Names were given out one after the other, each with the number that was next. -/
inductive Gives (π : Policy) (names : List String) : List String → Prop
  | refl : Gives π names names
  | next {given kind stem} (h : Gives π names given) (hs : nameStem? kind = some stem)
      (hn : π.number (Word.wrap given.length)) :
      Gives π names (generatedName stem (Word.wrap given.length) :: given)

namespace Gives
variable {π : Policy} {xs ys zs : List String}

theorem trans (h₁ : Gives π xs ys) (h₂ : Gives π ys zs) : Gives π xs zs := by
  induction h₂ with
  | refl => exact h₁
  | next _ hs hn ih => exact .next ih hs hn

theorem exists_of_mem (h : Gives π [] ys) {name : String} (hmem : name ∈ ys) :
    ∃ kind stem, ∃ i < ys.length, nameStem? kind = some stem ∧ name = generatedName stem (Word.wrap (i : Nat)) := by
  induction h with
  | refl => cases hmem
  | @next given kind stem _ hs _ ih =>
    rcases mem_cons.1 hmem with rfl | hmem
    · exact ⟨kind, stem, given.length, Nat.lt_succ_self _, hs, rfl⟩
    · obtain ⟨kind', stem', i, hi, hstem, hname⟩ := ih hmem
      exact ⟨kind', stem', i, Nat.lt_succ_of_lt hi, hstem, hname⟩

/-- No name was given out twice, unless the numbers came around. -/
theorem nodup (h : Gives π [] ys) (hlen : ys.length ≤ 2 ^ 64) : ys.Nodup := by
  induction h with
  | refl => exact .nil
  | @next given kind stem h hs _ ih =>
    have hlt : given.length < 2 ^ 64 := hlen
    refine nodup_cons.2 ⟨fun hmem => ?_, ih (Nat.le_of_lt hlt)⟩
    obtain ⟨kind', stem', i, hi, hstem, hname⟩ := h.exists_of_mem hmem
    have := Word.wrap_inj hlt (Nat.lt_trans hi hlt) (generatedName_inj hs hstem hname)
    omega

end Gives

section gives
variable {d : Discipline} {c c' : Context}

theorem Acts.gives (h : Acts d c c') : Gives d.policy c.given c'.given := by
  induction h with
  | refl | register | returned | pulse | announce => exact .refl
  | trans _ _ ih₁ ih₂ => exact ih₁.trans ih₂
  | fresh hs hn => exact .next .refl hs hn
  | emit | declare | pend | mark | stub =>
    exact .refl

theorem Writes.gives (h : Writes d c c') : Gives d.policy c.given c'.given :=
  h.related (R := fun x y => Gives d.policy x.1 y.1) .trans (fun ha => ha.gives)

theorem Enters.given (h : Enters d c c') : c'.given = c.given := by
  cases h <;> rfl

end gives

/-! ### Contexts in order -/

namespace Context
variable {c c' : Context} {f : Program → Program}

/-- A routine in conversion has a program on top of the root, the root defines what is allowed, and variables
wait under names that were given out. -/
structure Orderly (D : Nat → SubroutineDef → Prop) (c : Context) : Prop where
  given : Gives {} [] c.given
  pending : ∀ p ∈ c.stack, ∀ v ∈ p.pending, v.name ∈ c.given
  stubs : c.converting.length ≤ c.inner.length
  subroutines : ∀ x ∈ c.root.subroutines, D c.build x
  active : c.active = true

theorem orderly_start (D : Nat → SubroutineDef → Prop) (n : Nat) (config : BuildConfig) (id : String) :
    (start n config id).Orderly D := by
  refine ⟨.refl, fun p hp v hv => ?_, Nat.le_refl _, fun x hx => absurd hx not_mem_nil, rfl⟩
  cases mem_singleton.1 hp
  cases hv

theorem subroutines_root_updateCurrent (hf : c.inner = [] → (f c.current).subroutines = c.current.subroutines) :
    (c.updateCurrent f).root.subroutines = c.root.subroutines := by
  unfold updateCurrent
  unfold current at hf
  cases hi : c.inner with
  | nil =>
    rw [hi] at hf
    exact hf rfl
  | cons p ps => rfl

theorem length_inner_updateCurrent (f : Program → Program) : (c.updateCurrent f).inner.length = c.inner.length := by
  unfold updateCurrent
  cases c.inner <;> rfl

namespace Orderly
variable {D : Nat → SubroutineDef → Prop}

theorem of_eq (h : c.Orderly D) (hi : c'.inner = c.inner) (hr : c'.root = c.root)
    (hcv : c'.converting = c.converting) (hm : c'.marks = c.marks) (ha : c'.active = c.active) : c'.Orderly D := by
  have hg : c'.given = c.given := congrArg (·.1) hm
  have hb : c'.build = c.build := congrArg (·.2.2) hm
  refine ⟨hg ▸ h.given, ?_, ?_, ?_, ha.trans h.active⟩
  · rw [stack, hi, hr, hg]
    exact h.pending
  · rw [hcv, hi]
    exact h.stubs
  · rw [hr, hb]
    exact h.subroutines

theorem updateCurrent (h : c.Orderly D)
    (hp : ∀ v ∈ (f c.current).pending, v ∈ c.current.pending ∨ v.name ∈ c.given)
    (hs : c.inner = [] → (f c.current).subroutines = c.current.subroutines) : (c.updateCurrent f).Orderly D := by
  refine ⟨h.given, fun p hmem v hv => ?_, ?_, ?_, h.active⟩
  · rw [stack_updateCurrent] at hmem
    rcases mem_cons.1 hmem with rfl | hmem
    · rcases hp v hv with hv | hv
      · exact h.pending _ (by rw [stack_eq]; exact mem_cons_self ..) v hv
      · exact hv
    · exact h.pending p (mem_of_mem_tail hmem) v hv
  · rw [length_inner_updateCurrent]
    exact h.stubs
  · rw [subroutines_root_updateCurrent hs]
    exact h.subroutines

theorem updateRoot (h : c.Orderly D) (hp : (f c.root).pending = c.root.pending)
    (hs : ∀ x ∈ (f c.root).subroutines, x ∈ c.root.subroutines ∨ D c.build x) : (c.updateRoot f).Orderly D := by
  refine ⟨h.given, fun p hmem v hv => ?_, h.stubs, fun x hx => (hs x hx).elim (h.subroutines x) id, h.active⟩
  rcases mem_append.1 hmem with hmem | hmem
  · exact h.pending p (mem_append_left _ hmem) v hv
  · cases mem_singleton.1 hmem
    have hv : v ∈ c.root.pending := hp ▸ hv
    exact h.pending _ (mem_append_right _ (mem_singleton.2 rfl)) v hv

theorem emit (h : c.Orderly D) (st : Stmt) : (c.emit st).Orderly D := h.updateCurrent (fun _ hv => .inl hv) fun _ => rfl

theorem openBlock (h : c.Orderly D) : c.openBlock.Orderly D := h.updateCurrent (fun _ hv => .inl hv) fun _ => rfl

theorem closeBlock (h : c.Orderly D) : c.closeBlock.Orderly D := h.updateCurrent (fun _ hv => .inl hv) fun _ => rfl

theorem enterProgram {p : Program} (h : c.Orderly D) (hp : p.pending = []) : (c.enterProgram p).Orderly D := by
  refine ⟨h.given, fun q hq v hv => ?_, Nat.le_succ_of_le h.stubs, h.subroutines, h.active⟩
  rcases mem_cons.1 hq with rfl | hq
  · rw [hp] at hv
    cases hv
  · exact h.pending q hq v hv

theorem enterRoutine {stub : Stub} {p : Program} (h : c.Orderly D) (hp : p.pending = []) :
    (c.enterRoutine key stub p).Orderly D :=
  ⟨h.given, (h.enterProgram hp).pending, Nat.succ_le_succ h.stubs, h.subroutines, h.active⟩

theorem back {c₁ : Context} (h : c.Orderly D) (h₁ : c₁.Orderly D) (hadv : c.Advance c')
    (hs : c'.stack ⊆ c₁.stack) (hr : c'.root = c₁.root) (hm : c'.marks = c₁.marks) : c'.Orderly D := by
  have hg : c'.given = c₁.given := congrArg (·.1) hm
  have hb : c'.build = c₁.build := congrArg (·.2.2) hm
  refine ⟨hg ▸ h₁.given, fun p hp v hv => ?_, ?_, ?_, hadv.active.trans h.active⟩
  · rw [hg]
    exact h₁.pending p (hs hp) v hv
  · have hsize := hadv.stackSize
    have hstubs := h.stubs
    unfold stackSize at hsize
    rw [hadv.converting]
    omega
  · rw [hr, hb]
    exact h₁.subroutines

end Orderly

end Context

section orderly
variable {d : Discipline} {D : Nat → SubroutineDef → Prop} {c c' : Context}

theorem Context.Numbered.mem_given {π : Policy} {name : String} (h : c.Numbered π name) : name ∈ c.given := by
  obtain ⟨kind, stem, names, -, -, hgiven, -⟩ := h
  rw [hgiven]
  exact mem_cons_self ..

theorem Acts.orderly (h : Acts d c c') (hc : c.Orderly D) : c'.Orderly D := by
  induction h with
  | refl => exact hc
  | trans _ _ ih₁ ih₂ => exact ih₂ (ih₁ hc)
  | register | pulse => exact hc.of_eq rfl rfl rfl rfl rfl
  | returned => exact ⟨hc.given, hc.pending, hc.stubs, hc.subroutines, hc.active⟩
  | fresh hs h =>
    exact ⟨.next hc.given hs trivial, fun p hp v hv => mem_cons_of_mem _ (hc.pending p hp v hv), hc.stubs,
      hc.subroutines, hc.active⟩
  | emit h => exact hc.emit _
  | @declare c v p hp hv h =>
    refine hc.updateCurrent (fun w hw => .inl ?_) fun _ => Program.subroutines_declare? h
    unfold Program.declare? at h
    split at h
    · cases h
    · cases h
      exact (mem_filter.1 hw).1
  | pend hp hn hi =>
    refine hc.updateCurrent (fun w hw => ?_) fun _ => Program.subroutines_addPending _ _
    unfold Program.addPending at hw
    split at hw
    · exact .inl hw
    · rcases mem_append.1 hw with hw | hw
      · exact .inl hw
      · exact .inr (mem_singleton.1 hw ▸ hn.mem_given)
  | mark hp hn => exact hc.updateCurrent (fun w hw => .inl (mem_filter.1 hw).1) fun _ => rfl
  | announce h => exact hc.updateRoot rfl fun _ hx => .inl hx
  | @stub c key stub hp h =>
    -- a routine is in conversion, so the program on top is not the root
    refine hc.updateCurrent (fun w hw => .inl hw) fun hinner => ?_
    have hstubs := hc.stubs
    rw [hinner, length_nil, Nat.le_zero, length_eq_zero_iff] at hstubs
    rw [hstubs] at h
    cases h

/-- The policy allows the definition in the build of that number, and it is what was written to the program of
a routine in conversion. -/
def Discipline.Makes (d : Discipline) (build : Nat) (x : SubroutineDef) : Prop :=
  d.policy.defines build x ∧ ∃ c c₁ key r stub, d.Begins c key r stub ∧
    Writes d (c.enterRoutine key stub r.blank) c₁ ∧ x = ⟨r.name, r.locals, r.returns, c₁.current.body, false⟩

theorem Enters.orderly (h : Enters d c c') (hc : c.Orderly D) : c'.Orderly D := by
  cases h with
  | block => exact hc.openBlock
  | verbatim | gate | calibration => exact hc.of_eq rfl rfl rfl rfl rfl
  | program => exact hc.enterProgram rfl
  | routine => exact hc.enterRoutine (Routine.blocks_blank _).2.1

theorem stable_orderly (hD : ∀ n x, d.Makes n x → D n x) : Stable d (·.Orderly D) where
  acts h := h.orderly
  enters h := h.orderly
  emit st h := h.emit st
  closeBlock h := h.closeBlock
  back := .back
  subroutine := by
    intro c c₁ key r stub hb h hdef _ hleft
    refine hleft.updateRoot rfl fun x hx => ?_
    rcases Program.mem_put hx with rfl | hx
    · have hbuild : (c₁.leaveRoutine key).build = c.build := h.advance.build
      rw [hbuild]
      exact .inr (hD _ _ ⟨hdef, c, c₁, key, r, stub, hb, h, rfl⟩)
    · exact .inl hx
  gate _ h := h.updateRoot rfl fun _ hx => .inl hx

theorem Writes.orderly (h : Writes d c c') (hc : c.Orderly D)
    (hD : ∀ n x, d.Makes n x → D n x := by exact fun _ _ hx => hx.1) : c'.Orderly D :=
  h.stable (stable_orderly hD) hc

end orderly

/-! ### The frame -/

/-- `q` is `p` with one more statement in its innermost block and some more variables declared, which
wait no longer. Other definitions may have changed. -/
structure Program.Extends (p q : Program) (st : Stmt) (vars : List Var) : Prop where
  blocks : q.blocks = (p.innermost ++ [st]) :: p.blocks.tail
  declared : q.declared = vars ++ p.declared
  pending : q.pending = p.pending.filter fun u => vars.all (u.name != ·.name)

/-- All that the call of a subroutine with these arguments does to the statements and variables of a program,
and the value it gives back: a statement, and nothing; or the declaration of a new variable, and that
variable. -/
inductive Routine.CalledIn (r : Routine) (args : List Expr) (p q : Program) : Value → Prop
  | statement (hr : r.returns = none) (h : p.Extends q (.eval (.call r.name args none)) []) :
      CalledIn r args p q .none
  | result {t} {v : Var} (hr : r.returns = some t) (ht : v.ty = some t)
      (hi : v.init = some (.call r.name args (some t))) (hnew : p.isDeclared v.name = false)
      (h : p.Extends q (.declare v) [v]) : CalledIn r args p q (.expr v.expr)

namespace Program
variable {p q : Program}

theorem Extends.add (p : Program) (st : Stmt) : p.Extends (p.add st) st [] :=
  ⟨blocks_add p st, rfl, by simp [Program.add]⟩

theorem Extends.declare? {v : Var} (h : p.declare? v = some q) :
    p.isDeclared v.name = false ∧ p.Extends q (.declare v) [v] := by
  unfold Program.declare? at h
  split at h
  · cases h
  · rename_i hnew
    cases h
    have hnew : p.isDeclared v.name = false := by simpa using hnew
    have hdeclared : p.declared.filter (·.name != v.name) = p.declared := filter_eq_self.2 fun u hu => by
        have := any_eq_false.1 hnew u hu
        simpa using this
    obtain ⟨hblocks, hdecl, hpend⟩ := Extends.add (p.markDeclared v) (.declare v)
    refine ⟨hnew, hblocks, ?_, ?_⟩
    · rw [hdecl]
      exact congrArg (v :: ·) hdeclared
    · rw [hpend]
      simp [Program.markDeclared]

theorem Extends.of_rests {p₁ : Program} {st : Stmt} {vars : List Var} (hr : p.Rests p₁)
    (h : p₁.Extends q st vars) : p.Extends q st vars := by
  refine ⟨?_, ?_, ?_⟩
  · have hinner : p₁.innermost = p.innermost := innermost_of_blocks (hr.blocks.trans (blocks_eq p))
    rw [h.blocks, hr.blocks, hinner]
  · rw [h.declared, hr.declared]
  · rw [h.pending, hr.pending]

end Program

namespace Discipline.CallsDefined
variable {d : Discipline} {r : Routine} {args : List Expr} {c c' : Context} {v : Option Var}

theorem calledIn (h : d.CallsDefined r args c c' v) :
    r.CalledIn args c.current c'.current (Convert.returnedValue v) := by
  obtain ⟨c₁, hw, hrests, hcalls⟩ := h
  have hrests := Context.rests_current hrests
  cases hcalls with
  | statement hr h => exact .statement hr (h ▸ (Program.Extends.add c₁.current _).of_rests hrests)
  | result hr hn hg h =>
    obtain ⟨hnew, hext⟩ := Program.Extends.declare? h
    refine .result hr rfl rfl ?_ (hext.of_rests hrests)
    rwa [Program.isDeclared, hrests.declared] at hnew

theorem pending (h : d.CallsDefined r args c c' v) (hc : c.Orderly fun _ _ => True)
    (hlen : c'.given.length ≤ 2 ^ 64) : c'.current.pending = c.current.pending := by
  obtain ⟨c₁, hw, hrests, hcalls⟩ := h
  have hrests := Context.rests_current hrests
  rw [← hrests.pending]
  cases hcalls with
  | statement hr h => rw [h, Program.add]
  | @result t name hr hn hg h =>
    rw [(Program.Extends.declare? h).2.pending]
    refine filter_eq_self.2 fun u hu => ?_
    have hc₁ : c₁.Orderly fun _ _ => True := hw.orderly hc fun _ _ _ => trivial
    have hmem : u.name ∈ c₁.given := hc₁.pending _ (by rw [Context.stack_eq]; exact mem_cons_self ..) u hu
    have hgives : Gives {} [] c'.given := by
      obtain ⟨kind, stem, names, hstem, hname, hgiven, -⟩ := hn
      obtain rfl : c₁.given = names := (cons.inj (hg.symm.trans hgiven)).2
      rw [hgiven, hname]
      exact .next hc₁.given hstem trivial
    have hnodup := hgives.nodup hlen
    rw [hg] at hnodup
    have hne : u.name ≠ name := fun hsame => (nodup_cons.1 hnodup).1 (hsame ▸ hmem)
    simpa using hne

end Discipline.CallsDefined

namespace Convert
variable {α : Type} {lib : Library} {fuel : Nat} {D : Nat → SubroutineDef → Prop}

/-- There is a moment of the run at which `M` holds. -/
def Sometime (lib : Library) (fuel : Nat) (M : Option Step → State → Prop) (m : Runner → Convert α) (s : State) :
    Prop :=
  ¬ Throughout lib fuel (fun o t => ¬ M o t) m s

/-- At some moment of the run the body of a routine of the library starts, in the build of that number, and the
definition is what it leaves in a program of its own, all of it. -/
def Leaves (lib : Library) (fuel : Nat) (m : Runner → Convert α) (s : State) (build : Nat) (x : SubroutineDef) :
    Prop :=
  Sometime lib fuel (fun o t => ∃ n key q u, lib.Holds key q ∧ q.kind ≠ .gate ∧ o = q.body.head? ∧
    t = u.bound q q.formals ∧ t.ctx.build = build ∧ CompletesAt (run lib n) q x u) m s

/-- Routines come from the library, and definitions are such as `D` allows. -/
def framePolicy (lib : Library) (D : Nat → SubroutineDef → Prop) : Policy where
  routine := lib.Holds
  defines := D
  lost := Policy.lost_default

theorem allows_framePolicy {runs : Nat → Runner} {e : Stop} {he : ∀ x, Stop.error x ≠ e} {o : Option Step}
    {t : State} : Allows ((framePolicy lib D).excusing (fun _ => trivial) e he).discipline lib runs o t :=
  allows_of_within fun _ _ => .of_forall

/-- What a call that succeeds leaves behind: a definition of the name, and for a subroutine the call. -/
theorem provides_of_call {q : Routine} {vs : List Value} {v : Value} {t t' : State}
    (hact : t.ctx.active = true) (hq : lib.Holds key q)
    (hcall : call (run lib fuel) .own key q vs t = (.ok v, t')) :
    let d := (framePolicy lib fun _ _ => True).discipline
    d.Provides q t'.ctx ∧ (q.kind ≠ .gate → ∃ exprs u, v = returnedValue u ∧ q.Binds vs t exprs ∧
      d.CallsDefined q exprs t.ctx t'.ctx u) := by
  let π := framePolicy lib fun _ _ => True
  have hruns : Runs π.discipline (fun _ => True) (fun _ => True) (run lib fuel) (run lib fuel) := by
    rw [← observed_idle]
    refine runs_observed (fun _ _ _ _ _ => trivial) (library_obeys_discipline π lib)
      (fun _ _ _ hr => Library.holds_of_find? hr) (fun o u => .inr ⟨rfl, ?_⟩) (fun _ _ _ _ _ => rfl)
      (fun _ _ _ _ _ _ _ _ => trivial) (.inl rfl)
    exact allows_of_within fun _ _ => .of_forall
  have hres := (follows_call (h := .own) (s := t) (fun _ _ _ _ _ => trivial) hruns
    (routine_obeys_discipline π q) hq trivial ⟨fun v (_ : v ∈ vs) => v.over_true, fun _ _ _ => trivial⟩
    (over_discipline π t)).result v
  rw [hcall] at hres
  exact (hres rfl).2.2 rfl hact

section build
variable {r : Routine} {config : BuildConfig} {args : List Value} {s : State}
  {M : Option Step → State → Prop}

theorem throughout_orderly (h : Throughout lib fuel M (buildProgram · r config args) s)
    (hD : (framePolicy lib D).Covers lib M) :
    Throughout lib fuel (fun _ t => t.ctx.Orderly D) (buildProgram · r config args) s := by
  refine (h.upheld (π := framePolicy lib D) (A := (·.Orderly D)) (fun _ _ _ hr => Library.holds_of_find? hr)
    hD (fun _ => trivial) (fun e he n config id => ?_) fun e he o t _ => allows_framePolicy).mono fun _ _ ht => ht.2
  exact .of_preserved (fun hc hw => hw.orderly hc) (fun hc he => he.orderly hc) (Context.orderly_start _ n config id)

theorem throughout_orderly_free :
    Throughout lib fuel (fun _ t => t.ctx.Orderly fun _ _ => True) (buildProgram · r config args) s :=
  throughout_orderly (M := fun _ _ => True) (.of_forall fun _ _ => trivial) fun _ _ _ _ _ _ _ _ _ => trivial

/-- If no body leaves the definition in that build, then it is kept out of the table. -/
theorem covers_of_not_leaves {build : Nat} {x : SubroutineDef} :
    (framePolicy lib fun n y => ¬ (n = build ∧ y = x)).Covers lib (fun o t => ¬ ∃ n key q u, lib.Holds key q ∧
      q.kind ≠ .gate ∧ o = q.body.head? ∧ t = u.bound q q.formals ∧ t.ctx.build = build ∧
      CompletesAt (run lib n) q x u) := by
  rintro n key q y u hq hk hstart hy ⟨rfl, rfl⟩
  exact hstart ⟨n, key, q, u, hq, hk, rfl, rfl, rfl, hy⟩

/-- At every moment of a build, a call of a subroutine that succeeds appends one statement to the current
program of its caller and declares at most the variable that it returns. The call has the arguments that the
parameters receive, and the variables that wait in the caller's program go on waiting, unless the numbers of
names have come around. Whatever the root defines, then and in the result, is what the body of a routine
left in a program of its own, in which it started at some moment of that build. -/
theorem call_frame (lib : Library) (fuel : Nat) (r : Routine) (config : BuildConfig) (args : List Value)
    (s : State) :
    Throughout lib fuel
      (fun _ t => ∀ n key q vs v t', lib.Holds key q → q.kind ≠ .gate →
        call (run lib n) .own key q vs t = (.ok v, t') →
        (∃ exprs, q.Binds vs t exprs ∧ q.CalledIn exprs t.ctx.current t'.ctx.current v) ∧
        (t'.ctx.given.length ≤ 2 ^ 64 → t'.ctx.current.pending = t.ctx.current.pending))
      (buildProgram · r config args) s ∧
    (∀ build x, Throughout lib fuel
      (fun _ t => t.ctx.build = build → x ∈ t.ctx.root.subroutines →
        Leaves lib fuel (buildProgram · r config args) s build x)
      (buildProgram · r config args) s) ∧
    ∀ p s', buildProgram (run lib fuel) r config args s = (.ok p, s') → ∀ x ∈ p.program.subroutines,
      Leaves lib fuel (buildProgram · r config args) s (s.started config).ctx.build x := by
  refine ⟨?_, fun build x => ?_, fun p s' hp x hx => ?_⟩
  · refine throughout_orderly_free.mono fun o t ht => ?_
    intro n key q vs v t' hq hk hcall
    obtain ⟨exprs, u, rfl, hbinds, hcalls⟩ := (provides_of_call ht.active hq hcall).2 hk
    exact ⟨⟨exprs, hbinds, hcalls.calledIn⟩, hcalls.pending ht⟩
  · by_cases hleaves : Leaves lib fuel (buildProgram · r config args) s build x
    · exact .of_forall fun _ _ _ _ => hleaves
    · refine (throughout_orderly (not_not.1 hleaves) covers_of_not_leaves).mono fun o t ht hbuild hx => ?_
      exact absurd ⟨hbuild, rfl⟩ (ht.subroutines x hx)
  · by_contra hleaves
    obtain ⟨t, u, hw, hdecl, rfl⟩ := (not_not.1 hleaves).writes
      (π := (framePolicy lib fun n y => ¬ (n = (s.started config).ctx.build ∧ y = x)).excusing (fun _ => trivial)
        .exhausted nofun)
      (fun _ _ _ hr => Library.holds_of_find? hr) covers_of_not_leaves rfl (fun o t ho => allows_framePolicy) hp
    have horder := hw.orderly (Context.orderly_start _ _ _ _)
    rw [subroutines_result hdecl] at hx
    exact horder.subroutines x hx ⟨hw.advance.build, rfl⟩

end build

/-- A subroutine that calls itself before it needs a variable of its own. -/
def climbLibrary : Library :=
  .ofRoutines
    [.subroutine "climb" [⟨"n", some Ty.int⟩] (some Ty.int)
      [.mk (.call "climb" [.arg 0]) none false .own,
       .mk (.newVar .int (.const (.int .word 1))) none false .own] (.arg 0)]

/-- It calls the subroutine in a loop, while a variable waits for its declaration. -/
def climbMain : Routine :=
  .main "main"
    [.mk (.newVar .int (.const (.int .word 5))) none false .own,
     .mk (.loopOver none (.const (.int .word 0)) (.const (.int .word 3)) none
       [.mk (.call "climb" [.const (.int .word 2)]) none false .own]) none false .own] []

theorem call_frame_climb :
    ∃ p s' x, buildProgram (run climbLibrary 4) climbMain {} [] {} = (.ok p, s') ∧ p.program.subroutines = [x] ∧
      x.name = "climb" ∧ x.body.length = 3 ∧
      Leaves climbLibrary 4 (buildProgram · climbMain {} []) {} 1 x := by
  have hends : (buildProgram (run climbLibrary 4) climbMain {} [] {}).1.toOption.map
      (·.program.subroutines.map fun x => (x.name, x.body.length)) = some [("climb", 3)] := by decide +kernel
  obtain ⟨p, s', hp, hx⟩ := exists_of_toOption hends
  obtain ⟨x, hx, hshape⟩ := map_eq_singleton_iff.1 hx
  obtain ⟨hname, hlength⟩ := Prod.mk.inj hshape
  refine ⟨p, s', x, hp, hx, hname, hlength, ?_⟩
  exact (call_frame climbLibrary 4 climbMain {} [] {}).2.2 p s' hp x (hx ▸ mem_singleton.2 rfl)

end Convert

end QasmStudio

import QasmStudio.Proofs.Convert.Follows

/-!
# Operations with bodies

Blocks, branches, loops, definitions, calls and builds are faithful as soon as the bodies in them are:
what they do around a body is one of the forms that `Writes` lists, on every exit.
-/

namespace QasmStudio

open Discipline Context List

theorem Context.closeBlock_openBlock (c : Context) : c.openBlock.closeBlock = c := by
  unfold closeBlock openBlock updateCurrent Program.closeBlock Program.openBlock
  cases h : c.inner <;> cases c <;> simp_all

theorem Context.captured_openBlock (c : Context) : c.openBlock.captured = [] := by
  rw [captured, openBlock, current_updateCurrent]
  rfl

def registerVar (n : Int) : Var := ⟨registerName, some (Ty.qubit n), none⟩

/-- The context with a register of `n` qubits declared in front of the root. -/
def Context.withRegister (c : Context) (n : Int) : Context :=
  c.updateRoot fun p => (p.markDeclared (registerVar n)).prepend (.declare (registerVar n))

theorem Context.program_result (c : Context) :
    c.result.program = c.root ∨ c.result.program = c.root.enablePulse := by
  unfold Context.result
  cases c.pulse
  · exact .inl rfl
  · exact .inr rfl

/-- The routine names its parameters, and in its result, as the discipline allows. -/
structure Routine.Obeys (d : Discipline) (r : Routine) : Prop where
  params : ∀ p ∈ r.params, d.name p.name
  result : r.result.Keeps d.name

theorem Routine.Obeys.locals {d : Discipline} {r : Routine} (h : r.Obeys d) : ∀ v ∈ r.locals, d.name v.name := by
  intro v hv
  obtain ⟨p, hp, rfl⟩ := mem_map.1 hv
  exact h.params p hp

def Routine.formals (r : Routine) : List Value := r.locals.map fun v => .expr v.expr

theorem Routine.Obeys.formals {d : Discipline} {r : Routine} (h : r.Obeys d) : ∀ v ∈ r.formals, v.Over d.name := by
  intro v hv
  obtain ⟨u, hu, rfl⟩ := mem_map.1 hv
  exact h.locals u hu

theorem Program.mem_put_self {α : Type} {same : α → Bool} {x : α} (xs : List α) : x ∈ put same x xs := by
  induction xs with
  | nil => exact mem_cons_self ..
  | cons y ys ih =>
    unfold put
    split
    · exact mem_cons_self ..
    · exact mem_cons_of_mem _ ih

theorem Program.hasSubroutine_addSubroutine (p : Program) (x : SubroutineDef) :
    (p.addSubroutine x).hasSubroutine x.name = true :=
  hasSubroutine_iff.2 (mem_map.2 ⟨x, mem_put_self _, rfl⟩)

theorem Program.hasGate_addGate (p : Program) (x : GateDef) : (p.addGate x).hasGate x.name = true :=
  any_eq_true.2 ⟨x, mem_put_self _, beq_self_eq_true _⟩

/-- The call of a subroutine with these arguments was written on the way from `c` to `c'`, and there is a
variable for what it returns. -/
inductive Discipline.Calls (d : Discipline) (r : Routine) (args : List Expr) (c c' : Context) : Option Var → Prop
  | statement (hr : r.returns = none) (h : c'.current = c.current.add (.eval (.call r.name args none))) :
      Calls d r args c c' none
  | result {t name} (hr : r.returns = some t) (hn : c'.Numbered d.policy name) (hg : c'.given = name :: c.given)
      (h : c.current.declare? ⟨name, some t, some (.call r.name args (some t))⟩ = some c'.current) :
      Calls d r args c c' (some ⟨name, some t, some (.call r.name args (some t))⟩)

/-- A subroutine is defined if need be, and called. -/
def Discipline.CallsDefined (d : Discipline) (r : Routine) (args : List Expr) (c c' : Context) (v : Option Var) :
    Prop :=
  ∃ c₁, Writes d c c₁ ∧ Forall₂ Program.Rests c.stack c₁.stack ∧ d.Calls r args c₁ c' v

/-- The expressions are what the parameters receive in a call with these values. -/
structure Routine.Binds (r : Routine) (args : List Value) (s : State) (exprs : List Expr) : Prop where
  count : args.length = r.params.length
  bound : ∃ t, Convert.bindArguments r.name r.params args s = (.ok exprs, t)
  receives : Forall₂ (fun x e => Convert.Param.Receives s.ctx x.1 x.2 e) (r.params.zip args) exprs

/-- The body of a subroutine starts here: the routine is in conversion and not defined yet, the program on top
of the root is its own and holds nothing but its parameters, and classical operations are allowed. -/
structure Routine.Entered (r : Routine) (c : Context) : Prop where
  permits : c.Permits .classical
  own : c.inner.head? = some r.blank
  converting : ∃ key z, r.IsZero z ∧ c.converting.head? = some (key, ⟨r.name, r.locals, r.returns, z⟩)
  missing : c.root.hasSubroutine r.name = false

theorem Routine.Entered.current {r : Routine} {c : Context} (h : r.Entered c) : c.current = r.blank := by
  rw [Context.current, List.headD_eq_head?_getD, h.own]
  rfl

/-- The state in which the body of the routine sees these arguments. -/
def State.bound (s : State) (r : Routine) (args : List Value) : State :=
  { s with bindings := { args := if r.kind = .main then [] else args } }

/-- The name of the routine has a definition, or it is that of a subroutine in conversion. -/
def Discipline.Provides (d : Discipline) (r : Routine) (c : Context) : Prop :=
  (r.kind = .gate → c.root.hasGate r.name = true) ∧ (r.kind ≠ .gate → d.Knows c r.name)

namespace Convert

variable {α : Type} {d : Discipline} {A B : Context → Prop} {m m' : Convert Unit} {s : State}
  {config : BuildConfig} {h : Handle}

/-! ### Blocks -/

/-- A block has been opened in `c` and closed again. -/
def Closed (d : Discipline) (c c' : Context) : Prop :=
  ∃ c₁, Writes d c.openBlock c₁ ∧ c' = c₁.closeBlock

/-- As `Closed`, with the statements of the block. -/
def Captured (d : Discipline) (c : Context) (stmts : List Stmt) (c' : Context) : Prop :=
  ∃ c₁, Writes d c.openBlock c₁ ∧ c' = c₁.closeBlock ∧ stmts = c₁.captured

theorem Closed.writes {c c' : Context} (h : Closed d c c') : Writes d c c' := by
  obtain ⟨c₁, hw, rfl⟩ := h
  exact .drop hw

theorem follows_block (hm : Faithful d A B m m' fun _ => True) (hs : s.Over d) :
    Follows d A B s.ctx (Closed d s.ctx) (block m) (block m') s (fun stmts t => Captured d s.ctx stmts t.ctx) := by
  have hopen : State.Over d { s with ctx := s.ctx.openBlock } := ⟨hs.bindings, hs.ctx, hs.finished⟩
  refine .bracketContext ?_ fun c => rfl
  have hbody := (hm _ hopen).since fun hq => hq.enters .block
  refine hbody.bind (F := fun c => Closed d s.ctx c.closeBlock) (fun c hw => ⟨c, hw, rfl⟩) fun _ t ht hw _ => ?_
  refine .seq (reads_context t) ht ⟨t.ctx, hw, rfl⟩ fun c hc => ?_
  subst hc
  exact .pure ht ⟨t.ctx, hw, rfl⟩ ⟨t.ctx, hw, rfl, rfl⟩

/-- The statements of a block are what its body leaves in it. -/
theorem captured_of_block {t : State} {stmts : List Stmt} (h : block m s = (.ok stmts, t)) :
    ∃ u, m { s with ctx := s.ctx.openBlock } = (.ok (), u) ∧ stmts = u.ctx.captured := by
  have hres : ((m >>= fun _ => do return (← context).current.innermost)
      { s with ctx := s.ctx.openBlock }).1 = .ok stmts := (Prod.ext_iff.1 h).1
  rcases hbody : m { s with ctx := s.ctx.openBlock } with ⟨_ | _, u⟩
  · rw [bind_of_error hbody] at hres
    cases hres
  · rw [bind_of_ok hbody] at hres
    exact ⟨u, rfl, (Except.ok.inj hres).symm⟩

/-! ### Branches and loops -/

theorem faithful_branch {cond : Value} {els els' : Option (Convert Unit)}
    (hc : cond.Over d.name) (ht : Faithful d A B m m' fun _ => True)
    (he : Option.Rel (fun n n' => Faithful d A B n n' fun _ => True) els els') :
    Faithful d A B (branch h cond m els) (branch h cond m' els') fun _ => True := by
  intro s hs
  unfold branch
  split
  · exact ht.mapError s hs
  · cases he with
    | none => exact .pure hs .refl trivial
    | some he => exact he.mapError s hs
  · refine .seq (reads_conditionExpr hc s) hs .refl fun e he' => ?_
    refine .seq (reads_requireClassical h _ s) hs .refl fun _ hp => ?_
    refine Follows.mapError ?_
    refine (follows_block ht hs).bind (fun _ hc => hc.writes) fun a t hto hcl hcap => ?_
    obtain ⟨c₁, hw₁, htc, rfl⟩ := hcap
    cases he with
    | none =>
      -- an absent branch is an empty block
      have hempty : t.ctx.emit (.branch e c₁.captured []) =
          (t.ctx.openBlock.closeBlock).emit (.branch e c₁.captured t.ctx.openBlock.captured) := by
        rw [closeBlock_openBlock, captured_openBlock]
      refine .seq (.pure rfl : Reads _ t (· = [])) hto hcl.writes fun b hb => ?_
      subst hb
      refine .emit hto ?_ trivial
      rw [hempty, htc]
      exact .branch hp he' hw₁ .refl
    | some he =>
      refine ((follows_block he hto).since fun hq => hq.writes hcl.writes).bind
        (fun _ hc => hcl.writes.trans hc.writes) fun b u huo _ hcap₂ => ?_
      obtain ⟨c₂, hw₂, huc, rfl⟩ := hcap₂
      refine .emit huo ?_ trivial
      rw [huc]
      exact .branch hp he' hw₁ (htc ▸ hw₂)

theorem faithful_repeatFrom {body body' : Value → Convert Unit}
    (hb : ∀ v, v.Over d.name → Faithful d A B (body v) (body' v) fun _ => True) (i : Int) (n : Nat) :
    Faithful d A B (repeatFrom body i n) (repeatFrom body' i n) fun _ => True := by
  induction n generalizing i with
  | zero => exact .of_goes fun s => .pure trivial
  | succ n ih => exact (hb (.int .word i) trivial).bind fun _ _ => ih (i + 1)

theorem faithful_forEach {body body' : Value → Convert Unit}
    (hb : ∀ v, v.Over d.name → Faithful d A B (body v) (body' v) fun _ => True) {items : List Value}
    (hi : ∀ v ∈ items, v.Over d.name) :
    Faithful d A B (forEach body items) (forEach body' items) fun _ => True := by
  induction items with
  | nil => exact .of_goes fun s => .pure trivial
  | cons v vs ih =>
    exact (hb v (hi v (mem_cons_self ..))).bind fun _ _ =>
      ih fun u hu => hi u (mem_cons_of_mem _ hu)

theorem faithful_unroll {iter : Value} {body body' : Value → Convert Unit} (hi : iter.Over d.name)
    (hb : ∀ v, v.Over d.name → Faithful d A B (body v) (body' v) fun _ => True) :
    Faithful d A B (unroll iter body) (unroll iter body') fun _ => True := by
  unfold unroll
  split
  · exact (faithful_repeatFrom hb 0 _).mapError
  · exact (faithful_forEach hb (Value.overAll_iff.1 hi)).mapError
  · exact .of_goes fun s => .refuse

theorem reads_rangeExpr {r : RangeSpec} (ha : r.start.Over d.name) (hb : r.stop.Over d.name)
    (hc : ∀ v, r.step = some v → v.Over d.name) (s : State) :
    Reads (RangeSpec.expr r) s (fun e => e.Over d.name) := by
  refine (reads_expression r.start s).seq fun start hstart => ?_
  have hstart := Value.over_toExpr hstart ha
  -- the end of the range is a literal or computed; either way the step comes along
  have hlit : ∀ (n : Int) (step : Option Expr), (∀ e, step = some e → e.Over d.name) →
      (Expr.range start (.int n) step).Over d.name := fun n step =>
    Expr.over_range hstart trivial
  have hsum : ∀ (op : String) (stop : Value) (e : Expr) (step : Option Expr), stop.Over d.name →
      stop.toExpr = .ok e → (∀ e, step = some e → e.Over d.name) →
      (Expr.range start (.binary op e (.int 1)) step).Over d.name := fun op stop e step hs he =>
    Expr.over_range hstart ⟨Value.over_toExpr he hs, trivial⟩
  dsimp only
  split
  · refine Reads.seq (Q := fun step => ∀ e, step = some e → e.Over d.name) (.pure (by simp)) ?_
    intro step hstep
    split
    · exact .pure (hlit _ _ hstep)
    · exact (reads_expression r.stop s).seq fun e he => .pure (hsum _ _ _ _ hb he hstep)
  · rename_i v hv
    refine Reads.seq (Q := fun step => ∀ e, step = some e → e.Over d.name)
      ((reads_expression v s).map fun e he x hx => ?_) ?_
    · exact Option.some.inj hx ▸ Value.over_toExpr he (hc v hv)
    intro step hstep
    split
    · exact .pure (hlit _ _ hstep)
    · exact (reads_expression r.stop s).seq fun e he => .pure (hsum _ _ _ _ hb he hstep)

theorem follows_loopOver {r : RangeSpec} {body body' : Value → Convert Unit}
    (hs : s.Over d) (hn : d.policy.number s.ctx.nextVar) (hstart : r.start.Over d.name)
    (hstop : r.stop.Over d.name) (hstep : ∀ v, r.step = some v → v.Over d.name)
    (hb : ∀ v, v.Over d.name → Faithful d A B (body v) (body' v) fun _ => True) :
    Follows d A B s.ctx (Writes d s.ctx) (loopOver h r body) (loopOver h r body') s fun _ _ => True := by
  refine .seq (reads_rangeExpr hstart hstop hstep s) hs .refl fun range hrange => ?_
  refine .seq (reads_requireClassical h _ s) hs .refl fun _ hp => ?_
  refine .goes (goes_freshName (s := s) .int hn) hs (fun _ hc => hc) fun name c hw hs hc => ?_
  let v : Var := ⟨name, some Ty.int, none⟩
  have hp := hp.mono hw.advance
  have hgen := hc.2.generated
  have hacts : Acts d c (c.updateCurrent (·.markDeclared v)) := .mark hp hc.2
  have hmark : Writes d c (c.updateCurrent (·.markDeclared v)) := .acts hacts
  refine Follows.mapError ?_
  refine .goes (Goes.update hacts) hs (fun _ h => hw.trans h) fun _ c' hw' hs hc' => ?_
  subst hc'
  have hbody := hb (.expr v.expr) (show d.name name from hgen.over)
  refine ((follows_block hbody hs).since fun hq => hq.writes (hw.trans hmark)).bind
    (fun _ hcl => (hw.trans hmark).trans hcl.writes) fun stmts t ht _ hcap => ?_
  obtain ⟨c₁, hw₁, htc, rfl⟩ := hcap
  refine .emit ht ?_ trivial
  rw [htc]
  exact (hw.trans hmark).trans (.forIn (hp.mono hmark.advance) (hgen.updateCurrent _) rfl hrange hw₁)

/-- The second bound is the first one, or a larger one where the first stands for nothing. -/
def Turns (d : Discipline) (n n' : Nat) : Prop := n' = n ∨ n ≤ n' ∧ d.policy.excuses .exhausted

theorem Turns.of_succ {n n' : Nat} (h : Turns d (n + 1) n') : ∃ k, n' = k + 1 ∧ Turns d n k := by
  rcases h with rfl | ⟨hle, he⟩
  · exact ⟨n, rfl, .inl rfl⟩
  · obtain ⟨k, rfl⟩ := Nat.exists_eq_add_of_le' (Nat.le_of_add_left_le hle)
    exact ⟨k, rfl, .inr ⟨Nat.le_of_succ_le_succ hle, he⟩⟩

/-- At the end of the first bound there is nothing to say, or the second one ends too. -/
theorem Turns.exhausted {m : Nat → Convert α} {Q : α → State → Prop} {n' : Nat}
    (h : Turns d 0 n') (hm : m 0 = throw .exhausted) (hs : s.Over d) :
    Follows d A B s.ctx (Writes d s.ctx) (throw .exhausted) (m n') s Q := by
  rcases h with rfl | ⟨-, he⟩
  · rw [hm]
    exact .of_error rfl hs .refl
  · exact .excused rfl he

theorem faithful_repeatWhile {cond cond' : Convert Value} {n n' : Nat}
    (hc : Faithful d A B cond cond' fun v => v.Over d.name) (hb : Faithful d A B m m' fun _ => True)
    (hn : Turns d n n') :
    Faithful d A B (repeatWhile cond m n) (repeatWhile cond' m' n') fun _ => True := by
  induction n generalizing n' with
  | zero => exact fun _ => hn.exhausted (m := repeatWhile cond' m') rfl
  | succ n ih =>
    obtain ⟨k, rfl, hk⟩ := hn.of_succ
    refine hb.mapError.bind fun _ _ => hc.mapError.bind fun v _ => ?_
    split
    · exact ih hk
    · exact .of_goes fun s => .pure trivial
    · exact .of_goes fun s => .refuse

theorem faithful_whileLoop {n n' : Nat} {cond cond' : Convert Value}
    (hc : Faithful d A B cond cond' fun v => v.Over d.name) (hb : Faithful d A B m m' fun _ => True)
    (hn : Turns d n n') :
    Faithful d A B (whileLoop h n cond m) (whileLoop h n' cond' m') fun _ => True := by
  refine hc.mapError.bind fun v hv => ?_
  split
  · exact faithful_repeatWhile hc hb hn
  · exact .of_goes fun s => .pure trivial
  · intro s hs
    refine .seq (reads_conditionExpr hv s) hs .refl fun e he => ?_
    refine .seq (reads_requireClassical h _ s) hs .refl fun _ hp => ?_
    refine Follows.mapError ?_
    refine (follows_block hb hs).bind (fun _ hcl => hcl.writes) fun stmts t ht _ hcap => ?_
    obtain ⟨c₁, hw₁, htc, rfl⟩ := hcap
    refine .emit ht ?_ trivial
    rw [htc]
    exact .while hp he hw₁

theorem faithful_verbatim (hb : Faithful d A B m m' fun _ => True) :
    Faithful d A B (verbatim h m) (verbatim h m') fun _ => True := by
  intro s hs
  refine .seq (reads_requireClassical h _ s) hs .refl fun _ hp => ?_
  refine .seq (reads_context s) hs .refl fun c hc => ?_
  subst hc
  dsimp only
  split
  · exact .refuseThen hs .refl
  · rename_i hv
    refine .bracketContext ?_ fun c => rfl
    have hin : State.Over d { s with ctx := s.ctx.enterVerbatim } := ⟨hs.bindings, hs.ctx, hs.finished⟩
    -- an exit in the middle gives the block up
    refine ((follows_block hb hin).since fun hq => hq.enters (.verbatim hp hv)).mapError.bind
      (F := fun c => Writes d s.ctx c.leaveVerbatim) ?_ fun stmts t ht _ hcap => ?_
    · rintro c ⟨c₁, hw₁, rfl⟩
      exact .abandon hp hv hw₁
    obtain ⟨c₁, hw₁, htc, rfl⟩ := hcap
    have hpragma : State.Over d { t with ctx := t.ctx.emit (.pragma "braket verbatim") } :=
      ⟨ht.bindings, ht.ctx, ht.finished⟩
    refine Follows.updateThen (g := (·.emit (.pragma "braket verbatim"))) (.emit hpragma ?_ trivial)
    show Writes d s.ctx ((t.ctx.emit _).emit _).leaveVerbatim
    rw [htc]
    exact .verbatim hp hv hw₁

/-! ### Programs and definitions -/

theorem faithful_withProgram {n n' : Convert α} {Q : α → Prop} (hb : d.policy.byHand)
    (hn : Faithful d A B n n' Q) : Faithful d A B (withProgram {} n) (withProgram {} n') Q := by
  intro s hs
  refine .bracketContext ?_ fun c => rfl
  have hin : State.Over d { s with ctx := s.ctx.enterProgram {} } := ⟨hs.bindings, hs.ctx, hs.finished⟩
  exact ((hn _ hin).since fun hq => hq.enters (.program hb)).mono (fun c hw => .program hb hw) fun _ _ hQ => hQ

theorem follows_defineGate {name : String} {params : List GateParam}
    (ho : d.Opens s.ctx ⟨name, params⟩) (hb : Faithful d A B m m' fun _ => True)
    (hdef : ∀ u, (s.ctx.enterGate ⟨name, params⟩).refusal? .unitary = none →
      m { s with ctx := (s.ctx.enterGate ⟨name, params⟩).openBlock } = (.ok (), u) →
        d.policy.definesGate ⟨name, GateParam.angles params, GateParam.qubits params, u.ctx.captured⟩)
    (hs : s.Over d) :
    Follows d A B s.ctx (Writes d s.ctx) (defineGate name params m) (defineGate name params m') s
      fun _ t => t.ctx.root.hasGate name = true := by
  let r : GateRecord := ⟨name, params⟩
  unfold defineGate withGate
  refine .bracketContext ?_ fun c => rfl
  have hin : State.Over d { s with ctx := s.ctx.enterGate r } := ⟨hs.bindings, hs.ctx, hs.finished⟩
  have hback : Writes d s.ctx (s.ctx.enterGate r).leaveGate := .refl
  refine .seq (reads_allow _ _) hin hback fun _ hr => ?_
  refine ((follows_block hb hin).since fun hq => hq.enters (.gate ho hr)).traced.bind
    (F := fun c => Writes d s.ctx c.leaveGate) ?_ fun stmts t ht _ hcap => ?_
  · rintro c ⟨c₁, hw₁, rfl⟩
    exact .scope ho hr hw₁
  obtain ⟨⟨c₁, hw₁, htc, rfl⟩, -, hran⟩ := hcap
  have hallowed : d.policy.definesGate ⟨name, GateParam.angles params, GateParam.qubits params, c₁.captured⟩ := by
    obtain ⟨u, hu, hstmts⟩ := captured_of_block hran
    exact hstmts ▸ hdef u hr hu
  have hscope : Writes d s.ctx t.ctx.leaveGate := htc ▸ .scope ho hr hw₁
  refine .seq (reads_context t) ht hscope fun c hc => ?_
  subst hc
  split
  · rename_i hmissing
    refine .update ht rfl ?_ (Program.hasGate_addGate _ _)
    rw [htc] at hmissing ⊢
    exact .gate ho hr hw₁ hallowed (by simpa using hmissing)
  · rename_i hthere
    exact .pure ht hscope (by simpa using hthere)

theorem follows_calibrationDef {gate : String} {qubits angles : List Expr}
    (hb : Faithful d A B m m' fun _ => True) (hs : s.Over d) :
    Follows d A B s.ctx (Writes d s.ctx) (defineCalibration gate qubits angles m)
      (defineCalibration gate qubits angles m') s
      (fun x _ => x.qubits = qubits ∧
        ∃ c₁, Writes d (s.ctx.enterCalibration ⟨gate, qubits, angles⟩).openBlock c₁ ∧ x.body = c₁.captured) := by
  let r : CalibrationRecord := ⟨gate, qubits, angles⟩
  unfold defineCalibration withCalibration
  refine .bracketContext ?_ fun c => rfl
  have hin : State.Over d { s with ctx := s.ctx.enterCalibration r } := ⟨hs.bindings, hs.ctx, hs.finished⟩
  have hback : Writes d s.ctx (s.ctx.enterCalibration r).leaveCalibration := .refl
  refine .seq (reads_allow _ _) hin hback fun _ hr => ?_
  refine ((follows_block hb hin).since fun hq => hq.enters (.calibration hr)).bind
    (F := fun c => Writes d s.ctx c.leaveCalibration) ?_ fun stmts t ht _ hcap => ?_
  · rintro c ⟨c₁, hw₁, rfl⟩
    exact .calibration hr hw₁
  obtain ⟨c₁, hw₁, htc, rfl⟩ := hcap
  exact .pure ht (htc ▸ .calibration hr hw₁) ⟨rfl, c₁, hw₁, rfl⟩

theorem faithful_defineCalibration {gate : String} {qubits angles : List Expr}
    (hb : Faithful d A B m m' fun _ => True) :
    Faithful d A B (defineCalibration gate qubits angles m) (defineCalibration gate qubits angles m')
      fun _ => True := fun _ hs =>
  (follows_calibrationDef hb hs).mono (fun _ hw => hw) fun _ _ _ => trivial

theorem faithful_withBindings {b : Bindings} (hb : b.Over d.name) (hm : Faithful d A B m m' fun _ => True) :
    Faithful d A B (withBindings b m) (withBindings b m') fun _ => True := fun s hs =>
  .withBindings hs (hm { s with bindings := b } ⟨hb, hs.ctx, hs.finished⟩)

theorem faithful_inNewContext (hA : ∀ n id, Quiet d A (Context.start n config id))
    (hm : Faithful d A B m m' fun _ => True) :
    Faithful d A B (inNewContext config m) (inNewContext config m') fun _ => True := fun _ hs =>
  .inNewContext hs .refl (hA _ _) fun hin => (hm _ hin).mono (fun _ _ => trivial) fun _ _ _ => trivial

/-! ### Calls -/

section calls
variable {again again' : Runner} {r : Routine} {args : List Value} {key : Nat}

theorem follows_runBody {T : State → Prop} (hrun : ∀ t : State, t.Over d →
      Follows d A B t.ctx (Writes d t.ctx) (again r.body) (again' r.body) t fun _ u => T u)
    (hT : ∀ u b, T u → T { u with bindings := b }) (hr : r.Obeys d) (ha : ∀ v ∈ args, v.Over d.name)
    (hs : s.Over d) :
    Follows d A B s.ctx (Writes d s.ctx) (runBody again r args) (runBody again' r args) s
      fun v t => v.Over d.name ∧ T t := by
  unfold runBody
  dsimp only
  generalize hgen : (if r.kind = .main then [] else args) = own
  have hown : ∀ v ∈ own, v.Over d.name := by
    intro v hv
    rw [← hgen] at hv
    split at hv
    · cases hv
    · exact ha v hv
  refine .withBindings hs ?_
  have hin : State.Over d { s with bindings := { args := own } } := ⟨.ofArgs hown, hs.ctx, hs.finished⟩
  refine (hrun _ hin).bind (fun _ hw => hw) fun _ t ht hw hend => ?_
  split
  · refine .seq (reads_get t) ht hw fun u hu => ?_
    subst hu
    refine (Follows.of_reads (reads_liftOperand _ _) ht hw).mono (fun _ hw => hw) fun v u hv => ?_
    obtain ⟨rfl, hv⟩ := hv
    exact ⟨hr.result ht.bindings hv, hT _ _ hend⟩
  · exact .pure ht hw ⟨trivial, hT _ _ hend⟩

theorem faithful_runBody (hrun : ∀ steps, Faithful d A B (again steps) (again' steps) fun _ => True)
    (hr : r.Obeys d) (ha : ∀ v ∈ args, v.Over d.name) :
    Faithful d A B (runBody again r args) (runBody again' r args) fun v => v.Over d.name := fun _ hs =>
  (follows_runBody (hrun r.body) (fun _ _ h => h) hr ha hs).mono (fun _ hw => hw) fun _ _ hv => hv.1

/-- What is inside of the bindings of a body. -/
def bodyOf (again : Runner) (r : Routine) : Convert Value := do
  again r.body
  if r.kind = .subroutine then liftOperand (r.result.eval (← get).bindings) else return .none

theorem runBody_ok {v : Value} {t : State} (h : runBody again r args s = (.ok v, t)) :
    ∃ u, bodyOf again r (s.bound r args) = (.ok v, u) ∧ t = { u with bindings := s.bindings } := by
  obtain ⟨hres, hstate⟩ := Prod.ext_iff.1 h
  exact ⟨(bodyOf again r (s.bound r args)).2, Prod.ext hres rfl, hstate.symm⟩

theorem reads_makeStub (s : State) :
    Reads (makeStub r r.locals) s (fun stub => ∃ z, r.IsZero z ∧ stub = ⟨r.name, r.locals, r.returns, z⟩) := by
  unfold makeStub
  cases hret : r.returns with
  | none =>
    refine Reads.seq (Q := fun z => z = .absent) (.pure rfl) fun z hz => .pure ⟨z, ?_, rfl⟩
    simp [Routine.IsZero, hret, hz]
  | some t =>
    refine (reads_liftFault t.zero s).seq fun z hz => .pure ⟨z, ?_, rfl⟩
    simp [Routine.IsZero, hret, hz]

theorem goes_emitResult {v : Value} (hp : s.ctx.Permits .classical) (hv : v.Over d.name)
    (hc : ∃ x ∈ s.ctx.converting.head?, x.2.returns = r.returns) :
    Goes d (emitResult r v) s (fun _ c => c.nextVar = s.ctx.nextVar) := by
  unfold emitResult
  split
  · exact .pure rfl
  · exact .refuse
  · rename_i hret _
    split
    · rename_i e he
      obtain ⟨x, hx, hreturns⟩ := hc
      have hyields : s.ctx.Yields (some e) := ⟨x, hx, by simp [hreturns, hret]⟩
      refine (Goes.emit (.return hp (fun x hx => ?_) (.inr hyields))).mono fun _ c hc => ?_
      · exact Option.some.inj hx ▸ Value.over_toExpr he hv
      · rw [hc]
        rfl
    · exact .raise ⟨rfl, .inr rfl⟩

/-- The body of the routine starts at `s`, and the definition is what it leaves in a program of its own, all
of it. -/
def CompletesAt (again : Runner) (r : Routine) (x : SubroutineDef) (s : State) : Prop :=
  r.Entered s.ctx ∧ ∃ v t u, runBody again r r.formals s = (.ok v, t) ∧ emitResult r v t = (.ok (), u) ∧
    x = ⟨r.name, r.locals, r.returns, u.ctx.current.body, false⟩

def Completes (again : Runner) (r : Routine) (x : SubroutineDef) : Prop := ∃ s, CompletesAt again r x s

/-- The definition is what the body of the gate leaves in a block of its own, all of it, where unitary
operations are allowed. -/
def CompletesGate (again : Runner) (r : Routine) (x : GateDef) : Prop :=
  ∃ params s v t, r.params.mapM (gateParam r) = .ok params ∧ s.ctx.Permits .unitary ∧ s.ctx.captured = [] ∧
    s.ctx.gates.head? = some ⟨r.name, params⟩ ∧
    runBody again r (params.map fun p => .expr p.var.expr) s = (.ok v, t) ∧
    x = ⟨r.name, GateParam.angles params, GateParam.qubits params, t.ctx.captured⟩

/-- Two ways of running bodies, one of them as the policy says. -/
structure Runs (d : Discipline) (A B : Context → Prop) (again again' : Runner) : Prop where
  body : ∀ steps, FaithfulBody d A B (again steps) (again' steps)
  defines : ∀ key r x s, d.policy.routine key r → r.kind ≠ .gate → CompletesAt again r x s →
    d.policy.defines s.ctx.build x
  definesGate : ∀ key r x, d.policy.routine key r → r.kind = .gate → CompletesGate again r x →
    d.policy.definesGate x

theorem Runs.plain (h : Runs d A B again again') (steps : List Step) :
    Faithful d A B (again steps) (again' steps) fun _ => True := (h.body steps).plain

/-- A stretch, or one that ends where the conversion of the routine is given up. -/
def Breaks (d : Discipline) (r : Routine) (c c' : Context) : Prop :=
  Writes d c c' ∨ ∃ c₁ c₂ key stub, Writes d c c₁ ∧ d.Begins c₁ key r stub ∧
    Writes d (c₁.enterRoutine key stub r.blank) c₂ ∧ c' = c₂.leaveRoutine key

theorem Breaks.after {c c₁ c₂ : Context} (h : Breaks d r c₁ c₂) (hw : Writes d c c₁) : Breaks d r c c₂ := by
  rcases h with h | ⟨c', c'', key, stub, h, hb, hin, rfl⟩
  · exact .inl (hw.trans h)
  · exact .inr ⟨c', c'', key, stub, hw.trans h, hb, hin, rfl⟩

theorem Breaks.writes {c c' : Context} (h : Breaks d r c c') (hf : d.policy.fails r.name) : Writes d c c' := by
  rcases h with h | ⟨c₁, c₂, key, stub, h, hb, hin, rfl⟩
  · exact h
  · exact h.trans (.failed hb hf hin)

theorem follows_defineSubroutine (hrun : Runs d A B again again')
    (hr : r.Obeys d) (hs : s.Over d) (hp : s.ctx.Permits .classical) (hkey : d.policy.routine key r)
    (hkind : r.kind ≠ .gate) (hk : s.ctx.converting.lookup key = none)
    (hm : s.ctx.root.hasSubroutine r.name = false)
    (hc : ∀ p ∈ r.params, d.policy.chosen s.ctx.nextVar p.name := by exact fun _ _ => trivial) :
    Follows d A B s.ctx (fun c => Breaks d r s.ctx c ∧ Forall₂ Program.Rests s.ctx.stack c.stack)
      (defineSubroutine again key r) (defineSubroutine again' key r) s
      (fun _ t => Writes d s.ctx t.ctx ∧ t.ctx.root.hasSubroutine r.name = true ∧
        d.policy.number t.ctx.nextVar ∧ Forall₂ Program.Rests s.ctx.stack t.ctx.stack) := by
  unfold defineSubroutine
  refine .seq (reads_makeStub s) hs ⟨.inl .refl, rests_refl _⟩ fun stub hstub => ?_
  have hb : d.Begins s.ctx key r stub := ⟨hp, hkey, hkind, hk, hm, hr.locals, hc, hstub⟩
  have hin : State.Over d { s with ctx := s.ctx.enterRoutine key stub r.blank } :=
    ⟨hs.bindings, hs.ctx, hs.finished⟩
  -- the conversion of the body, between entering the routine and leaving it
  have hbody : Follows d A B s.ctx
      (fun c => ∃ c₁, Writes d (s.ctx.enterRoutine key stub r.blank) c₁ ∧ c = c₁.leaveRoutine key)
      (withStub key stub <| withProgram r.blank do
        let value ← runBody again r r.formals
        emitResult r value
        return (← context).current.body)
      (withStub key stub <| withProgram r.blank do
        let value ← runBody again' r r.formals
        emitResult r value
        return (← context).current.body) s
      (fun body t => ∃ c₁, Writes d (s.ctx.enterRoutine key stub r.blank) c₁ ∧
        t.ctx = c₁.leaveRoutine key ∧ body = c₁.current.body ∧
        d.policy.defines s.ctx.build ⟨r.name, r.locals, r.returns, body, false⟩ ∧
        d.policy.number c₁.nextVar) := by
    unfold withStub withProgram
    refine .bracketContext (.bracketContext ?_ fun c => rfl) fun c => rfl
    have hentered : r.Entered (s.ctx.enterRoutine key stub r.blank) := by
      obtain ⟨z, hz, rfl⟩ := hstub
      exact ⟨hp, rfl, ⟨key, z, hz, rfl⟩, hm⟩
    refine ((follows_runBody (hrun.body r.body) (fun _ _ h => h) hr hr.formals hin).since
      fun hq => hq.enters (.routine hb)).traced.bind
      (F := fun c => ∃ c₁, Writes d (s.ctx.enterRoutine key stub r.blank) c₁ ∧
        c.leaveRoutine key = c₁.leaveRoutine key) (fun c hw => ⟨c, hw, rfl⟩) fun v t ht hw hv => ?_
    obtain ⟨⟨hv, hcounts⟩, -, hran⟩ := hv
    have hp' : t.ctx.Permits .classical := by
      have hin : (s.ctx.enterRoutine key stub r.blank).Permits .classical := hp
      exact hin.mono hw.advance
    have hc' : ∃ x ∈ t.ctx.converting.head?, x.2.returns = r.returns := by
      obtain ⟨z, -, rfl⟩ := hstub
      rw [hw.advance.converting]
      exact ⟨_, rfl, rfl⟩
    refine (Follows.of_goes (goes_emitResult hp' hv hc') ht fun c hc => ⟨c, hw.trans hc, rfl⟩).traced.bind
      (fun _ hc => hc) fun _ u hu _ hres => ?_
    obtain ⟨⟨c, rfl, hc, hnext⟩, -, hemit⟩ := hres
    have hdef := hrun.defines key r _ _ hkey hkind ⟨hentered, v, t, _, hran, hemit, rfl⟩
    have hnumber : d.policy.number c.nextVar := by
      rw [hnext]
      exact hcounts.1
    refine .seq (reads_context _) hu ⟨c, hw.trans hc, rfl⟩ fun c' hc' => ?_
    rw [hc']
    exact .pure hu ⟨c, hw.trans hc, rfl⟩ ⟨c, hw.trans hc, rfl, rfl, hdef, hnumber⟩
  refine hbody.bind ?_ fun body t ht _ hcap => ?_
  · rintro c ⟨c₁, hw₁, rfl⟩
    exact ⟨.inr ⟨s.ctx, c₁, key, stub, .refl, hb, hw₁, rfl⟩, Advance.rests_leaveProgram hw₁.advance.below⟩
  obtain ⟨c₁, hw₁, htc, rfl, hdef, hnumber⟩ := hcap
  have hbreaks : Breaks d r s.ctx t.ctx := .inr ⟨s.ctx, c₁, key, stub, .refl, hb, hw₁, htc⟩
  have hcount : d.policy.number t.ctx.nextVar := htc ▸ hnumber
  have hrests : Forall₂ Program.Rests s.ctx.stack t.ctx.stack := by
    rw [htc]
    exact Advance.rests_leaveProgram hw₁.advance.below
  refine .seq (reads_context t) ht ⟨hbreaks, hrests⟩ fun c hc => ?_
  subst hc
  split
  · rename_i hmissing
    have hw : Writes d s.ctx (t.ctx.updateRoot
        (·.addSubroutine ⟨r.name, r.locals, r.returns, c₁.current.body, false⟩)) := by
      rw [htc] at hmissing ⊢
      exact .subroutine hb hw₁ hdef (by simpa using hmissing)
    have hafter : Forall₂ Program.Rests s.ctx.stack (t.ctx.updateRoot
        (·.addSubroutine ⟨r.name, r.locals, r.returns, c₁.current.body, false⟩)).stack :=
      rests_trans hrests (rests_updateRoot (.addSubroutine _ _))
    exact .update ht rfl ⟨.inl hw, hafter⟩ ⟨hw, Program.hasSubroutine_addSubroutine _ _, hcount, hafter⟩
  · rename_i hthere
    have hthere : t.ctx.root.hasSubroutine r.name = true := by simpa using hthere
    have hw : Writes d s.ctx t.ctx := by
      rw [htc] at hthere ⊢
      exact .known hb hw₁ hthere
    exact .pure ht ⟨hbreaks, hrests⟩ ⟨hw, hthere, hcount, hrests⟩

theorem reads_checkTypes (s : State) : Reads (checkTypes r) s (fun _ => True) := by
  unfold checkTypes
  split
  · exact .refuse
  · exact .pure trivial

theorem reads_checkCount (s : State) : Reads (checkCount r args) s (fun _ => args.length = r.params.length) := by
  unfold checkCount
  split
  · exact .refuse
  · rename_i hlen
    exact .pure (by simpa using hlen)

theorem goes_emitCall {exprs : List Expr} (hp : s.ctx.Permits .classical)
    (hn : d.policy.number s.ctx.nextVar) (hk : d.Knows s.ctx r.name)
    (he : ∀ e ∈ exprs, d.Argument s.ctx e) :
    Goes d (emitCall r exprs) s (fun v c => (∀ u, v = some u → d.name u.name) ∧ d.Calls r exprs s.ctx c v) := by
  unfold emitCall
  cases hret : r.returns with
  | none =>
    refine (Goes.emit (.call hp hk he)).bind fun _ c _ hc => ?_
    subst hc
    refine (Goes.update (.returned (by simp))).bind fun _ c _ hc => .pure ⟨by simp, ?_⟩
    subst hc
    exact .statement hret (current_updateCurrent ..)
  | some t =>
    refine (goes_freshName t.kind hn).bind fun name c hw hfresh => ?_
    obtain ⟨⟨stem, hc⟩, hnum⟩ := hfresh
    have hgen := hnum.generated
    have hdecl : d.Declares c ⟨name, some t, some (.call r.name exprs (some t))⟩ :=
      .result hnum (hk.mono hw.advance) fun e h => (he e h).mono hw.advance
    refine (goes_declare (hp.mono hw.advance) hdecl).bind fun _ c' _ hc' => ?_
    obtain ⟨p, hp, hc'⟩ := hc'
    have hname : d.name name := hgen.over
    refine (Goes.update (.returned fun w hw => ?_)).bind fun _ c'' _ hc'' => .pure ⟨fun u hu => ?_, ?_⟩
    · cases hw
      exact hname
    · cases hu
      exact hname
    · subst hc' hc''
      have hcurrent : (c.updateCurrent fun _ => p).current = p := current_updateCurrent ..
      obtain ⟨kind, stem', names, hstem, hname, hlast, hnumber⟩ := hnum
      refine .result hret ⟨kind, stem', names, hstem, hname, hlast, hnumber⟩ ?_ ?_
      · rw [hc] at hlast ⊢
        exact congrArg (· :: s.ctx.given) (cons.inj hlast).1
      · rw [hc] at hp
        exact hp.trans (congrArg some hcurrent.symm)

theorem follows_callSubroutine (hrun : Runs d A B again again') (hr : r.Obeys d)
    (hkey : d.policy.routine key r) (hkind : r.kind ≠ .gate) (hs : s.Over d)
    (hn : d.policy.number s.ctx.nextVar) (hact : s.ctx.active = true) (ha : Fits d r.params args)
    (hc : ∀ p ∈ r.params, d.policy.chosen s.ctx.nextVar p.name) :
    Follows d A B s.ctx (Breaks d r s.ctx) (callSubroutine again key r args) (callSubroutine again' key r args) s
      (fun v t => (∀ u, v = some u → d.name u.name) ∧ Writes d s.ctx t.ctx ∧
        (∃ exprs, r.Binds args s exprs ∧ d.CallsDefined r exprs s.ctx t.ctx v) ∧ d.Knows t.ctx r.name) := by
  unfold callSubroutine
  refine .seq (reads_allow _ s) hs (.inl .refl) fun _ hallow => ?_
  refine .seq (reads_checkTypes s) hs (.inl .refl) fun _ _ => ?_
  refine .seq (reads_checkCount s) hs (.inl .refl) fun _ hcount => ?_
  refine .goes (goes_bindArguments ha).traced hs (fun _ hc => .inl hc) fun exprs c hw hs hbound => ?_
  obtain ⟨⟨hreg, hexprs, hreceives⟩, hbound⟩ := hbound
  have hbinds : r.Binds args s exprs := ⟨hcount, ⟨_, hbound⟩, hreceives⟩
  have hp : c.Permits .classical := Context.Permits.mono ⟨hact, hallow⟩ hw.advance
  have hn : d.policy.number c.nextVar := by rwa [hreg.nextVar]
  rw [← hreg.nextVar] at hc
  refine .seq (reads_context _) hs (.inl hw) fun c' hc' => ?_
  rw [hc']
  dsimp only
  -- the call is emitted in whatever context the definition leaves
  have hcall : ∀ t : State, t.Over d → Writes d c t.ctx → Forall₂ Program.Rests c.stack t.ctx.stack →
      d.policy.number t.ctx.nextVar → d.Knows t.ctx r.name →
      Follows d A B s.ctx (Breaks d r s.ctx) (emitCall r exprs) (emitCall r exprs) t
        (fun v t => (∀ u, v = some u → d.name u.name) ∧ Writes d s.ctx t.ctx ∧
          (∃ exprs, r.Binds args s exprs ∧ d.CallsDefined r exprs s.ctx t.ctx v) ∧ d.Knows t.ctx r.name) := by
    intro t ht hct hrests hnt hk
    have hargs : ∀ e ∈ exprs, d.Argument t.ctx e := fun e he => (hexprs e he).mono hct.advance
    refine (Follows.of_goes (goes_emitCall (hp.mono hct.advance) hnt hk hargs) ht
      fun _ hc => .inl ((hw.trans hct).trans hc)).mono (fun _ hc => hc) ?_
    rintro v _ ⟨c'', rfl, hc'', hv, hcalls⟩
    exact ⟨hv, (hw.trans hct).trans hc'',
      ⟨exprs, hbinds, t.ctx, hw.trans hct, hreg.stack ▸ hrests, hcalls⟩, hk.mono hc''.advance⟩
  split
  · rename_i stub hstub
    have hmem : (key, stub) ∈ c.converting := by
      obtain ⟨l₁, l₂, heq, -⟩ := lookup_eq_some_iff.1 hstub
      rw [heq]
      simp
    have hk : d.Knows c r.name := .inr ⟨key, stub, r, hmem, hkey, rfl⟩
    refine .goes (Goes.update (.stub hp hmem)) hs (fun _ hc => .inl (hw.trans hc)) fun _ c'' hw'' hs heq => ?_
    refine hcall _ hs hw'' ?_ ?_ (hk.mono hw''.advance)
    · rw [heq]
      exact rests_updateCurrent (.addSubroutine _ _)
    · rw [heq]
      exact hn
  · rename_i hidle
    refine .seq (reads_context _) hs (.inl hw) fun c'' hc'' => ?_
    rw [hc'']
    split
    · rename_i hmissing
      refine ((follows_defineSubroutine hrun hr hs hp hkey hkind hidle (by simpa using hmissing) hc).since
        fun hq => hq.writes hw).bind (fun _ hc => hc.1.after hw) fun _ t ht _ hdef => ?_
      obtain ⟨hct, hthere, hnt, hrests⟩ := hdef
      exact hcall t ht hct hrests hnt (.inl hthere)
    · rename_i hthere
      exact hcall _ hs .refl (rests_refl _) hn (.inl (by simpa using hthere))

theorem gateParam_ok {p : Param} {q : GateParam} (h : gateParam r p = .ok q) :
    q = if Param.isQubit p then .qubit p.name else .angle p.name := by
  obtain ⟨name, ty⟩ := p
  unfold gateParam at h
  cases ty with
  | none => cases h
  | some t =>
    cases hk : t.kind <;> simp [hk, Param.isQubit] at h ⊢ <;> exact h.symm

theorem name_of_gateParam {p : Param} {g : GateParam} (h : gateParam r p = .ok g) : g.var.name = p.name := by
  rw [gateParam_ok h]
  split <;> rfl

theorem follows_defineGateRoutine (hrun : Runs d A B again again')
    (hr : r.Obeys d) (hkey : d.policy.routine key r) (hkind : r.kind = .gate) (hs : s.Over d)
    (hact : s.ctx.active = true) :
    Follows d A B s.ctx (Writes d s.ctx) (defineGateRoutine again r) (defineGateRoutine again' r) s
      fun _ t => t.ctx.root.hasGate r.name = true := by
  refine .seq (reads_context s) hs .refl fun c hc => ?_
  subst hc
  dsimp only
  split
  · exact .refuseThen hs .refl
  rename_i hidle
  refine .seq (reads_liftDomain _ s) hs .refl fun params hparams => ?_
  have hargs : ∀ v ∈ params.map (fun p => Value.expr p.var.expr), v.Over d.name := by
    intro v hv
    obtain ⟨g, hg, rfl⟩ := mem_map.1 hv
    obtain ⟨p, hp, hpg⟩ := exists_of_forall₂ (forall₂_of_mapM hparams) g hg
    show d.name g.var.name
    rw [name_of_gateParam hpg]
    exact hr.params p hp
  have hopens : d.Opens s.ctx ⟨r.name, params⟩ := by
    refine .inr ⟨⟨key, r, hkey, hkind, rfl⟩, fun x hx hname => hidle ?_⟩
    exact any_eq_true.2 ⟨x, hx, beq_iff_eq.2 hname⟩
  refine follows_defineGate hopens ?_ (fun u hallowed hu => ?_) hs
  · exact (faithful_runBody hrun.plain hr hargs).bind fun _ _ => .of_goes fun _ => .pure trivial
  · rcases hbody : runBody again r (params.map fun p => Value.expr p.var.expr)
        { s with ctx := (s.ctx.enterGate ⟨r.name, params⟩).openBlock } with ⟨_ | v, t⟩
    · rw [bind_of_error hbody] at hu
      cases hu
    · rw [bind_of_ok hbody] at hu
      obtain rfl : t = u := (Prod.ext_iff.1 hu).2
      have hpermits : (s.ctx.enterGate ⟨r.name, params⟩).openBlock.Permits .unitary := ⟨hact, hallowed⟩
      exact hrun.definesGate key r _ hkey hkind ⟨params, _, v, t, hparams, hpermits, captured_openBlock _,
        rfl, hbody, rfl⟩

theorem mem_argumentsFor {p : Param → Bool} {ps : List Param} {v : Value}
    (h : v ∈ argumentsFor p ps args) : ∃ x ∈ ps.zip args, p x.1 = true ∧ x.2 = v := by
  obtain ⟨x, hx, rfl⟩ := mem_map.1 h
  obtain ⟨hx, hp⟩ := mem_filter.1 hx
  exact ⟨x, hx, hp, rfl⟩

theorem follows_callGate (hrun : Runs d A B again again')
    (hr : r.Obeys d) (hkey : d.policy.routine key r) (hkind : r.kind = .gate) (ha : Fits d r.params args)
    (hs : s.Over d) :
    Follows d A B s.ctx (Writes d s.ctx) (callGate again h r args) (callGate again' h r args) s
      fun _ t => t.ctx.root.hasGate r.name = true := by
  have hover : ∀ x ∈ r.params.zip args, x.2.Over d.name := fun x hx => ha.1 _ (of_mem_zip hx).2
  have happly : ∀ t : State, t.Over d → t.ctx.root.hasGate r.name = true → Follows d A B t.ctx (Writes d t.ctx)
        (applyGate h r.name (argumentsFor Param.isQubit r.params args)
          (argumentsFor (fun p => !Param.isQubit p) r.params args))
        (applyGate h r.name (argumentsFor Param.isQubit r.params args)
          (argumentsFor (fun p => !Param.isQubit p) r.params args)) t
        fun _ u => u.ctx.root.hasGate r.name = true := by
    intro t ht hthere
    refine (Follows.of_goes (goes_applyGate (.inr hthere) (fun v hv => ?_) fun v hv => ?_) ht
      fun _ hc => hc).mono (fun _ hc => hc) ?_
    · obtain ⟨x, hx, hq, rfl⟩ := mem_argumentsFor hv
      exact ⟨hover x hx, ha.2 x hx hq⟩
    · obtain ⟨x, hx, -, rfl⟩ := mem_argumentsFor hv
      exact hover x hx
    · rintro _ _ ⟨c, rfl, hw, -⟩
      exact hw.advance.hasGate hthere
  refine .seq (reads_requireActive h _ s) hs .refl fun _ hact => ?_
  refine .seq (reads_checkTypes s) hs .refl fun _ _ => ?_
  refine .seq (reads_checkCount s) hs .refl fun _ _ => ?_
  refine .seq (reads_allow _ s) hs .refl fun _ _ => ?_
  refine .seq (reads_context s) hs .refl fun c hc => ?_
  subst hc
  dsimp only
  split
  · exact (follows_defineGateRoutine hrun hr hkey hkind hs hact).bind (fun _ hc => hc)
      fun _ t ht hw hthere => ((happly t ht hthere).since fun hq => hq.writes hw).mono
        (fun _ hc => hw.trans hc) fun _ _ hthere => hthere
  · rename_i hthere
    exact happly s hs (by simpa using hthere)

theorem follows_declareRegister {o : Context} (hs : s.Over d) :
    Follows d A B o (fun _ => True) declareRegister declareRegister s (fun _ _ => True) := by
  have hsize : ∀ n, Follows d A B o (fun _ => True) (declareRegister.declareSize n)
      (declareRegister.declareSize n) s (fun _ _ => True) := fun n =>
    .seq (reads_allow _ s) hs trivial fun _ _ => .update hs rfl trivial trivial
  refine .seq (reads_context s) hs trivial fun c _ => ?_
  split
  · exact .pure hs trivial trivial
  · split
    · exact .refuse hs trivial
    · exact hsize _
  · exact hsize _
  · exact hsize _

theorem goes_makeProgram : Goes d makeProgram s (fun _ _ => True) := by
  refine .seq (reads_context s) fun c hc => ?_
  subst hc
  dsimp only
  split
  · exact (Goes.update (.announce ‹_›)).bind fun _ _ _ _ => .pure trivial
  · exact .pure trivial

theorem declareRegister_ok {t u : State} (h : declareRegister t = (.ok (), u)) :
    (t.ctx.config.declared? = none ∧ t.ctx.qubits = [] ∧ u = t) ∨
    ((t.ctx.config.declared? ≠ none ∨ t.ctx.qubits ≠ []) ∧
      (∀ n q, t.ctx.config.declared? = some n → t.ctx.qubits.getLast? = some q → q < n) ∧
      u = { t with ctx := t.ctx.withRegister t.ctx.registerSize }) := by
  have hsize : ∀ n, declareRegister.declareSize n t = (.ok (), u) → u = { t with ctx := t.ctx.withRegister n } := by
    intro n hn
    rcases (reads_allow .classical t).bind fun _ => updateContext (·.withRegister n) with
      ⟨e, -, he⟩ | ⟨_, _, he⟩
    · cases (Prod.ext_iff.1 (he.symm.trans hn)).1
    · exact (Prod.ext_iff.1 (he.symm.trans hn)).2.symm
  unfold declareRegister at h
  rw [bind_of_ok (context_apply t)] at h
  cases hdecl : t.ctx.config.declared? with
  | none =>
    cases hlast : t.ctx.qubits.getLast? with
    | none =>
      simp only [hdecl, hlast] at h
      exact .inl ⟨rfl, getLast?_eq_none_iff.1 hlast, (Prod.ext_iff.1 h).2.symm⟩
    | some q =>
      simp only [hdecl, hlast] at h
      have hne : t.ctx.qubits ≠ [] := by
        intro hnil
        simp [hnil] at hlast
      refine .inr ⟨.inr hne, by simp, ?_⟩
      simp only [Context.registerSize, hdecl, hlast]
      exact hsize _ h
  | some n =>
    have hreg : t.ctx.registerSize = n := by simp [Context.registerSize, hdecl]
    rw [hreg]
    cases hlast : t.ctx.qubits.getLast? with
    | none =>
      simp only [hdecl, hlast] at h
      exact .inr ⟨.inl (by simp), by simp, hsize n h⟩
    | some q =>
      simp only [hdecl, hlast] at h
      split at h
      · cases h
      · rename_i hlt
        refine .inr ⟨.inl (by simp), ?_, hsize n h⟩
        intro n' q' hn' hq'
        cases hn'
        cases hq'
        exact Int.not_le.1 hlt

/-- What neither the register nor the announcement of pulses is about is in the result as it is at the root. -/
theorem field_result {t u : State} (h : declareRegister t = (.ok (), u)) (f : Program → α)
    (hp : ∀ p, f p.enablePulse = f p) (hr : ∀ p v, f ((p.markDeclared v).prepend (.declare v)) = f p) :
    f u.ctx.result.program = f t.ctx.root := by
  have hu : f u.ctx.root = f t.ctx.root := by
    rcases declareRegister_ok h with ⟨-, -, rfl⟩ | ⟨-, -, rfl⟩
    · rfl
    · exact hr _ _
  rcases u.ctx.program_result with hprogram | hprogram
  · rw [hprogram, hu]
  · rw [hprogram, hp, hu]

theorem subroutines_result {t u : State} (h : declareRegister t = (.ok (), u)) :
    u.ctx.result.program.subroutines = t.ctx.root.subroutines :=
  field_result h (·.subroutines) (fun _ => rfl) fun _ _ => rfl

theorem gates_result {t u : State} (h : declareRegister t = (.ok (), u)) :
    u.ctx.result.program.gates = t.ctx.root.gates := field_result h (·.gates) (fun _ => rfl) fun _ _ => rfl

/-- A build that succeeds: the body, the register and the result. -/
theorem buildProgram_ok {s' : State} {p : BuiltProgram} (h : buildProgram again r config args s = (.ok p, s')) :
    ∃ v t u, runBody again r args (s.started config) = (.ok v, t) ∧ declareRegister t = (.ok (), u) ∧
      p = u.ctx.result := by
  obtain ⟨_, h, -⟩ := exists_of_inNewContext_ok h
  obtain ⟨v, t, hbody, h⟩ := exists_of_bind_ok h
  obtain ⟨_, u, hdecl, h⟩ := exists_of_bind_ok h
  refine ⟨v, t, u, hbody, hdecl, ?_⟩
  have hmake : (makeProgram u).1 = .ok u.ctx.result := by
    unfold makeProgram
    rw [bind_of_ok (context_apply u)]
    cases u.ctx.pulse <;> rfl
  exact (Except.ok.inj (hmake.symm.trans (Prod.ext_iff.1 h).1)).symm

/-- A build does not depend on the context around it. -/
theorem follows_buildProgram {o : Context} {E : Context → Prop} (hA : ∀ n id, Quiet d A (Context.start n config id))
    (hrun : ∀ steps, Faithful d A B (again steps) (again' steps) fun _ => True) (hr : r.Obeys d)
    (ha : ∀ v ∈ args, v.Over d.name) (hs : s.Over d) (hE : E s.ctx) :
    Follows d A B o E (buildProgram again r config args) (buildProgram again' r config args) s fun _ _ => True := by
  refine .inNewContext hs hE (hA _ _) fun hin => ?_
  refine (faithful_runBody hrun hr ha _ hin).bind (fun _ _ => trivial) fun _ t ht _ _ => ?_
  refine (follows_declareRegister ht).bind (fun _ _ => trivial) fun _ u hu _ _ => ?_
  exact (Follows.of_goes goes_makeProgram hu fun _ _ => trivial).mono (fun _ _ => trivial) fun _ _ _ => trivial

theorem reads_checkQubits (s : State) : Reads (checkQubits r config) s (fun _ => True) := by
  unfold checkQubits
  split
  · exact .refuse
  · exact .pure trivial

theorem reads_checkRegister (s : State) : Reads (checkRegister r) s (fun _ => True) := by
  unfold checkRegister
  split
  · exact .pure trivial
  · refine (reads_context s).seq fun c _ => ?_
    dsimp only
    split
    · exact .refuse
    · exact .pure trivial

/-- What a call gives back for the variable that holds the result. -/
def returnedValue : Option Var → Value
  | some v => .expr v.expr
  | none => .none

theorem follows_call (hA : ∀ n config id, Quiet d A (Context.start n config id)) (hrun : Runs d A B again again')
    (hr : r.Obeys d) (hkey : d.policy.routine key r) (hn : d.policy.number s.ctx.nextVar)
    (ha : Fits d r.params args) (hs : s.Over d)
    (hc : r.kind ≠ .gate → ∀ p ∈ r.params, d.policy.chosen s.ctx.nextVar p.name := by
      exact fun _ _ _ => trivial) :
    Follows d A B s.ctx (Breaks d r s.ctx) (call again h key r args) (call again' h key r args) s
      (fun v t => v.Over d.name ∧ Writes d s.ctx t.ctx ∧ (h = .own → s.ctx.active = true → d.Provides r t.ctx ∧
          (r.kind ≠ .gate → ∃ exprs u, v = returnedValue u ∧ r.Binds args s exprs ∧
            d.CallsDefined r exprs s.ctx t.ctx u))) := by
  refine Follows.mapError ?_
  split
  · rename_i hkind
    refine (follows_callGate hrun hr hkey hkind ha hs).bind (fun _ hw => .inl hw) fun _ t ht hw hthere => ?_
    have hprovides : d.Provides r t.ctx := ⟨fun _ => hthere, fun hk => absurd hkind hk⟩
    exact .pure ht (.inl hw) ⟨trivial, hw, fun _ _ => ⟨hprovides, fun hk => absurd hkind hk⟩⟩
  · rename_i hkind
    refine .seq (reads_checkQubits s) hs (.inl .refl) fun _ _ => ?_
    refine .seq (reads_isActive h s) hs (.inl .refl) fun active hactive => ?_
    split
    · rename_i hyes
      refine .seq (reads_checkRegister s) hs (.inl .refl) fun _ _ => ?_
      refine (follows_callSubroutine hrun hr hkey hkind hs hn (hactive.1 hyes) ha (hc hkind)).bind
        (fun _ hw => hw) fun v t ht _ hv => ?_
      obtain ⟨hv, hw, ⟨exprs, hbinds, hcalls⟩, hk⟩ := hv
      have hprovides : d.Provides r t.ctx := ⟨fun hgate => absurd hgate hkind, fun _ => hk⟩
      split
      · exact .pure ht (.inl hw) ⟨hv _ rfl, hw, fun _ _ => ⟨hprovides, fun _ => ⟨exprs, _, rfl, hbinds, hcalls⟩⟩⟩
      · exact .pure ht (.inl hw) ⟨trivial, hw, fun _ _ => ⟨hprovides, fun _ => ⟨exprs, _, rfl, hbinds, hcalls⟩⟩⟩
    · rename_i hno
      refine (follows_buildProgram (E := Writes d s.ctx) (fun n => hA n _) hrun.plain hr ha.1 hs .refl).bind
        (fun _ hw => .inl hw) fun p t ht hw _ => ?_
      exact .pure ht (.inl hw) ⟨trivial, hw, fun hown hact => absurd (hactive.2 hown hact) hno⟩

theorem faithful_build {settings : List Setting} (hA : ∀ n config id, Quiet d A (Context.start n config id))
    (hrun : ∀ steps, Faithful d A B (again steps) (again' steps) fun _ => True) (hr : r.Obeys d) :
    Faithful d A B (build again r settings) (build again' r settings) fun _ => True := by
  intro s hs
  unfold build
  split
  · exact .refuseThen hs .refl
  · refine .seq (reads_checkQubits s) hs .refl fun _ _ => ?_
    exact Follows.mapError (follows_buildProgram (fun n => hA n _) hrun hr (by simp) hs .refl)

end calls

end Convert

end QasmStudio

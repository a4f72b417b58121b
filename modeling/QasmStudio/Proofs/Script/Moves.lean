import QasmStudio.Proofs.Lang.Tables
import QasmStudio.Script.Workbench

/-!
# What scripts do to programs

An action changes a program of the workbench by one of its operations (`Edits`), copies one, or goes over to
another. Blocks are closed again on the program they were opened on, on every exit, and what they held is dropped
or becomes part of a statement. `Moves` is made of these, and however a script runs, it moves
(`moves_runWithin`).

The parts of a program that an action changes besides the innermost open block are told by the action alone
(`Action.Touches`).
-/

namespace QasmStudio.Workbench

open List

variable {α β : Type} {s t u : State} {i : Nat} {m : Work α}

/-! ### Work as a function of the state -/

theorem bind_apply (m : Work α) (f : α → Work β) (s : State) : (m >>= f) s = match m s with
      | (.ok a, s') => f a s'
      | (.error e, s') => (.error e, s') := by
  show (do let r ← m; _ : StateM State _) s = _
  simp only [bind, StateT.bind]
  rcases m s with ⟨_ | _, _⟩ <;> rfl

theorem bind_of_ok {a : α} (h : m s = (.ok a, t)) (f : α → Work β) : (m >>= f) s = f a t := by
  rw [bind_apply, h]

theorem bind_of_error {e : Stop} (h : m s = (.error e, t)) (f : α → Work β) : (m >>= f) s = (.error e, t) := by
  rw [bind_apply, h]

namespace State
variable {f : Program → Program}

theorem program_update_self (h : i < s.programs.length) : (s.update i f).program i = f (s.program i) := by
  simp [program, update, getD_eq_getElem?_getD, getElem?_eq_getElem h]

theorem program_update_of_ne {j : Nat} (h : j ≠ i) : (s.update i f).program j = s.program j := by
  simp [program, update, getD_eq_getElem?_getD, getElem?_modify_ne, Ne.symm h]

theorem program_mem (h : i < s.programs.length) : s.program i ∈ s.programs := by
  rw [program, getD_eq_getElem?_getD, getElem?_eq_getElem h]
  exact getElem_mem h

theorem length_update : (s.update i f).programs.length = s.programs.length := length_modify ..

theorem current_update : (s.update i f).current = s.current := rfl

end State

/-! ### What operations touch -/

/-- What operations change besides the innermost open block. -/
inductive Part where
  | front
  | declared
  | pending
  | definitions
  deriving DecidableEq, Repr

mutual
/-- Does the action change that part, at any depth? Definitions and statements put in front are made on
programs of their own. -/
def Action.Touches (k : Part) : Action → Prop
  | .declare _ | .markDeclared _ => k = .declared ∨ k = .pending
  | .addPending _ | .set _ _ => k = .pending
  | .prepend _ => k = .front
  | .addGate .. | .addSubroutine .. | .addCalibration .. | .enablePulse => k = .definitions
  | .block body | .loop _ body | .box body => Touch k body
  | .forIn _ _ body => (k = .declared ∨ k = .pending) ∨ Touch k body
  | .branch _ thn none => Touch k thn
  | .branch _ thn (some els) => Touch k thn ∨ Touch k els
  | _ => False

def Touch (k : Part) : List Step → Prop
  | [] => False
  | .mk action _ :: steps => action.Touches k ∨ Touch k steps
end

mutual
/-- Does the action put no declaration in front of a program? Bodies of definitions have programs of
their own. -/
def Action.Plain : Action → Prop
  | .prepend body => ∀ height s sts t, aside (runWithin height body) s = (.ok sts, t) →
      Stmt.allDeclarations sts = []
  | .block body | .forIn _ _ body | .loop _ body | .box body => Plain body
  | .branch _ thn none => Plain thn
  | .branch _ thn (some els) => Plain thn ∧ Plain els
  | _ => True

def Plain : List Step → Prop
  | [] => True
  | .mk action _ :: steps => action.Plain ∧ Plain steps
end

theorem of_mem_steps {action : Action} {guarded : Bool} {steps : List Step} (h : .mk action guarded ∈ steps) :
    (∀ k, action.Touches k → Touch k steps) ∧ (Plain steps → action.Plain) := by
  induction steps with
  | nil => cases h
  | cons st steps ih =>
    obtain ⟨a, g⟩ := st
    rcases mem_cons.1 h with heq | h
    · cases heq
      exact ⟨fun _ => .inl, And.left⟩
    · exact ⟨fun k hk => .inr ((ih h).1 k hk), fun hp => (ih h).2 hp.2⟩

/-! ### Moves -/

section moves
variable (K : Part → Prop) (front : Prop)

/-- An operation changes one program, at the parts `K`. If that matters, then what it puts in front of a program
declares nothing. -/
inductive Edits : Program → Program → Prop
  | add {p : Program} {st : Stmt} (h : st.declarations = []) : Edits p (p.add st)
  | declare {p q : Program} {v : Var} (hd : K .declared) (hp : K .pending) (h : p.declare? v = some q) : Edits p q
  | markDeclared {p : Program} (v : Var) (hd : K .declared) (hp : K .pending) : Edits p (p.markDeclared v)
  | addPending {p : Program} (v : Var) (hp : K .pending) : Edits p (p.addPending v)
  | prepends {p : Program} {sts : List Stmt} (hf : K .front) (h : front → Stmt.allDeclarations sts = []) :
      Edits p (sts.foldl Program.prepend p)
  | addGate {p : Program} (x : GateDef) (h : K .definitions) : Edits p (p.addGate x)
  | addSubroutine {p : Program} (x : SubroutineDef) (h : K .definitions) : Edits p (p.addSubroutine x)
  | addCalibration {p : Program} (x : CalibrationDef) (h : K .definitions) : Edits p (p.addCalibration x)
  | enablePulse {p : Program} (h : K .definitions) : Edits p p.enablePulse

inductive Moves : State → State → Prop
  | still {s t : State} (hp : t.programs = s.programs) (hc : t.current = s.current) : Moves s t
  | edit {s : State} {i : Nat} {f : Program → Program} (hi : i < s.programs.length)
      (h : Edits K front (s.program i) (f (s.program i))) : Moves s (s.update i f)
  /-- A block is opened and closed, and what it held is dropped. -/
  | block {s t : State} {i : Nat} (hi : i < s.programs.length) (h : Moves (s.update i (·.openBlock)) t) :
      Moves s (t.update i (·.closeBlock))
  /-- What a block held becomes a statement. -/
  | enclose {s t : State} {i : Nat} {st : Stmt} (hi : i < s.programs.length) (h : Moves (s.update i (·.openBlock)) t)
      (hst : st.declarations = Stmt.allDeclarations (t.program i).innermost) :
      Moves s ((t.update i (·.closeBlock)).update i (·.add st))
  | branch {s t u : State} {i : Nat} {cond : Expr} (hi : i < s.programs.length)
      (h : Moves (s.update i (·.openBlock)) t)
      (h' : Moves ((t.update i (·.closeBlock)).update i (·.openBlock)) u) :
      Moves s ((u.update i (·.closeBlock)).update i
        (·.add (.branch cond (t.program i).innermost (u.program i).innermost)))
  | copy (s : State) : Moves s { s with
      programs := s.programs ++ [(s.program s.current).copy]
      current := s.programs.length }
  | use {s : State} {i : Nat} (hi : i < s.programs.length) : Moves s { s with current := i }
  | trans {s t u : State} (h : Moves s t) (h' : Moves t u) : Moves s u

end moves

variable {K : Part → Prop} {front : Prop}

theorem Moves.bounds (h : Moves K front s t) (hs : s.current < s.programs.length) :
    t.current < t.programs.length ∧ s.programs.length ≤ t.programs.length := by
  induction h with
  | still hp hc =>
    rw [hp, hc]
    exact ⟨hs, le_rfl⟩
  | edit =>
    rw [State.length_update]
    exact ⟨hs, le_rfl⟩
  | block _ _ ih | enclose _ _ _ ih =>
    simp only [State.length_update, State.current_update] at ih ⊢
    exact ih hs
  | branch _ _ _ ih ih' =>
    simp only [State.length_update, State.current_update] at ih ih' ⊢
    obtain ⟨h, hle⟩ := ih hs
    exact ⟨(ih' h).1, hle.trans (ih' h).2⟩
  | copy => simp
  | use hi => exact ⟨hi, le_rfl⟩
  | trans _ _ ih ih' =>
    obtain ⟨h, hle⟩ := ih hs
    obtain ⟨h', hle'⟩ := ih' h
    exact ⟨h', hle.trans hle'⟩

/-! ### Work that moves -/

/-- Started in `s`, the work moves, whether it fails or not. -/
def MovesAt (K : Part → Prop) (front : Prop) (m : Work α) (s : State) : Prop :=
  s.current < s.programs.length → Moves K front s (m s).2

theorem MovesAt.bind {f : α → Work β} (hm : MovesAt K front m s)
    (hf : ∀ a t, m s = (.ok a, t) → Moves K front s t → MovesAt K front (f a) t) : MovesAt K front (m >>= f) s := by
  intro hs
  have h := hm hs
  rcases hr : m s with ⟨e | a, t⟩
  · rw [hr] at h
    rwa [bind_of_error hr]
  · rw [hr] at h
    rw [bind_of_ok hr]
    exact h.trans (hf a t hr h (h.bounds hs).1)

def Goes (K : Part → Prop) (front : Prop) (m : Work α) : Prop := ∀ s, MovesAt K front m s

/-- Work that leaves the programs alone, and which one is current. -/
def Still (m : Work α) : Prop := ∀ s, (m s).2.programs = s.programs ∧ (m s).2.current = s.current

namespace Still

theorem goes (h : Still m) : Goes K front m := fun s _ => .still (h s).1 (h s).2

theorem bind {f : α → Work β} (hm : Still m) (hf : ∀ a, Still (f a)) : Still (m >>= f) := by
  intro s
  have h := hm s
  rcases hr : m s with ⟨e | a, t⟩
  · rw [hr] at h
    rwa [bind_of_error hr]
  · rw [hr] at h
    rw [bind_of_ok hr]
    exact ⟨(hf a t).1.trans h.1, (hf a t).2.trans h.2⟩

theorem pure (a : α) : Still (pure a : Work α) := fun _ => ⟨rfl, rfl⟩

theorem throw (e : Stop) : Still (throw e : Work α) := fun _ => ⟨rfl, rfl⟩

theorem get : Still (get : Work State) := fun _ => ⟨rfl, rfl⟩

end Still

theorem still_liftOperand : ∀ r : Except ExprError α, Still (liftOperand r)
  | .ok a => .pure a
  | .error _ => .throw _

theorem still_expr (o : Operand) : Still (expr o) := Still.get.bind fun _ => still_liftOperand _

theorem still_exprs (os : List Operand) : Still (exprs os) := Still.get.bind fun _ => still_liftOperand _

theorem still_current : Still current := Still.get.bind fun _ => .pure _

theorem still_newVar (v : VarSpec) : Still (newVar v) := by
  unfold newVar
  have hbind : ∀ init, Still (do
      modify fun s => { s with bindings := s.bindings.bind v.name (.expr (Var.mk v.name v.ty init).expr) }
      return Var.mk v.name v.ty init : Work Var) := fun init => Still.bind (fun _ => ⟨rfl, rfl⟩) fun _ => .pure _
  split
  · exact (Still.pure _).bind hbind
  · exact ((still_expr _).bind fun _ => .pure _).bind hbind

theorem still_boundVar (v : VarSpec) : Still (boundVar v) := by
  unfold boundVar
  refine Still.get.bind fun _ => ?_
  split
  · exact .pure _
  · exact still_newVar v

theorem still_newVars : ∀ vs : List VarSpec, Still (vs.mapM newVar)
  | [] => .pure _
  | v :: vs => by
    rw [mapM_cons]
    exact (still_newVar v).bind fun _ => (still_newVars vs).bind fun _ => .pure _

theorem still_aside (body : Work Unit) : Still (aside body) := fun _ => ⟨rfl, rfl⟩

namespace Goes
variable {f : α → Work β}

theorem bind (hm : Goes K front m) (hf : ∀ a, Goes K front (f a)) : Goes K front (m >>= f) := fun s =>
  (hm s).bind fun a t _ _ => hf a t

theorem seq (hm : Still m) (hf : ∀ a, Goes K front (f a)) : Goes K front (m >>= f) := hm.goes.bind hf

theorem get_bind {f : State → Work α} (h : ∀ s, s.current < s.programs.length → MovesAt K front (f s) s) :
    Goes K front (get >>= f) := fun s hs => h s hs hs

theorem report {m : Work Unit} (h : Goes K front m) : Goes K front (do m; return .nothing : Work Report) :=
  h.bind fun _ => (Still.pure _).goes

theorem update {f : Program → Program} (h : ∀ p, Edits K front p (f p)) :
    Goes K front (do update f; return .nothing : Work Report) :=
  report fun _ hs => .edit hs (h _)

theorem add {st : Stmt} (h : st.declarations = []) : Goes K front (do add st; return .nothing : Work Report) :=
  update fun _ => .add h

theorem forM {f : α → Work Unit} {as : List α} (h : ∀ a ∈ as, Goes K front (f a)) : Goes K front (as.forM f) := by
  induction as with
  | nil => exact (Still.pure _).goes
  | cons a as ih =>
    obtain ⟨ha, has⟩ := forall_mem_cons.1 h
    exact ha.bind fun _ => ih has

end Goes

/-! ### Blocks -/

section blocks
variable {body : Work Unit}

theorem block_apply (i : Nat) (body : Work Unit) (s : State) :
    block i body s = ((body (s.update i (·.openBlock))).1.map
        fun _ => ((body (s.update i (·.openBlock))).2.program i).innermost,
      (body (s.update i (·.openBlock))).2.update i (·.closeBlock)) := rfl

theorem block_of_error {e : Stop} (h : body (s.update i (·.openBlock)) = (.error e, t)) :
    block i body s = (.error e, t.update i (·.closeBlock)) := by
  rw [block_apply, h]
  rfl

theorem block_of_ok (h : body (s.update i (·.openBlock)) = (.ok (), t)) :
    block i body s = (.ok (t.program i).innermost, t.update i (·.closeBlock)) := by
  rw [block_apply, h]
  rfl

theorem Goes.opened (hbody : Goes K front body) (hs : s.current < s.programs.length) :
    Moves K front (s.update i (·.openBlock)) (body (s.update i (·.openBlock))).2 :=
  hbody _ (by rwa [State.length_update])

theorem movesAt_block (hbody : Goes K front body) (hi : i < s.programs.length) : MovesAt K front (block i body) s :=
  fun hs => .block hi (hbody.opened hs)

/-- A statement around the block `body` of program `i`. -/
theorem movesAt_enclose (hbody : Goes K front body) (hi : i < s.programs.length) {mk : List Stmt → Stmt}
    (hmk : ∀ sts, (mk sts).declarations = Stmt.allDeclarations sts) :
    MovesAt K front (do addTo i (mk (← block i body)); return .nothing : Work Report) s := by
  intro hs
  have hopen := hbody.opened (i := i) hs
  rcases hr : body (s.update i (·.openBlock)) with ⟨e | _, t⟩
  · rw [bind_of_error (block_of_error hr)]
    rw [hr] at hopen
    exact .block hi hopen
  · rw [bind_of_ok (block_of_ok hr)]
    rw [hr] at hopen
    exact .enclose hi hopen (hmk _)

theorem movesAt_branch {thn els : Work Unit} (hthn : Goes K front thn) (hels : Goes K front els)
    (hi : i < s.programs.length) (cond : Expr) :
    MovesAt K front (do
      let t ← block i thn
      let e ← block i els
      addTo i (.branch cond t e)
      return .nothing : Work Report) s := by
  intro hs
  have hopen := hthn.opened (i := i) hs
  rcases hr : thn (s.update i (·.openBlock)) with ⟨e | _, t⟩
  · rw [bind_of_error (block_of_error hr)]
    rw [hr] at hopen
    exact .block hi hopen
  rw [bind_of_ok (block_of_ok hr)]
  rw [hr] at hopen
  have hfirst : Moves K front s (t.update i (·.closeBlock)) := .block hi hopen
  obtain ⟨hcur, hle⟩ := hfirst.bounds hs
  have hopen' := hels.opened (i := i) hcur
  rcases hr' : els ((t.update i (·.closeBlock)).update i (·.openBlock)) with ⟨e | _, u⟩
  · rw [bind_of_error (block_of_error hr')]
    rw [hr'] at hopen'
    exact hfirst.trans (.block (hi.trans_le hle) hopen')
  · rw [bind_of_ok (block_of_ok hr')]
    rw [hr'] at hopen'
    exact .branch hi hopen hopen'

end blocks

/-! ### Scripts -/

section again
variable {again : List Step → Work Unit}

theorem goes_declare (hd : K .declared) (hp : K .pending) (v : VarSpec) :
    Goes K front (perform again (.declare v)) := by
  refine .seq (still_newVar v) fun var s hs => ?_
  rw [bind_of_ok (m := current) (s := s) (t := s) rfl]
  cases hq : (s.program s.current).declare? var with
  | none => exact .still rfl rfl
  | some q => exact .edit hs (.declare hd hp hq)

theorem goes_use (n : Int) : Goes K front (perform again (.use n)) := by
  refine .get_bind fun s hs _ => ?_
  split
  · exact .still rfl rfl
  · exact .use (by omega)

end again

theorem goes_perform {height : Nat} {action : Action} (hK : ∀ k, action.Touches k → K k)
    (hfront : front → action.Plain)
    (hagain : ∀ body, (∀ k, Touch k body → K k) → (front → Plain body) → Goes K front (runWithin height body)) :
    Goes K front (perform (runWithin height) action) := by
  cases action with
  | declare v => exact goes_declare (hK _ (.inl rfl)) (hK _ (.inr rfl)) v
  | markDeclared v =>
    exact .seq (still_newVar v) fun var => .update fun _ => .markDeclared var (hK _ (.inl rfl)) (hK _ (.inr rfl))
  | addPending v => exact .seq (still_newVar v) fun var => .update fun _ => .addPending var (hK _ rfl)
  | set v value =>
    refine .seq (still_boundVar v) fun var => .seq (still_expr value) fun e => .report fun s hs => ?_
    have hpend : Moves K front s (s.update s.current (·.addPending var)) := .edit hs (.addPending var (hK _ rfl))
    have hset : s.update s.current (·.set var e) = (s.update s.current (·.addPending var)).update s.current
        (·.add (.assign var.expr e)) := by
      simp only [State.update, modify_modify_eq]
      rfl
    show Moves K front s (s.update s.current (·.set var e))
    rw [hset]
    exact hpend.trans (.edit (by rwa [State.length_update]) (.add rfl))
  | isUsed _ | lookup _ | declaredNames | hasGate _ | gates | hasSubroutine _ | subroutines
  | calibrations | bodyCount | source => exact (still_current.bind fun _ => .pure _).goes
  | subroutine name =>
    refine (still_current.bind fun p => ?_).goes
    split <;> exact .pure _
  | gate _ _ _ => exact .seq (still_exprs _) fun _ => .seq (still_exprs _) fun _ => .add rfl
  | reset _ | eval _ => exact .seq (still_expr _) fun _ => .add rfl
  | barrier _ => exact .seq (still_exprs _) fun _ => .add rfl
  | delay _ _ => exact .seq (still_expr _) fun _ => .seq (still_exprs _) fun _ => .add rfl
  | pragma _ | leave | next => exact .add rfl
  | result value =>
    cases value with
    | none => exact .add rfl
    | some v => exact .seq (still_expr _) fun _ => .add rfl
  | assign _ _ => exact .seq (still_expr _) fun _ => .seq (still_expr _) fun _ => .add rfl
  | prepend body =>
    refine fun s => (still_aside _).goes s |>.bind fun sts t hsts _ => ?_
    exact Goes.update (fun _ => .prepends (hK _ rfl) fun hf => hfront hf height s sts t hsts) t
  | block body =>
    exact .get_bind fun s hs => (movesAt_block (hagain body hK hfront) hs).bind fun _ t _ _ => (Still.pure _).goes t
  | branch cond thn els =>
    refine .seq (still_expr cond) fun c => .get_bind fun s hs => ?_
    cases els with
    | none => exact movesAt_enclose (hagain thn hK hfront) hs fun _ => append_nil _
    | some els =>
      exact movesAt_branch (hagain thn (fun k hk => hK k (.inl hk)) fun hf => (hfront hf).1)
        (hagain els (fun k hk => hK k (.inr hk)) fun hf => (hfront hf).2) hs c
  | forIn v iter body =>
    refine .seq (still_newVar v) fun var => .seq (still_expr iter) fun e => .get_bind fun s hs => ?_
    have hmark : Edits K front (s.program s.current) ((s.program s.current).markDeclared var) :=
      .markDeclared var (hK _ (.inl (.inl rfl))) (hK _ (.inl (.inr rfl)))
    refine MovesAt.bind (fun hs => .edit hs hmark) fun _ t ht _ => ?_
    cases ht
    exact movesAt_enclose (hagain body (fun k hk => hK k (.inr hk)) hfront) (by rwa [State.length_update]) fun _ => rfl
  | loop cond body =>
    exact .seq (still_expr cond) fun c => .get_bind fun s hs => movesAt_enclose (hagain body hK hfront) hs fun _ => rfl
  | box body => exact .get_bind fun s hs => movesAt_enclose (hagain body hK hfront) hs fun _ => rfl
  | addGate name _ _ _ =>
    exact .seq (still_newVars _) fun _ => .seq (still_newVars _) fun _ => .seq (still_aside _) fun _ =>
      .update fun _ => .addGate _ (hK _ rfl)
  | addSubroutine name _ returns _ =>
    exact .seq (still_newVars _) fun _ => .seq (still_aside _) fun _ => .update fun _ => .addSubroutine _ (hK _ rfl)
  | addCalibration gate _ _ _ =>
    exact .seq (still_exprs _) fun _ => .seq (still_exprs _) fun _ => .seq (still_aside _) fun _ =>
      .update fun _ => .addCalibration _ (hK _ rfl)
  | enablePulse => exact .update fun _ => .enablePulse (hK _ rfl)
  | copy => exact fun s _ => .copy s
  | use n => exact goes_use n
  | fail _ => exact (Still.throw _).goes

/-- However deep its bodies nest and wherever it fails, a script moves. -/
theorem goes_runWithin {height : Nat} {steps : List Step} (hK : ∀ k, Touch k steps → K k)
    (hfront : front → Plain steps) : Goes K front (runWithin height steps) := by
  induction height generalizing steps with
  | zero => exact (Still.pure _).goes
  | succ height ih =>
    refine .forM fun st hmem => ?_
    obtain ⟨action, guarded⟩ := st
    obtain ⟨htouch, hplain⟩ := of_mem_steps hmem
    intro s hs
    have hmoves := goes_perform (fun k hk => hK k (htouch k hk)) (fun hf => hplain (hfront hf))
      (fun _ => ih) s hs
    rcases hp : perform (runWithin height) action s with ⟨(_ | _ | _) | _, t⟩ <;>
    · rw [hp] at hmoves
      simp only [step, hp]
      -- noting the action does not touch the programs
      exact hmoves.trans (.still rfl rfl)

end QasmStudio.Workbench

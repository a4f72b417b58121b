import QasmStudio.Proofs.Script.Reachable

/-!
# Failed blocks

Only statements live on the blocks of a program; the tables are flat, and statements are put in front of
the top level from any depth. So a script changes the innermost open block and whatever `Part` of the rest
its operations touch (`Evolves`), and when a block is closed what was in it is gone, but what its
operations did to the rest stays (`Restored`). A failed block, branch or loop is closed like any other.
-/

namespace QasmStudio.Workbench

/-! ### Bodies -/

/-- The bodies that the action runs in blocks of the current program. -/
def Action.bodies : Action → List (List Step)
  | .block body | .forIn _ _ body | .loop _ body | .box body => [body]
  | .branch _ thn els => thn :: els.toList
  | _ => []

/-- Do the bodies of the action change that part? -/
def Action.BodiesTouch (action : Action) (k : Part) : Prop := ∃ body ∈ action.bodies, Touch k body

/-! ### Programs that change -/

/-- The tables are those of `p` but for the parts `K`: there names stay declared, and variables wait on in
their order unless one of that name has been declared. -/
structure Kept (K : Part → Prop) (p q : Program) : Prop where
  names : ∀ name, p.isDeclared name = true → q.isDeclared name = true
  waiting : ∃ (gone : List String) (new : List Var), (∀ name ∈ gone, q.isDeclared name = true) ∧
    q.pending = p.pending.filter (!gone.contains ·.name) ++ new
  declared : ¬ K .declared → q.declared = p.declared
  pending : ¬ K .pending → q.pending = p.pending
  definitions : ¬ K .definitions → q.gates = p.gates ∧ q.subroutines = p.subroutines ∧
    q.calibrations = p.calibrations ∧ q.pulse = p.pulse

/-- The blocks are those of `p`, with nothing in front of the top level unless `K` has it. -/
structure Restored (K : Part → Prop) (p q : Program) : Prop extends Kept K p q where
  nested : q.nested = p.nested
  top : ∃ before, q.top = before ++ p.top ∧ (¬ K .front → before = [])

/-- The same blocks are open, and all but the innermost have the statements they had. -/
structure Evolves (K : Part → Prop) (p q : Program) : Prop extends Kept K p q where
  depth : q.nested.length = p.nested.length
  outer : q.nested.tail = p.nested.tail
  top : ∃ before after, q.top = before ++ p.top ++ after ∧ (¬ K .front → before = []) ∧
    (p.nested ≠ [] → after = [])

variable {K : Part → Prop} {p q r : Program}

namespace Kept

theorem of_waiting (hd : q.declared = p.declared) (hp : q.pending = p.pending)
    (h : ¬ K .definitions → q.gates = p.gates ∧ q.subroutines = p.subroutines ∧
      q.calibrations = p.calibrations ∧ q.pulse = p.pulse) : Kept K p q where
  names name hname := by rwa [Program.isDeclared, hd]
  waiting := ⟨[], [], by simp, by simp [hp]⟩
  declared _ := hd
  pending _ := hp
  definitions := h

theorem refl (K : Part → Prop) (p : Program) : Kept K p p := .of_waiting rfl rfl fun _ => ⟨rfl, rfl, rfl, rfl⟩

theorem trans (h₁ : Kept K p q) (h₂ : Kept K q r) : Kept K p r where
  names name hname := h₂.names name (h₁.names name hname)
  waiting := by
    obtain ⟨gone₁, new₁, hgone₁, hq⟩ := h₁.waiting
    obtain ⟨gone₂, new₂, hgone₂, hr⟩ := h₂.waiting
    refine ⟨gone₁ ++ gone₂, new₁.filter (!gone₂.contains ·.name) ++ new₂, fun name hname => ?_, ?_⟩
    · rcases List.mem_append.1 hname with hname | hname
      · exact h₂.names name (hgone₁ name hname)
      · exact hgone₂ name hname
    · rw [hr, hq, List.filter_append, List.filter_filter, List.append_assoc]
      congr 2
      funext v
      simp [Bool.and_comm]
  declared hk := (h₂.declared hk).trans (h₁.declared hk)
  pending hk := (h₂.pending hk).trans (h₁.pending hk)
  definitions hk := by
    obtain ⟨hg₁, hs₁, hc₁, hp₁⟩ := h₁.definitions hk
    obtain ⟨hg₂, hs₂, hc₂, hp₂⟩ := h₂.definitions hk
    exact ⟨hg₂.trans hg₁, hs₂.trans hs₁, hc₂.trans hc₁, hp₂.trans hp₁⟩

theorem markDeclared (hd : K .declared) (hp : K .pending) (p : Program) (v : Var) :
    Kept K p (p.markDeclared v) where
  names name hname := by
    rw [Program.isDeclared_markDeclared]
    simp [hname]
  waiting := by
    refine ⟨[v.name], [], by simp [Program.isDeclared_markDeclared], ?_⟩
    rw [List.append_nil]
    exact List.filter_congr fun x _ => by simp [bne, beq_eq_decide]
  declared hk := absurd hd hk
  pending hk := absurd hp hk
  definitions _ := ⟨rfl, rfl, rfl, rfl⟩

theorem addPending (hp : K .pending) (p : Program) (v : Var) : Kept K p (p.addPending v) := by
  unfold Program.addPending
  split
  · exact .refl K p
  · exact ⟨fun _ h => h, ⟨[], [v], by simp, by simp⟩, fun _ => rfl, fun hk => absurd hp hk,
      fun _ => ⟨rfl, rfl, rfl, rfl⟩⟩

theorem add (K : Part → Prop) (p : Program) (st : Stmt) : Kept K p (p.add st) :=
  .of_waiting rfl rfl fun _ => ⟨rfl, rfl, rfl, rfl⟩

end Kept

namespace Evolves

theorem of_kept (h : Kept K p q) (hn : q.nested = p.nested) (ht : q.top = p.top) : Evolves K p q where
  toKept := h
  depth := by rw [hn]
  outer := by rw [hn]
  top := ⟨[], [], by simp [ht], fun _ => rfl, fun _ => rfl⟩

theorem refl (K : Part → Prop) (p : Program) : Evolves K p p := .of_kept (.refl K p) rfl rfl

theorem trans (h₁ : Evolves K p q) (h₂ : Evolves K q r) : Evolves K p r where
  toKept := h₁.toKept.trans h₂.toKept
  depth := h₂.depth.trans h₁.depth
  outer := h₂.outer.trans h₁.outer
  top := by
    obtain ⟨before₁, after₁, hq, hfront₁, hback₁⟩ := h₁.top
    obtain ⟨before₂, after₂, hr, hfront₂, hback₂⟩ := h₂.top
    refine ⟨before₂ ++ before₁, after₁ ++ after₂, by simp [hr, hq], fun hk => ?_, fun hne => ?_⟩
    · rw [hfront₁ hk, hfront₂ hk, List.append_nil]
    · have hne' : q.nested ≠ [] := List.length_pos_iff.1 (h₁.depth ▸ List.length_pos_iff.2 hne)
      rw [hback₁ hne, hback₂ hne', List.append_nil]

theorem add (K : Part → Prop) (p : Program) (st : Stmt) : Evolves K p (p.add st) where
  toKept := .add K p st
  depth := length_nested_add p st
  outer := by
    unfold Program.add
    cases p.nested <;> rfl
  top := by
    unfold Program.add
    cases hn : p.nested with
    | nil => exact ⟨[], [st], rfl, fun _ => rfl, fun hne => absurd rfl hne⟩
    | cons b bs => exact ⟨[], [], by simp, fun _ => rfl, fun _ => rfl⟩

theorem addPending (hp : K .pending) (p : Program) (v : Var) : Evolves K p (p.addPending v) :=
  .of_kept (.addPending hp p v) (nested_addPending p v) (by unfold Program.addPending; split <;> rfl)

theorem declare {v : Var} (hd : K .declared) (hp : K .pending) (h : p.declare? v = some q) : Evolves K p q := by
  unfold Program.declare? at h
  split at h
  · cases h
  · cases h
    exact (of_kept (.markDeclared hd hp p v) rfl rfl).trans (.add K _ _)

theorem prepends (hf : K .front) (sts : List Stmt) (p : Program) : Evolves K p (sts.foldl Program.prepend p) := by
  induction sts generalizing p with
  | nil => exact .refl K p
  | cons st sts ih =>
    have hfirst : Evolves K p (p.prepend st) := ⟨.of_waiting rfl rfl fun _ => ⟨rfl, rfl, rfl, rfl⟩, rfl, rfl,
        [st], [], by simp [Program.prepend], fun hk => absurd hf hk, fun _ => rfl⟩
    exact hfirst.trans (ih _)

theorem define (hdef : K .definitions) (hn : q.nested = p.nested) (ht : q.top = p.top)
    (hd : q.declared = p.declared) (hp : q.pending = p.pending) : Evolves K p q :=
  .of_kept (.of_waiting hd hp fun hk => absurd hdef hk) hn ht

/-- Whatever happened in a block that was opened, closing it brings the other blocks back. -/
theorem closeBlock (h : Evolves K p.openBlock q) : Restored K p q.closeBlock where
  names := h.names
  waiting := h.waiting
  declared := h.declared
  pending := h.pending
  definitions := h.definitions
  nested := h.outer
  top := by
    obtain ⟨before, after, htop, hfront, hback⟩ := h.top
    rw [hback (List.cons_ne_nil _ _), List.append_nil] at htop
    exact ⟨before, htop, hfront⟩

end Evolves

namespace Restored

theorem evolves (h : Restored K p q) : Evolves K p q := by
  obtain ⟨before, htop, hfront⟩ := h.top
  exact ⟨h.toKept, by rw [h.nested], by rw [h.nested], before, [], by simp [htop], hfront, fun _ => rfl⟩

theorem trans (h₁ : Restored K p q) (h₂ : Restored K q r) : Restored K p r := by
  obtain ⟨before₁, hq, hfront₁⟩ := h₁.top
  obtain ⟨before₂, hr, hfront₂⟩ := h₂.top
  refine ⟨h₁.toKept.trans h₂.toKept, h₂.nested.trans h₁.nested, before₂ ++ before₁, by simp [hr, hq], ?_⟩
  intro hk
  rw [hfront₁ hk, hfront₂ hk, List.append_nil]

/-- Nothing is left of a block whose operations touch none of the parts. -/
theorem eq_of_untouched (h : Restored K p q) (hk : ∀ k, ¬ K k) : q = p := by
  obtain ⟨before, htop, hfront⟩ := h.top
  obtain ⟨hg, hs, hc, hp⟩ := h.definitions (hk _)
  have ht : q.top = p.top := by rw [htop, hfront (hk _), List.nil_append]
  cases p
  cases q
  simp only [Program.mk.injEq]
  exact ⟨ht, h.nested, h.declared (hk _), h.pending (hk _), hg, hs, hc, hp⟩

end Restored

/-! ### Scripts -/

variable {α β : Type} {s t u : State} {i : Nat} {body : Work Unit} {m : Work α}

/-- What a stretch of a script that touches the parts `K` does to the programs that were there. -/
structure Changes (K : Part → Prop) (s t : State) : Prop where
  current_lt : t.current < t.programs.length
  length_le : s.programs.length ≤ t.programs.length
  evolves : ∀ i < s.programs.length, Evolves K (s.program i) (t.program i)

namespace Changes

theorem trans (h₁ : Changes K s t) (h₂ : Changes K t u) : Changes K s u where
  current_lt := h₂.current_lt
  length_le := h₁.length_le.trans h₂.length_le
  evolves i hi := (h₁.evolves i hi).trans (h₂.evolves i (hi.trans_le h₁.length_le))

theorem of_eq (hs : s.current < s.programs.length) (hp : t.programs = s.programs)
    (hc : t.current = s.current) : Changes K s t := by
  refine ⟨by rw [hp, hc]; exact hs, by rw [hp], fun i _ => ?_⟩
  rw [State.program, State.program, hp]
  exact .refl K _

theorem update {f : Program → Program} (hs : s.current < s.programs.length) (hi : i < s.programs.length)
    (hf : Evolves K (s.program i) (f (s.program i))) : Changes K s (s.update i f) := by
  refine ⟨by rwa [State.length_update], by rw [State.length_update], fun j _ => ?_⟩
  by_cases hij : j = i
  · subst hij
    rwa [State.program_update_self hi]
  · rw [State.program_update_of_ne hij]
    exact .refl K _

/-- A block of program `i` is opened, changed and closed. -/
theorem close (hi : i < s.programs.length) (h : Changes K (s.update i (·.openBlock)) t) :
    Changes K s (t.update i (·.closeBlock)) ∧ Restored K (s.program i) ((t.update i (·.closeBlock)).program i) := by
  have hlen : s.programs.length ≤ t.programs.length := State.length_update (s := s) ▸ h.length_le
  have hopened := h.evolves i (State.length_update (s := s) ▸ hi)
  rw [State.program_update_self hi] at hopened
  have hclosed : Restored K (s.program i) ((t.update i (·.closeBlock)).program i) := by
    rw [State.program_update_self (hi.trans_le hlen)]
    exact hopened.closeBlock
  refine ⟨⟨?_, ?_, fun j hj => ?_⟩, hclosed⟩
  · rw [State.length_update]
    exact h.current_lt
  · rwa [State.length_update]
  · by_cases hij : j = i
    · exact hij ▸ hclosed.evolves
    · have hother := h.evolves j (State.length_update (s := s) ▸ hj)
      rw [State.program_update_of_ne hij] at hother
      rwa [State.program_update_of_ne hij]

end Changes

theorem Edits.evolves {front : Prop} (h : Edits K front p q) : Evolves K p q := by
  cases h with
  | add => exact .add K p _
  | declare hd hp h => exact .declare hd hp h
  | markDeclared v hd hp => exact .of_kept (.markDeclared hd hp p v) rfl rfl
  | addPending v hp => exact .addPending hp p v
  | prepends hf => exact .prepends hf _ p
  | addGate _ h | addSubroutine _ h | addCalibration _ h | enablePulse h => exact .define h rfl rfl rfl rfl

theorem Moves.changes {front : Prop} (h : Moves K front s t) (hs : s.current < s.programs.length) : Changes K s t := by
  induction h with
  | still hp hc => exact .of_eq hs hp hc
  | edit hi h => exact .update hs hi h.evolves
  | block hi _ ih => exact ((ih (by rwa [State.length_update])).close hi).1
  | enclose hi _ _ ih =>
    have hclosed := ((ih (by rwa [State.length_update])).close hi).1
    exact hclosed.trans (.update hclosed.current_lt (hi.trans_le hclosed.length_le) (.add K _ _))
  | branch hi _ _ ih ih' =>
    have hclosed := ((ih (by rwa [State.length_update])).close hi).1
    have hi' := hi.trans_le hclosed.length_le
    have hboth := hclosed.trans ((ih' (by rw [State.length_update]; exact hclosed.current_lt)).close hi').1
    exact hboth.trans (.update hboth.current_lt (hi.trans_le hboth.length_le) (.add K _ _))
  | copy s =>
    refine ⟨?_, ?_, fun i hi => ?_⟩
    · exact List.length_append ▸ Nat.lt_succ_self _
    · exact List.length_append ▸ Nat.le_succ _
    · have hold : (State.mk (s.programs ++ [(s.program s.current).copy]) s.programs.length s.bindings
          s.entries).program i = s.program i := by
        simp [State.program, List.getD_eq_getElem?_getD, List.getElem?_append_left hi]
      exact hold ▸ .refl K _
  | use hi => exact ⟨hi, le_rfl, fun _ _ => .refl K _⟩
  | trans _ _ ih ih' => exact (ih hs).trans (ih' (ih hs).current_lt)

/-- The block is closed on every exit, and the other blocks of the program are as they were. -/
theorem restored_block (hbody : Goes K False body) (hs : s.current < s.programs.length)
    (hi : i < s.programs.length) :
    Changes K s (block i body s).2 ∧ Restored K (s.program i) ((block i body s).2.program i) :=
  ((hbody.opened hs).changes (by rwa [State.length_update])).close hi

/-! ### Failed actions -/

/-- A body of the action fails with `e`, where `p` is the program that the bodies were started on: a loop
over a range has declared its variable by then. -/
inductive BodyFails (again : List Step → Work Unit) (s : State) (e : Stop) : Action → Program → Prop
  | block {body : List Step} {t : State}
      (h : again body (s.update s.current (·.openBlock)) = (.error e, t)) :
      BodyFails again s e (.block body) (s.program s.current)
  | thn {cond : Operand} {c : Expr} {thn : List Step} {els : Option (List Step)} {t : State}
      (hc : expr cond s = (.ok c, s)) (h : again thn (s.update s.current (·.openBlock)) = (.error e, t)) :
      BodyFails again s e (.branch cond thn els) (s.program s.current)
  | els {cond : Operand} {c : Expr} {thn els : List Step} {t u : State}
      (hc : expr cond s = (.ok c, s)) (hthn : again thn (s.update s.current (·.openBlock)) = (.ok (), t))
      (h : again els ((t.update s.current (·.closeBlock)).update s.current (·.openBlock)) = (.error e, u)) :
      BodyFails again s e (.branch cond thn (some els)) (s.program s.current)
  | forIn {v : VarSpec} {var : Var} {iter : Operand} {it : Expr} {body : List Step} {s' t : State}
      (hv : newVar v s = (.ok var, s')) (hit : expr iter s' = (.ok it, s'))
      (h : again body ((s'.update s.current (·.markDeclared var)).update s.current (·.openBlock)) =
        (.error e, t)) :
      BodyFails again s e (.forIn v iter body) ((s.program s.current).markDeclared var)
  | loop {cond : Operand} {c : Expr} {body : List Step} {t : State}
      (hc : expr cond s = (.ok c, s)) (h : again body (s.update s.current (·.openBlock)) = (.error e, t)) :
      BodyFails again s e (.loop cond body) (s.program s.current)
  | box {body : List Step} {t : State}
      (h : again body (s.update s.current (·.openBlock)) = (.error e, t)) :
      BodyFails again s e (.box body) (s.program s.current)

theorem restored_of_error {e : Stop} (hbody : Goes K False body)
    (hs : s.current < s.programs.length) (hi : i < s.programs.length)
    (h : body (s.update i (·.openBlock)) = (.error e, t)) :
    Restored K (s.program i) ((t.update i (·.closeBlock)).program i) := by
  have hrest := (restored_block hbody hs hi).2
  rwa [block_of_error h] at hrest

/-- When a body of a block, branch, loop or box fails, the operation fails with the same error and closes
what it opened: all open blocks have the statements they had, but for what the bodies put in front of the
top level. Names stay declared, and variables wait unless one of their name was declared. Parts of the
program that the bodies do not touch are as they were, and if they touch none the program is. -/
theorem failed_block {height : Nat} {e : Stop} {action : Action} (hs : s.current < s.programs.length)
    (h : BodyFails (runWithin height) s e action p) :
    ∃ t, perform (runWithin height) action s = (.error e, t) ∧
      Restored action.BodiesTouch p (t.program s.current) ∧
      ((∀ k, ¬ action.BodiesTouch k) → t.program s.current = p) := by
  suffices hsuff : ∃ t, perform (runWithin height) action s = (.error e, t) ∧
      Restored action.BodiesTouch p (t.program s.current) by
    obtain ⟨t, hperform, hrest⟩ := hsuff
    exact ⟨t, hperform, hrest, hrest.eq_of_untouched⟩
  have hbody : ∀ body ∈ action.bodies, Goes action.BodiesTouch False (runWithin height body) :=
    fun body hmem => goes_runWithin (fun k hk => ⟨body, hmem, hk⟩) False.elim
  cases h with
  | block hfail | box hfail =>
    exact ⟨_, bind_of_error (block_of_error hfail) _,
      restored_of_error (hbody _ (List.mem_singleton.2 rfl)) hs hs hfail⟩
  | loop hc hfail =>
    exact ⟨_, (bind_of_ok hc _).trans (bind_of_error (block_of_error hfail) _),
      restored_of_error (hbody _ (List.mem_singleton.2 rfl)) hs hs hfail⟩
  | thn hc hfail =>
    exact ⟨_, (bind_of_ok hc _).trans (bind_of_error (block_of_error hfail) _),
      restored_of_error (hbody _ (List.mem_cons_self ..)) hs hs hfail⟩
  | @els cond c thn els t u hc hthn hfail =>
    obtain ⟨hchg, hfirst⟩ := restored_block (hbody thn (List.mem_cons_self ..)) hs hs
    rw [block_of_ok hthn] at hchg hfirst
    have hsecond := restored_of_error (hbody els (by simp [Action.bodies])) hchg.current_lt
      (hs.trans_le hchg.length_le) hfail
    refine ⟨_, ?_, hfirst.trans hsecond⟩
    exact (bind_of_ok hc _).trans ((bind_of_ok (block_of_ok hthn) _).trans
      (bind_of_error (block_of_error hfail) _))
  | @forIn v var iter it body s' t hv hit hfail =>
    -- binding the variable leaves the programs alone
    obtain ⟨hprog, hcur⟩ := still_newVar v s
    rw [hv] at hprog hcur
    have hs' : s'.current < s'.programs.length := by rwa [hprog, hcur]
    have hself : (s'.update s.current (·.markDeclared var)).program s.current =
        (s.program s.current).markDeclared var := by
      rw [State.program_update_self (by rwa [hprog]), State.program, hprog, State.program]
    rw [← hself]
    refine ⟨t.update s.current (·.closeBlock), ?_, restored_of_error (hbody body (List.mem_singleton.2 rfl))
      (by rwa [State.length_update]) (by rwa [State.length_update, hprog]) hfail⟩
    rw [← hcur] at hfail ⊢
    exact (bind_of_ok hv _).trans ((bind_of_ok hit _).trans (bind_of_error (block_of_error hfail) _))

/-- A program with a block open and a variable that waits for its declaration. -/
def halfBuilt : Program where
  top := [.pragma "first"]
  nested := [[.break]]
  pending := [⟨"y", some Ty.int, none⟩]

/-- The variable is declared in one branch; the other one puts a pragma in front, adds a statement and
fails. -/
def failingBranch : Action :=
  .branch (.const (.bool true)) [.mk (.declare { name := "y", ty := some Ty.int }) false]
    (some [.mk (.prepend [.mk (.pragma "front") false]) false, .mk .next false, .mk (.fail "boom") false])

theorem failed_block_branch :
    BodyFails (runWithin 2) { programs := [halfBuilt] } (.error (.user "boom")) failingBranch halfBuilt ∧
    ¬ failingBranch.BodiesTouch .definitions ∧
    ∃ t, perform (runWithin 2) failingBranch { programs := [halfBuilt] } =
        (.error (.error (.user "boom")), t) ∧
      (t.program 0).nested = [[.break]] ∧ (∃ before, (t.program 0).top = before ++ [.pragma "first"]) ∧
      (t.program 0).gates = [] := by
  have hfails : BodyFails (runWithin 2) { programs := [halfBuilt] } (.error (.user "boom")) failingBranch
      halfBuilt := .els (c := _) rfl rfl rfl
  have huntouched : ¬ failingBranch.BodiesTouch .definitions := by
    simp [Action.BodiesTouch, Action.bodies, failingBranch, Touch, Action.Touches]
  obtain ⟨t, hperform, hrest, -⟩ := failed_block Nat.one_pos hfails
  obtain ⟨before, htop, -⟩ := hrest.top
  exact ⟨hfails, huntouched, t, hperform, hrest.nested, ⟨before, htop⟩, (hrest.definitions huntouched).1⟩

/-- What a failed block declared, registered or put in front stays, and so does the variable of a failed
loop. -/
theorem traces_of_failed_block :
    let boom : Step := .mk (.fail "boom") false
    let x : VarSpec := { name := "x", ty := some Ty.int }
    let s : State := {}
    s.program 0 = Program.empty ∧
    (∃ t, perform (runWithin 2) (.block [.mk (.declare x) false, boom]) s = (.error (.error (.user "boom")), t) ∧
      (t.program 0).isDeclared "x" = true) ∧
    (∃ t, perform (runWithin 2) (.block [.mk (.addPending x) false, boom]) s =
        (.error (.error (.user "boom")), t) ∧
      (t.program 0).isPending "x" = true) ∧
    (∃ t, perform (runWithin 2) (.block [.mk (.prepend [.mk (.pragma "front") false]) false, boom]) s =
        (.error (.error (.user "boom")), t) ∧
      (t.program 0).top = [.pragma "front"]) ∧
    ∃ t, perform (runWithin 2) (.forIn x (.const (.bool true)) [boom]) s =
        (.error (.error (.user "boom")), t) ∧
      (t.program 0).isDeclared "x" = true :=
  ⟨rfl, ⟨_, rfl, rfl⟩, ⟨_, rfl, rfl⟩, ⟨_, rfl, rfl⟩, ⟨_, rfl, rfl⟩⟩

end QasmStudio.Workbench

import QasmStudio.Proofs.Convert.Additions
import QasmStudio.Proofs.Convert.Interpreter

/-!
# Judgements on operations

An operation is made of conversions that run no body, of bodies, and of a few ways to put them together: one
after the other, under a tag, in a block, in a program or a definition of its own, in another context. A
`Judgement` is a property that all of these ways preserve, so every operation has it whose bodies have it
(`Judgement.perform`). What is asked of a body may depend on the place where it is run: in a loop of the
program, say, or in the definition of a gate.

What runs no body is `Neat`: it stops for reasons of its own, and goes back to where it was.
-/

namespace QasmStudio

open List

/-- What decides which bodies may be entered. -/
structure Level where
  gates : List GateRecord
  converting : List (Nat × Stub)
  active : Bool

namespace Stmt

mutual
/-- Does the statement have a break or a continue that is in no loop of it? -/
def isLoose : Stmt → Bool
  | .break | .continue => true
  | .branch _ thn els => areLoose thn || areLoose els
  | .box body => areLoose body
  | _ => false

def areLoose : List Stmt → Bool
  | [] => false
  | st :: sts => st.isLoose || areLoose sts
end

theorem areLoose_append (xs ys : List Stmt) : areLoose (xs ++ ys) = (areLoose xs || areLoose ys) := by
  induction xs with
  | nil => rfl
  | cons st xs ih => simp [areLoose, ih, Bool.or_assoc]

theorem not_loose_append {xs ys : List Stmt} (hx : areLoose xs = false) (hy : areLoose ys = false) :
    areLoose (xs ++ ys) = false := by
  rw [areLoose_append, hx, hy]
  rfl

end Stmt

namespace Context
variable {P Q : List Stmt → Prop} {c c' c₁ : Context} {f : Program → Program}

def level (c : Context) : Level := ⟨c.gates, c.converting, c.active⟩

theorem Advance.level (h : c.Advance c') : c'.level = c.level := by
  simp only [Context.level, h.gates, h.converting, h.active]

/-- `c'` is `c` with statements at the end of the innermost block that satisfy `P` together. The programs below
the current one have their blocks. -/
structure Grown (P : List Stmt → Prop) (c c' : Context) : Prop where
  current : c.current.Appends P c'.current
  below : c'.stack.tail.map Program.blocks = c.stack.tail.map Program.blocks

namespace Grown

theorem of_stack (hP : P []) (h : c'.stack.map Program.blocks = c.stack.map Program.blocks) : c.Grown P c' := by
  rw [stack_eq c, stack_eq c', map_cons, map_cons] at h
  exact ⟨.of_blocks hP (cons.inj h).1, (cons.inj h).2⟩

theorem refl (hP : P []) (c : Context) : c.Grown P c := of_stack hP rfl

theorem trans (hP : ∀ {xs ys}, P xs → P ys → P (xs ++ ys)) (h₁ : c.Grown P c₁) (h₂ : c₁.Grown P c') : c.Grown P c' :=
  ⟨h₁.current.trans hP h₂.current, h₂.below.trans h₁.below⟩

theorem mono (h : c.Grown P c') (hPQ : ∀ {sts}, P sts → Q sts) : c.Grown Q c' := by
  obtain ⟨new, hnew, hblocks⟩ := h.current
  exact ⟨⟨new, hPQ hnew, hblocks⟩, h.below⟩

theorem of_stacks {d d' : Context} (h : c.Grown P c') (hd : c.stack = d.stack) (hd' : d'.stack = c'.stack) :
    d.Grown P d' := by
  obtain ⟨hcurrent, hbelow⟩ := h
  rw [stack_eq c, stack_eq d] at hd
  rw [stack_eq c', stack_eq d'] at hd'
  rw [(cons.inj hd).1, ← (cons.inj hd').1] at hcurrent
  rw [(cons.inj hd).2, ← (cons.inj hd').2] at hbelow
  exact ⟨hcurrent, hbelow⟩

theorem updateCurrent (h : c.current.Appends P (f c.current)) : c.Grown P (c.updateCurrent f) := by
  refine ⟨?_, by rw [stack_updateCurrent, tail_cons]⟩
  rwa [current_updateCurrent]

theorem updateRoot (hP : P []) (hf : (f c.root).blocks = c.root.blocks) : c.Grown P (c.updateRoot f) := by
  refine of_stack hP ?_
  simp only [stack, Context.updateRoot, map_append, map_cons, map_nil, hf]

theorem closeBlock (hP : Q []) (h : c.openBlock.Grown P c₁) : c.Grown Q c₁.closeBlock ∧ P c₁.captured := by
  have hcurrent := h.current
  have hbelow := h.below
  rw [openBlock, current_updateCurrent] at hcurrent
  rw [openBlock, stack_updateCurrent, tail_cons] at hbelow
  refine ⟨⟨?_, ?_⟩, hcurrent.closeBlock.2⟩
  · rw [Context.closeBlock, current_updateCurrent]
    exact .of_blocks hP hcurrent.closeBlock.1
  · rw [Context.closeBlock, stack_updateCurrent, tail_cons]
    exact hbelow

theorem leaveProgram {p : Program} (hP : Q []) (h : (c.enterProgram p).Grown P c₁) : c.Grown Q c₁.leaveProgram := by
  have hbelow : c₁.stack.tail.map Program.blocks = c.stack.map Program.blocks := h.below
  refine of_stack hP (Eq.trans ?_ hbelow)
  unfold Context.stack at hbelow ⊢
  cases hi : c₁.inner with
  | nil => simp [hi] at hbelow
  | cons q qs => simp [Context.leaveProgram, hi]

end Grown

end Context

/-- Loops are left nowhere, and routines wherever a step says so. -/
def Discipline.tight : Discipline :=
  Policy.discipline { stray := fun st => st.isLoose = false, lost := Policy.lost_default }

def tightRule : Rule .tight where
  admits _ sts := Stmt.areLoose sts = false
  congr _ _ _ _ _ _ := rfl
  nil _ := rfl
  append := Stmt.not_loose_append
  emits h := by
    cases h with
    | «break» _ hs | «continue» _ hs => cases hs
    | _ => rfl
  declares _ _ := rfl
  nests _ hn hbs := by
    cases hn with
    | branch => simpa [Stmt.areLoose, Stmt.isLoose] using hbs
    | forIn | «while» => rfl
  boxes _ _ h := by simpa [Stmt.areLoose, Stmt.isLoose] using h

/-- Does the operation leave a loop, or a turn of it? -/
def Action.isJump : Action → Bool
  | .leaveLoop | .nextTurn => true
  | _ => false

namespace Convert

variable {α β : Type} {s : State} {p : Prop} {m : Convert α} {f : α → Convert β} {Q : α → Prop}

/-! ### Conversions without bodies -/

/-- The conversion stops for a reason of its own, is back at its level then, and has left the finished context
alone. -/
structure Mild (m : Convert α) (s : State) : Prop where
  own : ∀ e, (m s).1 = .error e → e.IsOwn
  level : (m s).2.ctx.level = s.ctx.level
  finished : (m s).2.finished = s.finished

/-- Moreover, it has written to the innermost block and to no other one; nothing loose, if that is asked. -/
structure Neat (p : Prop) (m : Convert α) (s : State) : Prop extends Mild m s where
  grown : s.ctx.Grown (fun sts => p → Stmt.areLoose sts = false) (m s).2.ctx

namespace Mild

theorem of_goes {d : Discipline} {T : α → Context → Prop} (h : Goes d m s T) : Mild m s := by
  obtain ⟨hown, c, hc, hacts, -⟩ := h
  refine ⟨hown, ?_, ?_⟩ <;> rw [hc]
  exact hacts.advance.level

theorem bind (h : Mild m s) (hf : ∀ a t, Mild (f a) t) : Mild (m >>= f) s := by
  obtain ⟨hown, hlevel, hfin⟩ := h
  rcases hm : m s with ⟨e | a, t⟩ <;> rw [hm] at hown hlevel hfin
  · refine ⟨?_, ?_, ?_⟩ <;> rw [bind_of_error hm]
    exacts [fun e' he => hown e' (congrArg _ (Except.error.inj he)), hlevel, hfin]
  · obtain ⟨hown', hlevel', hfin'⟩ := hf a t
    refine ⟨?_, ?_, ?_⟩ <;> rw [bind_of_ok hm]
    exacts [hown', hlevel'.trans hlevel, hfin'.trans hfin]

theorem seq (h : Reads m s Q) (hf : ∀ a, Mild (f a) s) : Mild (m >>= f) s := by
  rcases h.bind f with ⟨e, he, h⟩ | ⟨a, -, h⟩
  · exact of_goes (d := .free) (T := fun _ _ => True) (.of_error he.own h)
  · obtain ⟨hown, hlevel, hfin⟩ := hf a
    refine ⟨?_, ?_, ?_⟩ <;> rw [h]
    exacts [hown, hlevel, hfin]

theorem update {f : Context → Context} (h : ∀ c, (f c).level = c.level) : Mild (updateContext f) s :=
  ⟨fun _ he => (by cases he), h s.ctx, rfl⟩

end Mild

theorem blocks_of_rests {ps qs : List Program} (h : Forall₂ Program.Rests ps qs) :
    qs.map Program.blocks = ps.map Program.blocks := by
  induction h with
  | nil => rfl
  | cons h _ ih => rw [map_cons, map_cons, h.blocks, ih]

namespace Neat

theorem of_goes {T : α → Context → Prop} (h : Goes .tight m s T) : Neat p m s := by
  refine ⟨.of_goes h, ?_⟩
  obtain ⟨-, c, hc, hacts, -⟩ := h
  rw [hc]
  have hgrown : s.ctx.Grown (Stmt.areLoose · = false) c :=
    ⟨(hacts.adds tightRule).current, blocks_of_rests hacts.advance.below⟩
  exact hgrown.mono fun h _ => h

theorem of_reads (h : Reads m s Q) : Neat p m s := of_goes (.of_reads (Q := fun _ _ => True) h fun _ _ => trivial)

theorem raise {e : Error} (he : e.IsBare) : Neat p (raise e : Convert α) s :=
  of_goes (T := fun _ _ => True) (.raise he)

theorem bind (h : Neat p m s) (hf : ∀ a t, Neat p (f a) t) : Neat p (m >>= f) s := by
  refine ⟨h.toMild.bind fun a t => (hf a t).toMild, ?_⟩
  have hgrown := h.grown
  rcases hm : m s with ⟨e | a, t⟩ <;> rw [hm] at hgrown
  · rwa [bind_of_error hm]
  · rw [bind_of_ok hm]
    exact hgrown.trans (fun hx hy hp => Stmt.not_loose_append (hx hp) (hy hp)) (hf a t).grown

theorem seq (h : Reads m s Q) (hf : ∀ a, Q a → Neat p (f a) s) : Neat p (m >>= f) s := by
  rcases h.bind f with ⟨e, he, h⟩ | ⟨a, ha, h⟩
  · exact of_goes (T := fun _ _ => True) (.of_error he.own h)
  · obtain ⟨⟨hown, hlevel, hfin⟩, hgrown⟩ := hf a ha
    refine ⟨⟨?_, ?_, ?_⟩, ?_⟩ <;> rw [h]
    exacts [hown, hlevel, hfin, hgrown]

theorem updateContext {f : Context → Context} (hl : (f s.ctx).level = s.ctx.level)
    (h : s.ctx.Grown (fun sts => p → Stmt.areLoose sts = false) (f s.ctx)) : Neat p (updateContext f) s :=
  ⟨⟨fun _ he => (by cases he), hl, rfl⟩, h⟩

theorem updateCurrent {f : Program → Program}
    (h : s.ctx.current.Appends (fun sts => p → Stmt.areLoose sts = false) (f s.ctx.current)) :
    Neat p (updateCurrent f) s := updateContext rfl (.updateCurrent h)

theorem emit {st : Stmt} (h : p → Stmt.areLoose [st] = false) : Neat p (emit st) s := updateCurrent (.add h)

end Neat

theorem neat_freshName (kind : Kind) : Neat p (freshName kind) s := .of_goes (goes_freshName kind trivial)

theorem neat_declare (v : Var) : Neat p (declare v) s := by
  refine .seq (reads_context s) fun c hc => ?_
  subst hc
  split
  · exact .raise ⟨rfl, .inr rfl⟩
  · exact .updateCurrent (.declare? (fun _ => rfl) ‹_›)

theorem neat_emitResult (r : Routine) (v : Value) : Neat p (emitResult r v) s := by
  unfold emitResult
  split
  · exact .of_reads (Q := fun _ => True) (.pure trivial)
  · exact .raise (Error.isBare_domain _)
  · split
    · exact .emit fun _ => rfl
    · exact .raise ⟨rfl, .inr rfl⟩

theorem neat_emitCall (r : Routine) (args : List Expr) : Neat p (emitCall r args) s := by
  have hreturned : ∀ {γ : Type} (v : Option Var) (a : γ) t, Neat p (do
      Convert.updateContext fun c => { c with returned := v }
      return a) t := fun v a t =>
    (Neat.updateContext (f := fun c => { c with returned := v }) rfl (.of_stack (fun _ => rfl) rfl)).bind
      fun _ _ => .of_reads (Q := fun _ => True) (.pure trivial)
  unfold emitCall
  dsimp only
  split
  · exact (Neat.emit fun _ => rfl).bind fun _ t => hreturned _ _ t
  · exact (neat_freshName _).bind fun name _ => (neat_declare _).bind fun _ t => hreturned _ _ t

theorem neat_applyGate {h : Handle} {name : String} {qubits angles : List Value} :
    Neat p (applyGate h name qubits angles) s :=
  .of_goes (goes_applyGate (.inl trivial) (fun v _ => ⟨v.over_true, trivial⟩) fun v _ => v.over_true)

theorem mild_declareRegister : Mild declareRegister s := by
  have hsize : ∀ n, Mild (declareRegister.declareSize n) s := fun n =>
    .seq (reads_allow _ s) fun _ => .update fun _ => rfl
  have hread : ∀ {m : Convert Unit}, Reads m s (fun _ => True) → Mild m s := fun h =>
    (Neat.of_reads (p := True) h).toMild
  refine .seq (reads_context s) fun c => ?_
  split
  · exact hread (.pure trivial)
  · split
    · exact hread .refuse
    · exact hsize _
  · exact hsize _
  · exact hsize _

/-! ### Judgements -/

/-- A property of operations that the ways to put operations together preserve. An operation is a conversion
that is given a way to run bodies. -/
structure Judgement where
  Place : Type
  Holds : Place → ∀ {α : Type}, (Runner → Convert α) → Prop
  /-- Operations are carried out there, with no more asked of them than that. -/
  Works : Place → Prop := fun _ => True
  /-- An operation may fail there for a reason of its own. -/
  Fails : Place → Prop := fun _ => True
  /-- The context may be changed there. -/
  Changes : Place → Prop := fun _ => True
  /-- There must be no loose jumps. -/
  Strict : Place → Prop := fun _ => False
  /-- The contexts that there may be. -/
  At : Place → Context → Prop := fun _ _ => True
  Tags : Place → Prop := fun _ => True
  Settles : Place → Prop := fun _ => True
  tagged : Place → Place := fun i => i
  settled : Place → Place := fun i => i
  looped : Place → Place := fun i => i
  /-- In a program that was opened by hand, or in a calibration. -/
  aside : Place → Place := fun i => i
  defining : Place → Nat → Stub → Place := fun i _ _ => i
  gated : Place → GateRecord → Place := fun i _ => i
  exchanged : Place → Place
  /-- The second place is in a build that is started at the first. -/
  Starts : Place → Place → Prop
  /-- What the definition of a gate leaves behind is right. -/
  Defines : Place → GateRecord → (Runner → Convert Unit) → Prop := fun _ _ _ => True
  works_fails : ∀ {i}, Works i → Fails i := by intros; trivial
  works_settled : ∀ {i}, Settles i → Works i → Works (settled i) := by intros; trivial
  changes_of_allowed : ∀ {i c}, Works i → At i c → c.refusal? .classical = none → Changes i := by intros; trivial
  changes_tagged : ∀ {i}, Changes i → Changes (tagged i) := by intros; trivial
  fails_exchanged : ∀ {i}, Fails i → Fails (exchanged i) := by intros; trivial
  fails_gated : ∀ {i}, Fails i → ∀ g, Fails (gated i g) := by intros; trivial
  defining_open : ∀ {i}, Fails i → Changes i → ∀ key stub,
    Fails (defining i key stub) ∧ Changes (defining i key stub) := by intros; trivial
  starts_open : ∀ {i j}, Fails i → Starts i j → Fails j ∧ Changes j := by intros; trivial
  leaf : ∀ {i} {α : Type} {m : Convert α}, (∀ s, Neat (Strict i) m s) →
    (Fails i ∨ ∀ s e, (m s).1 ≠ .error (.error e)) → (Changes i ∨ ∀ s, (m s).2.ctx = s.ctx) → Holds i fun _ => m
  bind : ∀ {i} {α β : Type} {F : Runner → Convert α} {G : α → Runner → Convert β}, Holds i F →
    (∀ a, Holds i (G a)) → Holds i fun again => F again >>= fun a => G a again
  given : ∀ {i} {α β : Type} {m : Convert α} {G : α → Runner → Convert β} {Q : State → α → Prop}, Fails i →
    (∀ s, Reads m s (Q s)) → (∀ s a, At i s.ctx → Q s a → Holds i (G a)) →
    Holds i fun again => m >>= fun a => G a again
  applyGate : ∀ {i h name qubits angles}, Works i → Holds i fun _ => applyGate h name qubits angles
  register : ∀ {i j}, Fails i → Starts i j → Holds j fun _ => declareRegister
  tagging : ∀ {i} {α : Type} {F : Runner → Convert α}, Tags i → Holds (tagged i) F →
    Holds i fun again => tagging (F again)
  settling : ∀ {i} {α : Type} {F : Runner → Convert α}, Settles i → Holds (settled i) F →
    Holds i fun again => settling (F again)
  block : ∀ {i} {β : Type} {F : Runner → Convert Unit} {G : List Stmt → Runner → Convert β}, Changes i → Holds i F →
    (∀ sts, (Strict i → Stmt.areLoose sts = false) → Holds i (G sts)) →
    Holds i fun again => Convert.block (F again) >>= fun sts => G sts again
  turn : ∀ {i} {F : Runner → Convert Unit}, Changes i → Holds (looped i) F →
    Holds i fun again => Convert.block (F again)
  box : ∀ {i} {F : Runner → Convert Unit}, Changes i → Tags i → Holds (tagged i) F → Holds i fun again =>
    bracketContext (fun c => { c with verbatim := true }) (fun c => { c with verbatim := false }) do
      let stmts ← Convert.tagging (Convert.block (F again))
      emit (.pragma "braket verbatim")
      emit (.box stmts)
  program : ∀ {i} {F : Runner → Convert Unit}, Holds (aside i) F → Holds i fun again => withProgram {} (F again)
  define : ∀ {i key stub p c} {α : Type} {F : Runner → Convert α}, Changes i → At i c →
    c.converting.lookup key = none → Holds (defining i key stub) F →
    Holds i fun again => withStub key stub (withProgram p (F again))
  gate : ∀ {i name params} {F : Runner → Convert Unit}, Fails i → Defines i ⟨name, params⟩ F →
    Holds (gated i ⟨name, params⟩) F → Holds i fun again => defineGate name params (F again)
  calibration : ∀ {i gate qubits angles} {F : Runner → Convert Unit}, Fails i → Holds (aside i) F →
    Holds i fun again => defineCalibration gate qubits angles (F again)
  bindings : ∀ {i b} {α : Type} {F : Runner → Convert α}, Holds i F → Holds i fun again => withBindings b (F again)
  start : ∀ {i config} {α : Type} {F : Runner → Convert α}, (∀ j, Starts i j → Holds j F) →
    Holds i fun again => inNewContext config (F again)
  exchanging : ∀ {i} {α : Type} {F : Runner → Convert α}, Holds (exchanged i) F →
    Holds i fun again => exchanging (F again)

namespace Judgement
variable {J : Judgement} {i : J.Place} {lib : Library} {h : Handle} {r : Routine} {key k : Nat} {args : List Value}

theorem pure (a : α) : J.Holds i fun _ => pure a :=
  J.leaf (fun _ => .of_reads (Q := fun _ => True) (.pure trivial)) (.inr fun _ _ he => by cases he) (.inr fun _ => rfl)

theorem reads {Q : State → α → Prop} (hf : J.Fails i) (hm : ∀ s, Reads m s (Q s)) : J.Holds i fun _ => m := by
  have hbind := J.given (G := fun a _ => Pure.pure a) hf hm fun _ a _ _ => J.pure a
  simpa using hbind

theorem value (o : Operand) : J.Holds i fun _ => value o := by
  have hvalue : ∀ s, (∃ v, Convert.value o s = (.ok v, s)) ∨ ∃ e, Convert.value o s = (.error (.operand e), s) := by
    intro s
    rcases ho : o.eval s.bindings with e | v
    · exact .inr ⟨e, by simp [Convert.value, ho, liftOperand, bind_apply]⟩
    · exact .inl ⟨v, by simp [Convert.value, ho, liftOperand, bind_apply]⟩
  refine J.leaf (fun s => .of_reads (reads_value o s)) (.inr fun s e he => ?_) (.inr fun s => ?_)
  · rcases hvalue s with ⟨v, hv⟩ | ⟨x, hv⟩ <;> rw [hv] at he <;> cases he
  · rcases hvalue s with ⟨v, hv⟩ | ⟨x, hv⟩ <;> rw [hv]

theorem update {f : Context → Context} (hc : J.Changes i) (hf : ∀ c : Context, (f c).level = c.level)
    (h : ∀ c : Context, c.Grown (fun sts => J.Strict i → Stmt.areLoose sts = false) (f c)) :
    J.Holds i fun _ => updateContext f :=
  J.leaf (fun s => .updateContext (hf _) (h _)) (.inr fun _ _ he => by cases he) (.inl hc)

theorem updateCurrent {f : Program → Program} (hc : J.Changes i) (hf : ∀ p, (f p).blocks = p.blocks) :
    J.Holds i fun _ => updateCurrent f :=
  update hc (fun _ => rfl) fun _ => .updateCurrent (.of_blocks (fun _ => rfl) (hf _))

theorem updateRoot {f : Program → Program} (hc : J.Changes i) (hf : ∀ p, (f p).blocks = p.blocks) :
    J.Holds i fun _ => updateRoot f :=
  update hc (fun _ => rfl) fun _ => .updateRoot (fun _ => rfl) (hf _)

theorem emit {st : Stmt} (hc : J.Changes i) (h : J.Strict i → Stmt.areLoose [st] = false) :
    J.Holds i fun _ => emit st :=
  update (f := (·.emit st)) hc (fun _ => rfl) fun _ => .updateCurrent (.add h)

theorem bindName (name : Option String) (v : Value) : J.Holds i fun _ => bindName name v := by
  cases name with
  | none => exact J.pure ()
  | some n =>
    refine J.leaf (fun s => ⟨⟨fun _ he => (by cases he), rfl, rfl⟩, .refl (fun _ => rfl) _⟩) (.inr fun _ _ he => ?_)
      (.inr fun _ => rfl)
    cases he

theorem onHandle {F : Runner → Convert Unit} {G : Convert Unit → Convert α} (hf : J.Fails i)
    (hown : h = .own → J.Holds i fun again => G (F again))
    (hfin : h = .finished → J.Holds (J.exchanged i) fun again => G (Convert.exchanging (F again))) :
    J.Holds i fun again => onHandle h fun run => G (run (F again)) := by
  cases h with
  | own => exact hown rfl
  | absent => exact reads (Q := fun _ _ => True) hf fun _ => .fault
  | finished => exact J.exchanging (hfin rfl)

theorem onHandle_const {m : Convert α} (hf : J.Fails i) (hm : ∀ k, J.Fails k → J.Holds k fun _ => m) :
    J.Holds i fun _ => Convert.onHandle h fun _ => m :=
  onHandle (F := fun _ => Pure.pure ()) (G := fun _ => m) hf (fun _ => hm i hf) fun _ => hm _ (J.fails_exchanged hf)

/-! ### Operators -/

section operators
variable (hw : J.Works i) (ht : J.Tags i)

theorem refuseThen (hf : J.Fails i) (d : DomainError) (f : Runner → α → Convert β) :
    J.Holds i fun again => refuse d >>= f again :=
  J.given (Q := fun _ _ => False) (G := fun a again => f again a) hf (fun _ => .refuse) fun _ _ _ hq => hq.elim

include ht in
theorem branch_known {b : Bool} {thn : List Step} {els : Option (List Step)} (hthn : J.Holds (J.tagged i) (· thn))
    (hels : ∀ b, els = some b → J.Holds (J.tagged i) (· b)) :
    J.Holds i fun again => branch h (.bool b) (again thn) (els.map again) := by
  cases b with
  | true => exact J.tagging ht hthn
  | false =>
    cases els with
    | none => exact J.pure ()
    | some b => exact J.tagging ht (hels b rfl)

include hw ht in
theorem branch {v : Value} {thn : List Step} {els : Option (List Step)} (hthn : J.Holds (J.tagged i) (· thn))
    (hels : ∀ b, els = some b → J.Holds (J.tagged i) (· b)) :
    J.Holds i fun again => branch h v (again thn) (els.map again) := by
  cases v with
  | bool b => exact branch_known ht hthn hels
  | _ =>
    have hf := J.works_fails hw
    refine J.given hf (reads_conditionExpr (d := .free) (Value.over_true _)) fun _ e _ _ => ?_
    refine J.given hf (reads_requireClassical h _) fun s _ hs hp => ?_
    have hc := J.changes_tagged (J.changes_of_allowed hw hs hp.2)
    refine J.tagging ht (J.block hc hthn fun a ha => ?_)
    cases els with
    | none =>
      simp only [Option.map_none, pure_bind]
      exact emit hc fun hstrict => by simp [Stmt.areLoose, Stmt.isLoose, ha hstrict]
    | some b =>
      refine J.block hc (hels b rfl) fun b hb => emit hc fun hstrict => ?_
      simp [Stmt.areLoose, Stmt.isLoose, ha hstrict, hb hstrict]

theorem repeatFrom {F : Value → Runner → Convert Unit} (hF : ∀ v, J.Holds i (F v)) (n : Int) :
    J.Holds i fun again => repeatFrom (F · again) n k := by
  induction k generalizing n with
  | zero => exact J.pure ()
  | succ k ih => exact J.bind (hF _) fun _ => ih (n + 1)

theorem forEach {F : Value → Runner → Convert Unit} (hF : ∀ v, J.Holds i (F v)) (vs : List Value) :
    J.Holds i fun again => forEach (F · again) vs := by
  induction vs with
  | nil => exact J.pure ()
  | cons v vs ih => exact J.bind (hF v) fun _ => ih

theorem bound {name : Option String} {body : List Step} (hb : J.Holds i (· body)) (v : Value) :
    J.Holds i fun again => (do Convert.bindName name v; again body) := J.bind (bindName name v) fun _ => hb

include hw ht in
theorem unroll {name : Option String} {body : List Step} (hb : J.Holds (J.tagged i) (· body)) (v : Value) :
    J.Holds i fun again => unroll v fun v => (do Convert.bindName name v; again body) := by
  unfold Convert.unroll
  split
  · exact J.tagging ht (repeatFrom (bound hb) _)
  · exact J.tagging ht (forEach (bound hb) _)
  · exact reads (Q := fun _ _ => True) (J.works_fails hw) fun _ => .refuse

include hw ht in
theorem loopOver {name : Option String} {body : List Step} (hb : J.Holds (J.looped (J.tagged i)) (· body))
    (r : RangeSpec) : J.Holds i fun again => loopOver h r fun v => (do Convert.bindName name v; again body) := by
  have hf := J.works_fails hw
  refine J.given hf (reads_rangeExpr (d := .free) (Value.over_true _) (Value.over_true _) fun v _ => v.over_true)
    fun _ range _ _ => J.given hf (reads_requireClassical h _) fun s _ hs hp => ?_
  have hc := J.changes_of_allowed hw hs hp.2
  have hc' := J.changes_tagged hc
  refine J.bind (J.leaf (fun _ => neat_freshName _) (.inl hf) (.inl hc)) fun name => J.tagging ht ?_
  exact J.bind (updateCurrent hc' fun _ => rfl) fun _ => J.bind (J.turn hc' (bound hb _)) fun _ => emit hc' fun _ => rfl

theorem condition (ht : J.Tags i) {cond : List Step} (hcond : J.Holds (J.tagged i) (· cond)) (test : Operand) :
    J.Holds i fun again => Convert.tagging (do again cond; Convert.value test) :=
  J.tagging ht (J.bind hcond fun _ => value test)

include hw ht in
theorem repeatWhile {cond body : List Step} {test : Operand} (hcond : J.Holds (J.tagged i) (· cond))
    (hbody : J.Holds (J.tagged i) (· body)) (hend : J.Holds (α := Unit) i fun _ => throw .exhausted) :
    J.Holds i fun again => repeatWhile (do again cond; Convert.value test) (again body) k := by
  induction k with
  | zero => exact hend
  | succ k ih =>
    refine J.bind (J.tagging ht hbody) fun _ => J.bind (condition ht hcond test) fun v => ?_
    split
    · exact ih
    · exact J.pure ()
    · exact reads (Q := fun _ _ => True) (J.works_fails hw) fun _ => .refuse

/-- What a loop under a condition does once that has been evaluated. -/
def loopOn (h : Handle) (fuel : Nat) (cond : Convert Value) (body : Convert Unit) (v : Value) : Convert Unit :=
  match v with
  | .bool true => Convert.repeatWhile cond body fuel
  | .bool false => Pure.pure ()
  | v => do
    let e ← conditionExpr v
    requireClassical h "while"
    Convert.tagging do
      let stmts ← Convert.block body
      Convert.emit (.while e stmts)

theorem whileLoop_eq (fuel : Nat) (cond : Convert Value) (body : Convert Unit) :
    whileLoop h fuel cond body = Convert.tagging cond >>= loopOn h fuel cond body := by
  unfold whileLoop loopOn
  congr 1

include hw ht in
theorem loopOn_of {F : Runner → Convert Unit} {C : Runner → Convert Value} (hF : J.Holds (J.looped (J.tagged i)) F)
    {v : Value} (hv : v = .bool true → J.Holds i fun again => Convert.repeatWhile (C again) (F again) k) :
    J.Holds i fun again => loopOn h k (C again) (F again) v := by
  have hf := J.works_fails hw
  unfold loopOn
  split
  · exact hv rfl
  · exact J.pure ()
  · refine J.given hf (reads_conditionExpr (d := .free) (Value.over_true _)) fun _ e _ _ => ?_
    refine J.given hf (reads_requireClassical h _) fun s _ hs hp => ?_
    have hc := J.changes_tagged (J.changes_of_allowed hw hs hp.2)
    exact J.tagging ht (J.bind (J.turn hc hF) fun _ => emit hc fun _ => rfl)

include hw ht in
theorem whileLoop {cond body : List Step} {test : Operand} (hcond : J.Holds (J.tagged i) (· cond))
    (hbody : J.Holds (J.tagged i) (· body)) (hloop : J.Holds (J.looped (J.tagged i)) (· body))
    (hend : J.Holds (α := Unit) i fun _ => throw .exhausted) :
    J.Holds i fun again => whileLoop h k (do again cond; Convert.value test) (again body) := by
  simp only [whileLoop_eq]
  exact J.bind (condition ht hcond test) fun v => loopOn_of hw ht hloop fun _ => repeatWhile hw ht hcond hbody hend

include hw ht in
theorem verbatim {body : List Step} (hb : J.Holds (J.tagged i) (· body)) :
    J.Holds i fun again => verbatim h (again body) := by
  have hf := J.works_fails hw
  refine J.given hf (reads_requireClassical h _) fun s _ hs hp => J.given hf reads_context fun _ c _ _ => ?_
  dsimp only
  split
  · exact refuseThen hf _ _
  · exact J.box (J.changes_of_allowed hw hs hp.2) ht hb

end operators

/-! ### Calls -/

section calls

theorem runBody (hf : J.Fails i) (hb : J.Holds i (· r.body)) (args : List Value) :
    J.Holds i fun again => runBody again r args := by
  refine J.bindings (J.bind hb fun _ => ?_)
  split
  · exact J.given hf reads_get fun _ _ _ _ => reads hf (reads_liftOperand _)
  · exact J.pure _

theorem buildProgram (hf : J.Fails i) (hb : ∀ j, J.Starts i j → J.Holds j (· r.body)) (config : BuildConfig) :
    J.Holds i fun again => buildProgram again r config args := by
  refine J.start fun j hj => J.bind (runBody (J.starts_open hf hj).1 (hb j hj) args) fun _ => ?_
  obtain ⟨hfails, hchanges⟩ := J.starts_open hf hj
  exact J.bind (J.register hf hj) fun _ => J.leaf (fun _ => .of_goes goes_makeProgram) (.inl hfails) (.inl hchanges)

/-- The body of the routine may be run where it is called. -/
structure Callable (J : Judgement) (h : Handle) (i : J.Place) (key : Nat) (r : Routine) : Prop where
  subroutine : r.kind ≠ .gate → ∀ c, J.At i c → c.converting.lookup key = none →
    ∀ stub, J.Holds (J.defining i key stub) (· r.body)
  gate : r.kind = .gate → ∀ c, J.At i c → c.gates.any (·.name == r.name) = false →
    ∀ params, r.params.mapM (gateParam r) = .ok params → J.Holds (J.gated i ⟨r.name, params⟩) (· r.body) ∧
      J.Defines i ⟨r.name, params⟩ fun again => do
        let _ ← Convert.runBody again r (params.map fun p => .expr p.var.expr)
  program : r.kind ≠ .gate → ∀ c, J.At i c → (h = .own → c.active = false) →
    ∀ j, J.Starts i j → J.Holds j (· r.body)

section
variable (hw : J.Works i) (hr : J.Callable h i key r)

include hr in
theorem defineSubroutine (hf : J.Fails i) (hk : r.kind ≠ .gate) (hc : J.Changes i) {c : Context} (hat : J.At i c)
    (hidle : c.converting.lookup key = none) : J.Holds i fun again => defineSubroutine again key r := by
  refine J.given hf reads_makeStub fun _ stub _ _ => J.bind (J.define hc hat hidle ?_) fun body => ?_
  · obtain ⟨hf', hc'⟩ := J.defining_open hf hc key stub
    refine J.bind (runBody hf' (hr.subroutine hk c hat hidle stub) _) fun v => ?_
    refine J.bind (J.leaf (fun _ => neat_emitResult r v) (.inl hf') (.inl hc')) fun _ => ?_
    exact J.given hf' reads_context fun _ _ _ _ => J.pure _
  · refine J.given hf reads_context fun _ _ _ _ => ?_
    split
    · exact updateRoot hc fun _ => rfl
    · exact J.pure ()

include hw hr in
theorem callSubroutine (hk : r.kind ≠ .gate) : J.Holds i fun again => callSubroutine again key r args := by
  have hf := J.works_fails hw
  refine J.given hf (reads_allow _) fun s _ hs hp => J.given hf reads_checkTypes fun _ _ _ _ => ?_
  have hc := J.changes_of_allowed hw hs hp
  have hargs : ∀ s, Neat (J.Strict i) (bindArguments r.name r.params args) s := fun _ =>
    .of_goes (goes_bindArguments ⟨fun v _ => v.over_true, fun _ _ _ => trivial⟩)
  refine J.given hf reads_checkCount fun _ _ _ _ => J.bind (J.leaf hargs (.inl hf) (.inl hc)) fun exprs => ?_
  have hcall : J.Holds i fun _ => emitCall r exprs := J.leaf (fun _ => neat_emitCall r exprs) (.inl hf) (.inl hc)
  refine J.given hf reads_context fun s c hs hcs => ?_
  subst hcs
  dsimp only
  split
  · exact J.bind (updateCurrent hc fun _ => rfl) fun _ => hcall
  · refine J.given hf reads_context fun _ _ _ _ => ?_
    split
    · exact J.bind (defineSubroutine hr hf hk hc hs ‹_›) fun _ => hcall
    · exact hcall

include hw hr in
theorem callGate (hk : r.kind = .gate) : J.Holds i fun again => callGate again h r args := by
  have hf := J.works_fails hw
  refine J.given hf (reads_requireActive h _) fun _ _ _ _ => J.given hf reads_checkTypes fun _ _ _ _ => ?_
  refine J.given hf reads_checkCount fun _ _ _ _ => J.given hf (reads_allow _) fun _ _ _ _ => ?_
  refine J.given hf reads_context fun _ _ _ _ => ?_
  dsimp only
  split
  · refine J.bind (J.given hf reads_context fun s c hs hcs => ?_) fun _ => J.applyGate hw
    subst hcs
    dsimp only
    split
    · exact refuseThen hf _ _
    · refine J.given hf (reads_liftDomain _) fun _ params _ hparams => ?_
      obtain ⟨hb, hdef⟩ := hr.gate hk s.ctx hs (Bool.eq_false_iff.2 ‹_›) params hparams
      exact J.gate hf hdef (J.bind (runBody (J.fails_gated hf _) hb _) fun _ => J.pure ())
  · exact J.applyGate hw

end

theorem call (hw : J.Works i) (hs : J.Settles i) (hr : J.Callable h (J.settled i) key r) :
    J.Holds i fun again => call again h key r args := by
  have hw := J.works_settled hs hw
  have hf := J.works_fails hw
  refine J.settling hs ?_
  dsimp only
  split
  · exact J.bind (callGate hw hr ‹_›) fun _ => J.pure _
  · refine J.given hf reads_checkQubits fun _ _ _ _ => J.given hf (reads_isActive h) fun s active hs hactive => ?_
    split
    · refine J.given hf reads_checkRegister fun _ _ _ _ => J.bind (callSubroutine hw hr ‹_›) fun x => ?_
      split <;> exact J.pure _
    · refine J.bind (buildProgram hf (hr.program ‹_› s.ctx hs fun hown => ?_) _) fun _ => J.pure _
      simpa using mt (hactive.2 hown) ‹_›

theorem build (hw : J.Works i) (hs : J.Settles i) (hb : ∀ j, J.Starts (J.settled i) j → J.Holds j (· r.body))
    (settings : List Setting) : J.Holds i fun again => build again r settings := by
  have hf := J.works_fails hw
  unfold Convert.build
  dsimp only
  split
  · exact refuseThen hf _ _
  · exact J.given hf reads_checkQubits fun _ _ _ _ => J.settling hs
      (buildProgram (J.works_fails (J.works_settled hs hw)) hb _)

end calls

/-! ### Operations -/

/-- Where a body is that an operation on the handle runs, if the operation takes it to `f`. -/
def within (J : Judgement) (f : J.Place → J.Place) (i : J.Place) : Handle → J.Place
  | .finished => J.exchanged (f (J.exchanged i))
  | _ => f i

/-- The bodies of the operation may be run where it runs them. Of an operation without bodies, and of a loop
under a condition, what is to be shown is asked for. -/
def Ready (J : Judgement) (lib : Library) (fuel : Nat) (h : Handle) (i : J.Place) : Action → Prop
  | .call .. => J.Settles i ∧ ∀ key r, lib.Holds key r → J.Callable h (J.settled i) key r
  | .build .. => J.Settles i ∧ ∀ key r, lib.Holds key r → ∀ j, J.Starts (J.settled i) j → J.Holds j (· r.body)
  | .branch _ thn els => J.Tags i ∧ J.Holds (J.tagged i) (· (thn.getD [])) ∧
      ∀ b, els = some b → J.Holds (J.tagged i) (· b)
  | .unroll _ _ b | .verbatim b => J.Tags i ∧ J.Holds (J.tagged i) (· b)
  | .loopOver _ _ _ _ b => J.Tags i ∧ J.Holds (J.looped (J.tagged i)) (· b)
  | .inProgram b | .calibrationDef _ _ _ b => J.Holds (J.within J.aside i h) (· b)
  | .gateDef name params b => J.Holds (J.within (J.gated · ⟨name, params⟩) i h) (· b) ∧ ∀ bs,
      (h = .own → J.Defines i ⟨name, params⟩ fun again => withBindings bs (again b)) ∧
      (h = .finished → J.Defines (J.exchanged i) ⟨name, params⟩ fun again =>
        Convert.exchanging (withBindings bs (again b)))
  | .nestedBuild _ b => J.Holds i (· b) ∧
      ∀ c, J.At i c → (h = .own → c.active = false) → ∀ j, J.Starts i j → J.Holds j (· b)
  | .registerQubit _ | .nextName _ | .result => ∀ k, J.Changes k
  | .draft .. | .validateTargets .. => True
  | action => J.Holds i fun again => Convert.perform again lib fuel h action

theorem plain {action : Action} (hf : J.Fails i) (hc : J.Changes i) (hj : J.Strict i → action.isJump = false)
    (hplain : action.isPlain = true) : J.Holds i fun again => perform again lib k h action := by
  have hsame : (perform · lib k h action) = fun _ => perform (fun _ => Pure.pure ()) lib k h action := by
    funext again
    cases action with
    | branch | unroll | loopOver | whileLoop | call | build | verbatim | nextName | registerQubit | draft | result
    | inProgram | gateDef | calibrationDef | validateTargets | nestedBuild => cases hplain
    | _ => rfl
  rw [hsame]
  by_cases hjump : action.isJump = true
  · have hstray : ∀ st, J.Holds i fun _ => Convert.emit st := fun st =>
      emit hc fun hs => absurd (hj hs) (by simp [hjump])
    cases action with
    | leaveLoop | nextTurn =>
      exact J.bind (J.given hf (reads_requireClassical h _) fun _ _ _ _ => hstray _) fun _ => J.pure _
    | _ => cases hjump
  · refine J.leaf (fun s => .of_goes (goes_plain hplain (obeys_discipline _ lib _ _ (fun _ _ _ _ _ _ _ _ => trivial)
      fun _ => trivial) ⟨trivial, trivial⟩ ?_ (fun _ _ => trivial) (over_discipline _ s))) (.inl hf) (.inl hc)
    cases action with
    | leaveLoop | nextTurn => exact absurd rfl hjump
    | leaveRoutine o => exact fun _ _ _ _ _ => .inl rfl
    | gateDef => exact fun _ _ => trivial
    | _ => trivial

theorem perform {action : Action} (hw : J.Works i) (hready : J.Ready lib k h i action) :
    J.Holds i fun again => perform again lib k h action := by
  have hf := J.works_fails hw
  cases action with
  | gate | measure | reset | barrier | compare | logical | not | arithmetic | newVar | newArray | assign | name
  | leaveLoop | nextTurn | leaveRoutine | play | frameCall | delay | fail | isActive | «stacks» | qubits | isVarUsed
  | declaredQubits | config | buildId | returned | whileLoop => exact hready
  | call id os =>
    refine J.given hf (reads_routine id) fun _ x _ hx => J.given hf (reads_values os) fun _ vs _ _ => ?_
    exact J.bind (call hw hready.1 (hready.2 x.1 x.2 (Library.holds_of_find? hx))) fun _ => J.pure _
  | build id settings =>
    refine J.given hf (reads_routine id) fun _ x _ hx => ?_
    exact J.bind (build hw hready.1 (hready.2 x.1 x.2 (Library.holds_of_find? hx)) settings) fun _ => J.pure _
  | branch cond thn els =>
    refine J.given hf (reads_value cond) fun _ v _ _ => ?_
    exact J.bind (branch hw hready.1 hready.2.1 hready.2.2) fun _ => J.pure _
  | unroll name iter body =>
    exact J.given hf (reads_value iter) fun _ v _ _ => J.bind (unroll hw hready.1 hready.2 v) fun _ => J.pure _
  | loopOver name start stop step body =>
    refine J.given hf (reads_value start) fun _ a _ _ => J.given hf (reads_value stop) fun _ b _ _ => ?_
    have hloop : ∀ c, J.Holds i fun again => do
        Convert.loopOver h ⟨a, b, c⟩ fun v => do Convert.bindName name v; again body
        return Report.done := fun c => J.bind (loopOver hw hready.1 hready.2 _) fun _ => J.pure _
    cases step with
    | none => exact J.bind (J.pure none) fun c => hloop c
    | some o =>
      refine J.given (Q := fun _ _ => True) hf (fun t => ?_) fun _ c _ _ => hloop c
      exact (reads_value o t).map fun _ _ => trivial
  | verbatim body => exact J.bind (verbatim hw hready.1 hready.2) fun _ => J.pure _
  | nextName kind =>
    simp only [Convert.perform, map_eq_pure_bind]
    refine J.bind ?_ fun _ => J.pure _
    unfold nextName
    split
    · exact J.leaf (fun _ => .raise ⟨rfl, .inr rfl⟩) (.inl hf) (.inl (hready i))
    · exact onHandle_const hf fun k hk => J.leaf (fun _ => neat_freshName kind) (.inl hk) (.inl (hready k))
  | registerQubit n =>
    refine onHandle_const hf fun k hk => J.bind (update (hready k) (fun _ => rfl) fun _ => ?_) fun _ => ?_
    · exact .of_stack (fun _ => rfl) rfl
    · exact J.given hk reads_context fun _ _ _ _ => J.pure _
  | draft main mode => exact onHandle_const hf fun k hk => reads hk (reads_draftOf (N := fun _ => True))
  | result =>
    refine onHandle_const hf fun k hk =>
      J.bind (J.leaf (fun _ => .of_goes goes_makeProgram) (.inl hk) (.inl (hready k))) ?_
    exact fun _ => J.given hk reads_context fun _ _ _ _ => J.pure _
  | inProgram body =>
    refine J.bind (onHandle hf (fun hh => J.program ?_) fun hh => J.program (J.exchanging ?_)) fun _ => J.pure _
    all_goals
      subst hh
      exact hready
  | gateDef name params body =>
    refine J.given hf reads_get fun _ s _ _ => J.bind (onHandle hf (fun hh => ?_) fun hh => ?_) fun _ => J.pure _
    all_goals subst hh
    · exact J.gate hf ((hready.2 _).1 rfl) (J.bindings hready.1)
    · exact J.gate (J.fails_exchanged hf) ((hready.2 _).2 rfl) (J.exchanging (J.bindings hready.1))
  | calibrationDef gate qubits angles body =>
    refine J.given hf (reads_exprs _) fun _ qs _ _ => J.given hf (reads_exprs _) fun _ as _ _ => ?_
    refine J.bind (onHandle hf (fun hh => J.calibration hf ?_)
      fun hh => J.calibration (J.fails_exchanged hf) (J.exchanging ?_)) fun _ => J.pure _
    all_goals
      subst hh
      exact hready
  | validateTargets qubits angles =>
    refine J.given hf (reads_exprs _) fun _ qs _ _ => J.given hf (reads_exprs _) fun _ as _ _ => ?_
    refine onHandle_const hf fun k hk => J.given hk reads_context fun _ c _ _ => ?_
    split
    · exact reads (Q := fun _ _ => True) hk fun _ => .refuse
    · exact J.pure _
  | nestedBuild config body =>
    refine J.given hf (reads_isActive h) fun s active hs hactive => ?_
    dsimp only
    split
    · exact J.bind hready.1 fun _ => J.pure _
    · refine J.bind (J.start (hready.2 s.ctx hs fun hown => ?_)) fun _ => J.pure _
      simpa using mt (hactive.2 hown) ‹_›

end Judgement

end Convert

end QasmStudio

import QasmStudio.Proofs.Convert.Supply

/-!
# Fresh names

All programs of a build take the numbers of generated names from one counter. Each of them has tables of its own
for the names in use, and these also hold names that the script chooses: of the variables it assigns to, and of
parameters. Nothing keeps a script from choosing a name that is going to be generated. What happens when the
counter gets there depends on the operation. A declaration fails, a loop takes the variable over, and a variable
that is to be declared at the top is taken for the one that is there and loses its initial value.

If the script chooses no name that is still to come (`Mindful`), then no name in use is one (`Context.Apart`), and
every operation that takes a name makes a variable of its own.
-/

namespace QasmStudio

open List Context

variable {name stem : String} {r : Routine} {c : Context} {v : Var}

/-! ### Names to come -/

/-- The name is none of those that are generated from number `n` on. -/
def Spared (n : Int) (name : String) : Prop :=
  ∀ kind stem m, nameStem? kind = some stem → n ≤ m → name ≠ generatedName stem m

theorem Spared.mono {m n : Int} (h : Spared m name) (hmn : m ≤ n) : Spared n name :=
  fun kind stem k hstem hk => h kind stem k hstem (Int.le_trans hmn hk)

theorem spared_of_not_isGenerated {n : Int} (h : ¬ IsGenerated name) (hn : 0 ≤ n) : Spared n name :=
  fun _ _ _ hstem hm hname => h (hname ▸ isGenerated_generatedName hstem (Int.le_trans hn hm))

theorem spared_generatedName {kind : Kind} {m n : Int} (h : nameStem? kind = some stem) (hmn : m < n) :
    Spared n (generatedName stem m) := by
  intro kind' stem' k hstem hk hname
  have hmk : m = k := generatedName_inj h hstem hname
  omega

theorem Context.Numbered.spared {π : Policy} (h : c.Numbered π name) (hπ : π.Counts) : Spared c.nextVar name := by
  obtain ⟨kind, stem, names, hstem, rfl, hgiven, hnum⟩ := h
  refine spared_generatedName hstem ?_
  rw [Context.nextVar, hgiven, List.length_cons, Word.wrap_succ, Word.add_one (hπ _ hnum)]
  omega

namespace Program
variable {p q : Program} {x : String}

/-- The names of the variables that are declared or wait for their declaration. -/
def names (p : Program) : List String := (p.declared ++ p.pending).map (·.name)

theorem isUsed_iff : p.isUsed x = true ↔ x ∈ p.names := by
  simp only [isUsed, isDeclared, isPending, names, Bool.or_eq_true, any_eq_true, beq_iff_eq, mem_map,
    mem_append, or_and_right, exists_or]

theorem mem_names_markDeclared (h : x ∈ (p.markDeclared v).names) : x = v.name ∨ x ∈ p.names := by
  obtain ⟨u, hu, rfl⟩ := mem_map.1 h
  have hcases : u = v ∨ u ∈ p.declared ++ p.pending := by
    simp only [markDeclared, cons_append, mem_cons, mem_append, mem_filter] at hu ⊢
    tauto
  rcases hcases with rfl | hu
  · exact .inl rfl
  · exact .inr (mem_map_of_mem hu)

theorem mem_names_declare? (hq : p.declare? v = some q) (h : x ∈ q.names) : x = v.name ∨ x ∈ p.names := by
  unfold declare? at hq
  split at hq
  · cases hq
  · cases hq
    exact mem_names_markDeclared h

theorem mem_names_addPending (h : x ∈ (p.addPending v).names) : x = v.name ∨ x ∈ p.names := by
  unfold addPending at h
  split at h
  · exact .inr h
  · have hnames : x ∈ p.names ++ [v.name] := by simpa [names] using h
    rcases mem_append.1 hnames with hx | hx
    · exact .inr hx
    · exact .inl (mem_singleton.1 hx)

theorem mem_names_foldl_markDeclared {vs : List Var} (h : x ∈ (vs.foldl markDeclared p).names) :
    x ∈ p.names ∨ ∃ v ∈ vs, v.name = x := by
  induction vs generalizing p with
  | nil => exact .inl h
  | cons v vs ih =>
    rcases ih h with hx | ⟨u, hu, hname⟩
    · rcases mem_names_markDeclared hx with rfl | hx
      · exact .inr ⟨v, mem_cons_self .., rfl⟩
      · exact .inl hx
    · exact .inr ⟨u, mem_cons_of_mem _ hu, hname⟩

theorem mem_names_blank (h : x ∈ r.blank.names) : ∃ a ∈ r.params, a.name = x := by
  rcases mem_names_foldl_markDeclared h with hx | ⟨v, hv, rfl⟩
  · cases hx
  · obtain ⟨a, ha, rfl⟩ := mem_map.1 hv
    exact ⟨a, ha, rfl⟩

end Program

/-! ### Names in use -/

namespace Context
variable {c' : Context}

/-- No name in use, in any of the programs, is still to come. -/
def Apart (c : Context) : Prop := ∀ p ∈ c.stack, ∀ x ∈ p.names, Spared c.nextVar x

theorem apart_start (n : Nat) (config : BuildConfig) (id : String) : (start n config id).Apart := by
  intro p hp x hx
  cases mem_singleton.1 hp
  cases hx

namespace Apart

theorem of_names (h : c.Apart) (hn : c.nextVar ≤ c'.nextVar)
    (hs : ∀ p ∈ c'.stack, ∀ x ∈ p.names, (∃ q ∈ c.stack, x ∈ q.names) ∨ Spared c'.nextVar x) : c'.Apart := by
  intro p hp x hx
  rcases hs p hp x hx with ⟨q, hq, hx⟩ | hx
  · exact (h q hq x hx).mono hn
  · exact hx

theorem of_stack (h : c.Apart) (hs : c'.stack ⊆ c.stack) (hn : c.nextVar ≤ c'.nextVar) : c'.Apart :=
  h.of_names hn fun p hp _ hx => .inl ⟨p, hs hp, hx⟩

theorem updateCurrent {f : Program → Program} (h : c.Apart)
    (hf : ∀ x ∈ (f c.current).names, x ∈ c.current.names ∨ Spared c.nextVar x) : (c.updateCurrent f).Apart := by
  refine h.of_names (Int.le_refl _) fun p hp x hx => ?_
  rw [stack_updateCurrent] at hp
  rcases mem_cons.1 hp with rfl | hp
  · refine (hf x hx).imp (fun hx => ⟨c.current, ?_, hx⟩) id
    rw [stack_eq]
    exact mem_cons_self ..
  · exact .inl ⟨p, mem_of_mem_tail hp, hx⟩

theorem updateRoot {f : Program → Program} (h : c.Apart) (hf : (f c.root).names = c.root.names) :
    (c.updateRoot f).Apart := by
  refine h.of_names (Int.le_refl _) fun p hp x hx => .inl ?_
  rcases mem_append.1 hp with hp | hp
  · exact ⟨p, mem_append_left _ hp, hx⟩
  · cases mem_singleton.1 hp
    exact ⟨c.root, mem_append_right _ (mem_singleton.2 rfl), hf ▸ hx⟩

theorem emit (h : c.Apart) (st : Stmt) : (c.emit st).Apart :=
  h.updateCurrent fun _ hx => .inl hx

theorem openBlock (h : c.Apart) : c.openBlock.Apart := h.updateCurrent fun _ hx => .inl hx

theorem closeBlock (h : c.Apart) : c.closeBlock.Apart := h.updateCurrent fun _ hx => .inl hx

theorem enterProgram {p : Program} (h : c.Apart) (hp : ∀ x ∈ p.names, Spared c.nextVar x) :
    (c.enterProgram p).Apart := by
  refine h.of_names (Int.le_refl _) fun q hq x hx => ?_
  rcases mem_cons.1 hq with rfl | hq
  · exact .inr (hp x hx)
  · exact .inl ⟨q, hq, hx⟩

end Apart

end Context

section apart
variable {d : Discipline} {c' : Context} (hd : d.policy.Counts)
  (hchosen : ∀ n name, d.policy.chosen n name → Spared n name)
include hd hchosen

theorem Discipline.Declares.spared (h : d.Declares c v) : Spared c.nextVar v.name := by
  cases h with
  | measured hn ht => exact hn.spared hd
  | zeros hn => exact hn.spared hd
  | result hn hk ha => exact hn.spared hd
  | assigned hn hc hl he hg => exact hchosen _ _ hc

omit hd in
theorem Discipline.Begins.apart {key : Nat} {stub : Stub} (h : d.Begins c key r stub) (hc : c.Apart) :
    (c.enterRoutine key stub r.blank).Apart := by
  refine (hc.enterProgram (p := r.blank) fun x hx => ?_).of_stack (fun _ hp => hp) (Int.le_refl _)
  obtain ⟨a, ha, rfl⟩ := Program.mem_names_blank hx
  exact hchosen _ _ (h.chosen a ha)

theorem Acts.apart (h : Acts d c c') (hc : c.Apart) : c'.Apart := by
  induction h with
  | refl => exact hc
  | trans _ _ ih₁ ih₂ => exact ih₂ (ih₁ hc)
  | register | returned | pulse => exact hc.of_stack (fun _ hp => hp) (Int.le_refl _)
  | fresh hs h => exact hc.of_stack (fun _ hp => hp) (Writes.nextVar_le (.acts (.fresh hs h)) hd)
  | emit h => exact hc.emit _
  | @declare c v p hp hv h =>
    refine hc.updateCurrent fun x hx => ?_
    rcases Program.mem_names_declare? h hx with rfl | hx
    · exact .inr (hv.spared hd hchosen)
    · exact .inl hx
  | pend hp hn hi =>
    refine hc.updateCurrent fun x hx => ?_
    rcases Program.mem_names_addPending hx with rfl | hx
    · exact .inr (hn.spared hd)
    · exact .inl hx
  | mark hp hn =>
    refine hc.updateCurrent fun x hx => ?_
    rcases Program.mem_names_markDeclared hx with rfl | hx
    · exact .inr (hn.spared hd)
    · exact .inl hx
  | announce h => exact hc.updateRoot rfl
  | stub hp h => exact hc.updateCurrent fun _ hx => .inl hx

omit hd in
theorem Enters.apart (h : Enters d c c') (hc : c.Apart) : c'.Apart := by
  cases h with
  | block => exact hc.openBlock
  | verbatim | gate | calibration => exact hc
  | program => exact hc.enterProgram fun x hx => by cases hx
  | routine hb => exact hb.apart hchosen hc

theorem stable_apart : Stable d Context.Apart where
  acts h := h.apart hd hchosen
  enters h := h.apart hchosen
  emit st h := h.emit st
  closeBlock h := h.closeBlock
  back := by
    intro c c₁ c' _ h₁ _ hs _ hm
    have hgiven : c'.given = c₁.given := congrArg (·.1) hm
    refine h₁.of_stack hs (Int.le_of_eq ?_)
    rw [Context.nextVar, Context.nextVar, hgiven]
  subroutine _ _ _ _ h := h.updateRoot rfl
  gate _ h := h.updateRoot rfl

theorem Writes.apart (h : Writes d c c') (hc : c.Apart) : c'.Apart := h.stable (stable_apart hd hchosen) hc

end apart

theorem Enters.active {d : Discipline} {c' : Context} (h : Enters d c c') : c'.active = c.active := by
  cases h <;> rfl

/-! ### New variables -/

/-- `q` has a variable more than `p`, which is declared in the innermost block under a name that `p` does not use. -/
structure Program.DeclaresNew (p q : Program) (v : Var) : Prop where
  unused : p.isUsed v.name = false
  declared : q.declared = v :: p.declared
  pending : q.pending = p.pending
  stmt : .declare v ∈ q.innermost

/-- `q` has a variable more than `p`, which waits for its declaration under a name that `p` does not use. -/
structure Program.PendsNew (p q : Program) (v : Var) : Prop where
  unused : p.isUsed v.name = false
  declared : q.declared = p.declared
  pending : q.pending = p.pending ++ [v]

namespace Program
variable {p p₁ q : Program}

theorem innermost_add (p : Program) (st : Stmt) : (p.add st).innermost = p.innermost ++ [st] :=
  innermost_of_blocks (blocks_add p st)

theorem pendsNew_addPending (h : p.isUsed v.name = false) : p.PendsNew (p.addPending v) v := by
  rw [addPending, if_neg (by simp [h])]
  exact ⟨h, rfl, rfl⟩

theorem PendsNew.add (h : p.PendsNew q v) (st : Stmt) : p.PendsNew (q.add st) v :=
  ⟨h.unused, h.declared, h.pending⟩

theorem exists_declaresNew (h : p.isUsed v.name = false) : ∃ q, p.declare? v = some q ∧ p.DeclaresNew q v := by
  obtain ⟨hdeclared, hpending⟩ : p.isDeclared v.name = false ∧ p.isPending v.name = false := by
    simpa [isUsed] using h
  have hq : p.declare? v = some ((p.markDeclared v).add (.declare v)) := by
    rw [declare?, if_neg (by simp [hdeclared])]
  obtain ⟨-, hext⟩ := Extends.declare? hq
  refine ⟨_, hq, h, hext.declared, hext.pending.trans ?_, ?_⟩
  · refine filter_eq_self.2 fun u hu => ?_
    have hne := any_eq_false.1 hpending u hu
    simpa using hne
  · rw [innermost_add]
    exact mem_append_right _ (mem_singleton.2 rfl)

theorem DeclaresNew.add (h : p.DeclaresNew q v) (st : Stmt) : p.DeclaresNew (q.add st) v := by
  refine ⟨h.unused, h.declared, h.pending, ?_⟩
  rw [innermost_add]
  exact mem_append_left _ h.stmt

theorem DeclaresNew.of_rests (hr : p.Rests p₁) (h : p₁.DeclaresNew q v) : p.DeclaresNew q v := by
  refine ⟨?_, hr.declared ▸ h.declared, hr.pending ▸ h.pending, h.stmt⟩
  have hunused := h.unused
  rwa [isUsed, isDeclared, isPending, hr.declared, hr.pending] at hunused

end Program

/-- The next name is not in use in any program, whatever it is for. -/
def Context.NextIsNew (c : Context) : Prop :=
  ∀ kind stem, nameStem? kind = some stem → ∀ p ∈ c.stack, p.isUsed (generatedName stem c.nextVar) = false

theorem Context.Apart.nextIsNew (h : c.Apart) : c.NextIsNew := by
  intro kind stem hstem p hp
  refine Bool.eq_false_iff.2 fun hused => ?_
  exact h p hp _ (Program.isUsed_iff.1 hused) kind stem _ hstem (Int.le_refl _) rfl

theorem Context.NextIsNew.current (h : c.NextIsNew) {kind : Kind}
    (hstem : nameStem? kind = some stem) : c.current.isUsed (generatedName stem c.nextVar) = false := by
  refine h kind stem hstem _ ?_
  rw [stack_eq]
  exact mem_cons_self ..

/-! ### Operations that take a name -/

namespace Convert
variable {α β : Type} {s t : State} {h : Handle}

/-- At `s` the conversion does not stop because a variable is declared already, and if it comes to an end, then
`Q` holds of its result and of the state it leaves. -/
structure Once (m : Convert α) (s : State) (Q : α → State → Prop) : Prop where
  raised : ∀ name t, m s ≠ (.error (.error (.alreadyDeclared name)), t)
  result : ∀ a t, m s = (.ok a, t) → Q a t

namespace Once
variable {m : Convert α} {f : α → Convert β} {Q Q' : α → State → Prop} {R : β → State → Prop} {T : α → Prop}

theorem of_ok {a : α} (hm : m s = (.ok a, t)) (hQ : Q a t) : Once m s Q := by
  refine ⟨fun name u hu => ?_, fun b u hu => ?_⟩
  · cases hm.symm.trans hu
  · cases hm.symm.trans hu
    exact hQ

theorem of_reads (hr : Reads m s T) (hQ : ∀ a, T a → Q a s) : Once m s Q := by
  rcases hr with ⟨e, he, hm⟩ | ⟨a, ha, hT⟩
  · refine ⟨fun name u hu => ?_, fun b u hu => ?_⟩
    · cases hm.symm.trans hu
      exact he.undeclared name rfl
    · cases hm.symm.trans hu
  · exact of_ok ha (hQ a hT)

theorem mono (hm : Once m s Q) (hQ : ∀ a t, Q a t → Q' a t) : Once m s Q' :=
  ⟨hm.raised, fun a t ha => hQ a t (hm.result a t ha)⟩

theorem bind (hm : Once m s Q) (hf : ∀ a t, Q a t → Once (f a) t R) : Once (m >>= f) s R := by
  rcases ha : m s with ⟨e | a, t⟩
  · refine ⟨fun name u hu => ?_, fun b u hu => ?_⟩
    · rw [bind_of_error ha] at hu
      cases hu
      exact hm.raised name t ha
    · rw [bind_of_error ha] at hu
      cases hu
  · have hnext := hf a t (hm.result a t ha)
    refine ⟨fun name u hu => ?_, fun b u hu => ?_⟩
    · exact hnext.raised name u (bind_of_ok ha f ▸ hu)
    · exact hnext.result b u (bind_of_ok ha f ▸ hu)

theorem seq (hr : Reads m s T) (hf : ∀ a, T a → Once (f a) s R) : Once (m >>= f) s R :=
  (of_reads (Q := fun a t => t = s ∧ T a) hr fun _ ha => ⟨rfl, ha⟩).bind fun a _ ht => ht.1 ▸ hf a ht.2

theorem refuse (e : DomainError) : Once (refuse e) s Q :=
  of_reads (T := fun _ => False) .refuse fun _ hno => hno.elim

theorem refuseThen (e : DomainError) : Once (Convert.refuse e >>= f) s R :=
  seq (T := fun _ => False) .refuse fun _ hno => hno.elim

end Once

theorem once_freshName (kind : Kind) : Once (freshName kind) s fun name t => ∃ stem, nameStem? kind = some stem ∧
    name = generatedName stem s.ctx.nextVar ∧
    t = { s with ctx := s.ctx.giveOut stem } := by
  refine ⟨fun name t ht => ?_, fun name t ht => ?_⟩
  · unfold freshName at ht
    cases hstem : nameStem? kind <;> simp only [hstem] at ht <;> cases ht
  unfold freshName at ht
  cases hstem : nameStem? kind with
  | none =>
    simp only [hstem] at ht
    cases ht
  | some stem =>
    simp only [hstem] at ht
    cases ht
    exact ⟨stem, rfl, rfl, rfl⟩

theorem declare_of_new (hv : s.ctx.current.isUsed v.name = false) :
    ∃ t, declare v s = (.ok (), t) ∧ s.ctx.current.DeclaresNew t.ctx.current v := by
  obtain ⟨q, hq, hnew⟩ := Program.exists_declaresNew hv
  refine ⟨{ s with ctx := s.ctx.updateCurrent fun _ => q }, ?_, ?_⟩
  · rw [declare, bind_of_ok (context_apply s), hq]
    rfl
  · rw [current_updateCurrent]
    exact hnew

theorem once_declare (hv : s.ctx.current.isUsed v.name = false) :
    Once (declare v) s fun _ t => s.ctx.current.DeclaresNew t.ctx.current v := by
  obtain ⟨t, ht, hnew⟩ := declare_of_new hv
  exact .of_ok ht hnew

theorem once_measureInto {p : Program} {u : Var} (v : Var) (i : Nat) (qs : List Expr)
    (hp : p.DeclaresNew s.ctx.current u) :
    Once (measureInto v i qs) s fun _ t => p.DeclaresNew t.ctx.current u := by
  induction qs generalizing i s with
  | nil => exact .of_ok rfl hp
  | cons q qs ih =>
    refine Once.bind (Q := fun _ t => p.DeclaresNew t.ctx.current u) (.of_ok rfl ?_) fun _ t ht => ih (i + 1) ht
    show p.DeclaresNew (s.ctx.updateCurrent _).current u
    rw [current_updateCurrent]
    exact hp.add _

section fresh
variable (hs : s.ctx.NextIsNew)
include hs

theorem once_measure (qs : List Value) : Once (measure h qs) s fun v t =>
    v.init ≠ none ∧ s.ctx.current.DeclaresNew t.ctx.current v := by
  refine .seq (reads_requireClassical h _ s) fun _ _ => ?_
  dsimp only
  split
  · exact .refuseThen _
  refine .seq (reads_resolveAll qs s) fun ts _ => ?_
  refine Once.bind (Q := fun _ t => s.ctx.Registered t.ctx) (.of_ok rfl (registered_foldl _ _)) fun _ t ht => ?_
  refine (once_freshName .bit).bind fun name u hu => ?_
  obtain ⟨stem, hstem, rfl, rfl⟩ := hu
  have hcur : t.ctx.current = s.ctx.current := ht.current
  have hunused : t.ctx.current.isUsed (generatedName stem t.ctx.nextVar) = false := by
    rw [hcur, ht.nextVar]
    exact hs.current hstem
  rw [← hcur]
  split
  · exact (once_declare hunused).bind fun _ u hu => .of_ok rfl ⟨Option.some_ne_none _, hu⟩
  · refine (once_declare hunused).bind fun _ u hu => ?_
    exact (once_measureInto _ 0 _ hu).bind fun _ u' hu' => .of_ok rfl ⟨Option.some_ne_none _, hu'⟩

theorem once_newVar (ty : Ty) (init : Option Value) : Once (newVar h ty init) s fun v t =>
    s.ctx.current.PendsNew t.ctx.current v ∧ ∀ u, init = some u → ∃ e, u.toExpr = .ok e ∧ v.init = some e := by
  refine .seq (reads_requireClassical h _ s) fun _ _ => ?_
  refine (once_freshName ty.kind).bind fun name t ht => ?_
  obtain ⟨stem, hstem, rfl, rfl⟩ := ht
  -- whatever the initial value is, the variable is registered for declaration
  have hpend : ∀ e : Option Expr, Once (do
      updateCurrent (·.addPending ⟨generatedName stem s.ctx.nextVar, some ty, e⟩)
      pure (⟨generatedName stem s.ctx.nextVar, some ty, e⟩ : Var))
      { s with ctx := s.ctx.giveOut stem }
      fun v t => s.ctx.current.PendsNew t.ctx.current v ∧ v.init = e := by
    intro e
    refine .of_ok rfl ⟨?_, rfl⟩
    rw [current_updateCurrent]
    exact Program.pendsNew_addPending (hs.current hstem)
  dsimp only
  split
  · exact (hpend none).mono fun v t hv => ⟨hv.1, fun u hu => by cases hu⟩
  · rename_i value
    refine .seq (reads_expression value _) fun e he => ?_
    refine .seq (reads_liftFault _ _) fun ok _ => ?_
    split
    · refine (hpend (some e)).mono fun v t hv => ⟨hv.1, fun u hu => ?_⟩
      cases hu
      exact ⟨e, he, hv.2⟩
    · exact .refuseThen _

theorem once_newArray (elem : Option Ty) (dims : List Int) (init : Value) : Once (newArray h elem dims init) s
    fun v t => s.ctx.current.PendsNew t.ctx.current v ∧
      (∀ u, initial? init = some u → ∃ e, u.toExpr = .ok e ∧ v.init = some e) ∧
      (initial? init = none → ∀ e, (Ty.array elem dims).zero = .ok (.value e) → v.init = some e) := by
  unfold newArray
  dsimp only
  split
  · rename_i u hu
    refine (once_newVar hs _ (some u)).mono fun v t hv => ⟨hv.1, fun w hw => ?_, fun hnone => ?_⟩
    · exact hv.2 w (hu.symm.trans hw)
    · cases hu.symm.trans hnone
  · rename_i hnone
    have hinit : ∀ u, initial? init ≠ some u := fun u hu => by cases hnone.symm.trans hu
    refine .seq (reads_liftFault _ s) fun z hz => ?_
    split
    · refine (once_newVar hs _ none).mono fun v t hv => ⟨hv.1, fun u hu => absurd hu (hinit u), fun _ e he => ?_⟩
      cases hz.symm.trans he
    · rename_i e
      refine (once_newVar hs _ (some (.expr e))).mono fun v t hv =>
        ⟨hv.1, fun u hu => absurd hu (hinit u), fun _ x hx => ?_⟩
      cases hz.symm.trans hx
      obtain ⟨e', he', hv'⟩ := hv.2 _ rfl
      cases he'
      exact hv'
    · refine (once_newVar hs _ none).bind fun v t hv => ?_
      exact .of_reads (T := fun _ => False) .fault fun _ hno => hno.elim

theorem once_truthResult (e : Expr) : Once (truthResult h e) s fun x t =>
    ∃ v : Var, x = .expr v.expr ∧ s.ctx.current.PendsNew t.ctx.current v := by
  refine .seq (reads_requireClassical h _ s) fun _ _ => ?_
  refine (once_freshName .bool).bind fun name t ht => ?_
  obtain ⟨stem, hstem, rfl, rfl⟩ := ht
  refine .of_ok rfl ⟨_, rfl, ?_⟩
  rw [current_updateCurrent]
  exact (Program.pendsNew_addPending (hs.current hstem)).add _

end fresh

/-- The operators whose result is a truth value. -/
inductive IsTruthOperator : Convert Value → Prop
  | compare (h : Handle) (c : Comparison) (a b : Value) : IsTruthOperator (compare h c a b)
  | logical (h : Handle) (c : Connective) (a b : Value) : IsTruthOperator (logical h c a b)
  | negate (h : Handle) (a : Value) : IsTruthOperator (negate h a)

/-- The result is known while converting, or it is in a variable of its own. -/
theorem IsTruthOperator.once {m : Convert Value} (hm : IsTruthOperator m) (hs : s.ctx.NextIsNew) : Once m s fun x t =>
    (∃ b, x = .bool b ∧ t = s) ∨ ∃ v : Var, x = .expr v.expr ∧ s.ctx.current.PendsNew t.ctx.current v := by
  cases hm with
  | compare h c a b =>
    unfold Convert.compare
    split
    · refine .seq (reads_expression a s) fun l _ => ?_
      refine .seq (reads_expression b s) fun r _ => ?_
      exact (once_truthResult hs _).mono fun _ _ => .inr
    · split
      · exact .of_ok rfl (.inl ⟨_, rfl, rfl⟩)
      · exact .refuse _
  | logical h c a b =>
    unfold Convert.logical
    split
    · exact .of_ok rfl (.inl ⟨_, rfl, rfl⟩)
    · refine .seq (reads_conditionExpr (d := .free) a.over_true s) fun l _ => ?_
      refine .seq (reads_conditionExpr (d := .free) b.over_true s) fun r _ => ?_
      exact (once_truthResult hs _).mono fun _ _ => .inr
  | negate h a =>
    unfold Convert.negate
    split
    · exact .of_ok rfl (.inl ⟨_, rfl, rfl⟩)
    · refine .seq (reads_conditionExpr (d := .free) a.over_true s) fun e _ => ?_
      exact (once_truthResult hs _).mono fun _ _ => .inr

/-- A loop that was emitted: its variable is recorded, and the body runs after that. -/
theorem loopOver_ok {r : RangeSpec} {body : Value → Convert Unit} (hs : s.ctx.NextIsNew)
    (hloop : loopOver h r body s = (.ok (), t)) :
    ∃ v range stmts s₁ s₂, s.ctx.current.isUsed v.name = false ∧ s₁.ctx.current = s.ctx.current.markDeclared v ∧
      block (body (.expr v.expr)) s₁ = (.ok stmts, s₂) ∧
      t = { s₂ with ctx := s₂.ctx.emit (.forIn v range stmts) } := by
  unfold loopOver at hloop
  obtain ⟨range, -, hloop⟩ := (reads_rangeExpr (d := .free) (Value.over_true _) (Value.over_true _)
    (fun _ _ => Value.over_true _) s).exists_of_bind_ok hloop
  obtain ⟨_, -, hloop⟩ := (reads_requireClassical h _ s).exists_of_bind_ok hloop
  obtain ⟨name, u, hname, hloop⟩ := exists_of_bind_ok hloop
  obtain ⟨stem, hstem, rfl, rfl⟩ := (once_freshName .int).result name u hname
  obtain ⟨_, s₁, hmark, hloop⟩ := exists_of_bind_ok (eq_of_mapError_ok hloop)
  cases hmark
  obtain ⟨stmts, s₂, hblock, hemit⟩ := exists_of_bind_ok hloop
  cases hemit
  refine ⟨⟨_, some Ty.int, none⟩, range, stmts, _, s₂, hs.current hstem, ?_, hblock, rfl⟩
  rw [current_updateCurrent]
  rfl

theorem exists_emitCall_new {ty : Ty} (exprs : List Expr) (hr : r.returns = some ty)
    (hstem : nameStem? ty.kind = some stem) (hs : s.ctx.NextIsNew) :
    ∃ v t, emitCall r exprs s = (.ok (some v), t) ∧ v.init = some (.call r.name exprs (some ty)) ∧
      s.ctx.current.DeclaresNew t.ctx.current v := by
  have hname : freshName ty.kind s = (.ok (generatedName stem s.ctx.nextVar),
      { s with ctx := s.ctx.giveOut stem }) := by
    unfold freshName
    rw [hstem]
    rfl
  let v : Var := ⟨generatedName stem s.ctx.nextVar, some ty, some (.call r.name exprs (some ty))⟩
  obtain ⟨t, ht, hnew⟩ := declare_of_new (s := { s with ctx := s.ctx.giveOut stem }) (v := v) (hs.current hstem)
  refine ⟨v, { t with ctx := { t.ctx with returned := some v } }, ?_, rfl, hnew⟩
  unfold emitCall
  simp only [hr]
  rw [bind_of_ok hname, bind_of_ok ht]
  rfl

/-! ### Builds -/

/-- Another name can be generated, and the script does not choose one that is still to come. -/
def Mindful (lib : Library) (o : Option Step) (t : State) : Prop :=
  t.HasNames ∧ ∀ st, o = some st → ∀ name ∈ st.action.choices lib t.ctx, Spared t.ctx.nextVar name

/-- The counter does not come around, and no name is chosen that is still to come. -/
def freshPolicy : Policy where
  number n := 0 ≤ n ∧ n < Word.largest
  chosen := Spared
  lost := Policy.lost_default

section build
variable {lib : Library} {fuel : Nat}

theorem allows_of_mindful {runs : Nat → Runner} {e : Stop} {he : ∀ x, Stop.error x ≠ e} {o : Option Step}
    (ht : Mindful lib o t) : Allows (freshPolicy.excusing (fun _ => trivial) e he).discipline lib runs o t :=
  ⟨ht.1, fun _ _ => obeys_discipline _ lib _ _ (fun _ _ _ _ _ _ _ _ => trivial) fun _ => trivial,
    fun _ _ _ _ _ _ _ _ _ _ _ => trivial, fun _ _ => .of_forall, ht.2⟩

theorem throughout_apart {config : BuildConfig} {args : List Value}
    (hb : Throughout lib fuel (Mindful lib) (buildProgram · r config args) s) :
    Throughout lib fuel (fun o t => Mindful lib o t ∧ t.ctx.Apart ∧ t.ctx.active = true)
      (buildProgram · r config args) s := by
  refine hb.upheld (π := freshPolicy) (A := fun c => c.Apart ∧ c.active = true) (fun _ _ _ _ => trivial)
    (fun _ _ _ _ _ _ _ _ _ => trivial) (fun _ => trivial) (fun e he n config id => ?_)
    fun e he o t ho => allows_of_mindful ho
  refine .of_preserved (fun hc hw => ?_) (fun hc hw => ?_) ⟨apart_start n config id, rfl⟩
  · exact ⟨hw.apart (fun _ hn => hn) (fun _ _ hx => hx) hc.1, hw.advance.active.trans hc.2⟩
  · exact ⟨hw.apart (fun _ _ hx => hx) hc.1, hw.active.trans hc.2⟩

theorem callSubroutine_of_prepared {n key : Nat} {q : Routine} {vs : List Value} {exprs : List Expr} {t₁ : State}
    {ty : Ty} (ht : t.HasNames) (hc : t.ctx.Apart) (hact : t.ctx.active = true) (hk : q.kind ≠ .gate)
    (hparams : ∀ p ∈ q.params, Spared t.ctx.nextVar p.name)
    (hthrough : Throughout lib n (Mindful lib) (prepareCall · key q vs) t)
    (hprepare : prepareCall (run lib n) key q vs t = (.ok exprs, t₁)) (hr : q.returns = some ty)
    (hstem : nameStem? ty.kind = some stem) :
    ∃ v t', callSubroutine (run lib n) key q vs t = (.ok (some v), t') ∧
      v.init = some (.call q.name exprs (some ty)) ∧ t.ctx.current.DeclaresNew t'.ctx.current v := by
  let π := freshPolicy.excusing (fun _ => trivial) .exhausted error_ne_exhausted
  have hruns : Runs π.discipline (fun _ => True) (fun _ => True) (observed (insist (Mindful lib) .exhausted) lib n)
      (observed (insist (Mindful lib) .exhausted) lib n) :=
    runs_insist rfl (fun _ _ _ _ _ => trivial) (fun _ _ _ _ => trivial) (fun _ _ hu => allows_of_mindful hu)
      (fun _ _ _ _ _ _ _ _ _ => trivial) (fun _ _ hu _ _ => if_pos hu) n
  obtain ⟨hallow, s₁, hbind, hsup⟩ := prepareCall_ok ((hthrough.insist .exhausted).trans hprepare)
  obtain ⟨qs, rfl⟩ := bindArguments_ok hbind
  obtain ⟨hw, hrests, -⟩ := writes_of_supplied (π := π) (s := { t with ctx := { t.ctx with qubits := qs } }) hruns
    trivial hk ⟨hact, hallow⟩ ht.1 hparams hsup
  have hapart : t₁.ctx.Apart := hw.apart (fun _ hn => hn) (fun _ _ hx => hx) hc
  obtain ⟨v, t', hemit, hinit, hnew⟩ := exists_emitCall_new exprs hr hstem hapart.nextIsNew
  refine ⟨v, t', ?_, hinit, hnew.of_rests (rests_current hrests)⟩
  rw [callSubroutine_eq_bind, bind_of_ok hprepare]
  exact hemit

end build

/-- At `t` the next name is not in use, and every operation that takes it makes a variable of its own, with the
initial value it has been given. -/
structure TakesNew (lib : Library) (t : State) : Prop where
  next : t.ctx.NextIsNew
  measure : ∀ h qs, Once (measure h qs) t fun v t' => v.init ≠ none ∧ t.ctx.current.DeclaresNew t'.ctx.current v
  newVar : ∀ h ty init, Once (newVar h ty init) t fun v t' => t.ctx.current.PendsNew t'.ctx.current v ∧
    ∀ u, init = some u → ∃ e, u.toExpr = .ok e ∧ v.init = some e
  newArray : ∀ h elem dims init, Once (newArray h elem dims init) t fun v t' =>
    t.ctx.current.PendsNew t'.ctx.current v ∧
      (∀ u, initial? init = some u → ∃ e, u.toExpr = .ok e ∧ v.init = some e) ∧
      (initial? init = none → ∀ e, (Ty.array elem dims).zero = .ok (.value e) → v.init = some e)
  truth : ∀ m, IsTruthOperator m → Once m t fun x t' =>
    (∃ b, x = .bool b ∧ t' = t) ∨ ∃ v : Var, x = .expr v.expr ∧ t.ctx.current.PendsNew t'.ctx.current v
  loop : ∀ h r body t', loopOver h r body t = (.ok (), t') → ∃ v range stmts s₁ s₂,
    t.ctx.current.isUsed v.name = false ∧ s₁.ctx.current = t.ctx.current.markDeclared v ∧
      block (body (.expr v.expr)) s₁ = (.ok stmts, s₂) ∧ t' = { s₂ with ctx := s₂.ctx.emit (.forIn v range stmts) }
  call : ∀ n key q vs exprs t₁ ty stem, q.kind ≠ .gate → (∀ p ∈ q.params, Spared t.ctx.nextVar p.name) →
    Throughout lib n (Mindful lib) (prepareCall · key q vs) t →
    prepareCall (run lib n) key q vs t = (.ok exprs, t₁) → q.returns = some ty → nameStem? ty.kind = some stem →
    ∃ v t', callSubroutine (run lib n) key q vs t = (.ok (some v), t') ∧
      v.init = some (.call q.name exprs (some ty)) ∧ t.ctx.current.DeclaresNew t'.ctx.current v

/-- As long as the script chooses no name that is still to come, all generated names are new where they are used:
at every moment of the build, a measurement and a call declare a variable that was not there, without failing for
a second declaration; a variable constructor and an operator add one to those that wait, with its initial value;
and a loop runs its body over a variable of its own. -/
theorem generated_names_new {lib : Library} {fuel : Nat} {r : Routine} {config : BuildConfig} {args : List Value}
    {s : State} (hb : Throughout lib fuel (Mindful lib) (buildProgram · r config args) s) :
    Throughout lib fuel (fun _ t => TakesNew lib t) (buildProgram · r config args) s := by
  refine (throughout_apart hb).mono fun o t ht => ?_
  obtain ⟨hmindful, hapart, hact⟩ := ht
  have hnext := hapart.nextIsNew
  exact {
    next := hnext
    measure := fun h qs => once_measure hnext qs
    newVar := fun h ty init => once_newVar hnext ty init
    newArray := fun h elem dims init => once_newArray hnext elem dims init
    truth := fun m hm => hm.once hnext
    loop := fun h r body t' ht' => loopOver_ok hnext ht'
    call := fun n key q vs exprs t₁ ty stem hk hparams hthrough hprepare hr hstem =>
      callSubroutine_of_prepared hmindful.1 hapart hact hk hparams hthrough hprepare hr hstem }

/-- A test: the name has another form, or it was generated before. -/
def isSpared (n : Int) (name : String) : Bool :=
  name.toList.take 2 != ['_', '_'] || (List.range n.toNat).any fun m =>
    ([Kind.bit, .bool, .int, .float, .array].filterMap nameStem?).any fun stem => name == generatedName stem m

theorem spared_of_isSpared {n : Int} (hn : 0 ≤ n) (h : isSpared n name = true) : Spared n name := by
  unfold isSpared at h
  rcases Bool.or_eq_true _ _ ▸ h with h | h
  · exact spared_of_not_isGenerated (not_isGenerated_of_take (by simpa using h)) hn
  · obtain ⟨m, hm, h⟩ := any_eq_true.1 h
    obtain ⟨stem, hmem, h⟩ := any_eq_true.1 h
    obtain ⟨kind, -, hstem⟩ := mem_filterMap.1 hmem
    rw [beq_iff_eq.1 h]
    have hlt := mem_range.1 hm
    exact spared_generatedName hstem (by omega)

def isMindful (lib : Library) (o : Option Step) (t : State) : Bool :=
  decide t.HasNames && o.all fun st => (st.action.choices lib t.ctx).all (isSpared t.ctx.nextVar)

theorem mindful_of_isMindful {lib : Library} {o : Option Step} {t : State} (h : isMindful lib o t = true) :
    Mindful lib o t := by
  obtain ⟨hnames, hall⟩ := Bool.and_eq_true_iff.1 h
  have ht : t.HasNames := of_decide_eq_true hnames
  refine ⟨ht, fun st hst name hname => spared_of_isSpared ht.1.1 ?_⟩
  rw [hst] at hall
  exact all_eq_true.1 hall name hname

/-- A subroutine with a parameter and two variables, one of them under a name that its caller was given. -/
def tallyLibrary : Library :=
  .ofRoutines
    [.subroutine "tally" [⟨"n", some Ty.int⟩] (some Ty.int)
      [.mk (.newVar .int (.const (.int .word 1))) (some "y") false .own,
       .mk (.assign "__int_0__" (.named "y")) none false .own] (.arg 0)]

/-- It takes names for a variable, for a loop and in the loop for a call, for a measurement and for a comparison. -/
def tallyMain : Routine :=
  .main "main"
    [.mk (.newVar .int (.const (.int .word 5))) (some "x") false .own,
     .mk (.loopOver none (.const (.int .word 0)) (.const (.int .word 3)) none
       [.mk (.call "tally" [.named "x"]) (some "k") false .own,
        .mk (.measure [.const (.int .word 0)]) none false .own,
        .mk (.compare .lt (.named "k") (.named "x")) none false .own]) none false .own] []

theorem generated_names_new_tally :
    (buildProgram (run tallyLibrary 4) tallyMain {} [] {}).1.toOption.map (·.program.names) =
      some ["__qubits__", "__bit_4__", "__int_3__", "__int_1__", "__int_0__", "__bool_5__"] ∧
    Throughout tallyLibrary 4 (Mindful tallyLibrary) (buildProgram · tallyMain {} []) {} ∧
    Throughout tallyLibrary 4 (fun _ t => TakesNew tallyLibrary t) (buildProgram · tallyMain {} [])
      {} := by
  have hmindful : Throughout tallyLibrary 4 (Mindful tallyLibrary)
      (buildProgram · tallyMain {} []) {} := by
    refine (throughout_of_stopUnless (M := isMindful tallyLibrary) ?_).mono fun _ _ => mindful_of_isMindful
    have hok : (buildProgram (observed (stopUnless (isMindful tallyLibrary)) tallyLibrary 4) tallyMain {} []
        {}).1.isOk = true := by decide +kernel
    intro heq
    rw [heq] at hok
    cases hok
  refine ⟨by decide +kernel, hmindful, generated_names_new hmindful⟩

/-- A variable is assigned to under a name of the script's own choice. -/
def takenMain (name : String) (steps : List Step) : Routine :=
  .main "main"
    (.mk (.newVar .int (.const (.int .word 1))) (some "x") false .own ::
     .mk (.assign name (.named "x")) none false .own :: steps) []

def takenInt : Routine :=
  takenMain "__int_1__"
    [.mk (.newVar .int (.const (.int .word 5))) (some "y") false .own, .mk (.assign "z" (.named "y")) none false .own]

def takenBit : Routine := takenMain "__bit_1__" [.mk (.measure [.const (.int .word 0)]) none false .own]

def raised? {α : Type} : Except Stop α → Option Error
  | .error (.error e) => some e
  | _ => none

/-- Nobody keeps a script from choosing a name that is still to come: then a new variable is taken for the one that
is there, and a measurement fails. -/
theorem generated_name_taken :
    (buildProgram (run (.ofRoutines []) 2) takenInt {} [] {}).1.toOption.map (·.program.names) =
      some ["z", "__int_1__", "__int_0__"] ∧
    ¬ Throughout (.ofRoutines []) 2 (fun _ t => t.ctx.NextIsNew) (buildProgram · takenInt {} []) {} ∧
    (raised? (buildProgram (run (.ofRoutines []) 2) takenBit {} [] {}).1).map Error.message =
      some "oqpy: variable \"__bit_1__\" already declared" := by
  have hends : (buildProgram (run (.ofRoutines []) 2) takenInt {} [] {}).1.isOk = true := by decide +kernel
  have hstops : (buildProgram (observed (stopUnless fun _ t =>
      !t.ctx.current.isUsed (generatedName "__int_" t.ctx.nextVar)) (.ofRoutines []) 2) takenInt {} [] {}).1.isOk =
      false := by decide +kernel
  refine ⟨by decide +kernel, fun hthrough => ?_, by decide +kernel⟩
  refine not_throughout_of_stopUnless hends hstops (hthrough.mono fun _ t ht => ?_)
  have hstem : nameStem? .int = some "__int_" := rfl
  rw [ht.current hstem]
  rfl

end Convert

end QasmStudio

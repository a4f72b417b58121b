import QasmStudio.Proofs.Lang.Scope
import QasmStudio.Proofs.Script.Moves

/-!
# The programs of a workbench

Scripts work on programs through their operations, so every program on a workbench is `Reachable`, with
the declarations in hand that failed or discarded blocks left behind. A script closes the blocks it opens, on
every program and on every exit, and takes nothing from any hand that it did not put there (`Advances`). The
one way around the tables is to put statements of another program in front of the current one; `Plain` scripts
do this only with statements that declare nothing.
-/

namespace QasmStudio.Workbench

open List

variable {s t u : State} {i : Nat} {f : Program → Program}

theorem length_nested_add (p : Program) (st : Stmt) : (p.add st).nested.length = p.nested.length := by
  unfold Program.add
  cases p.nested <;> rfl

theorem length_nested_declare? {p q : Program} {v : Var} (h : p.declare? v = some q) :
    q.nested.length = p.nested.length := by
  unfold Program.declare? at h
  split at h
  · cases h
  · cases h
    exact length_nested_add ..

theorem nested_addPending (p : Program) (v : Var) : (p.addPending v).nested = p.nested := by
  unfold Program.addPending
  split <;> rfl

/-! ### Advancing -/

/-- All programs are reachable, and one of them is current. -/
structure Sound (s : State) : Prop where
  current_lt : s.current < s.programs.length
  reachable : ∀ i < s.programs.length, ∃ hand, (s.program i).Reachable hand

/-- Program `i` has the same blocks open in `t` as in `s`, and has `ds` in hand besides what it had. -/
structure Hands (s t : State) (i : Nat) (ds : Multiset String) : Prop where
  depth : (t.program i).nested.length = (s.program i).nested.length
  reach : ∀ hand, (s.program i).Reachable hand → ∃ more, (t.program i).Reachable (ds + (more + hand))

namespace Hands
variable {ds ds' : Multiset String}

theorem refl (s : State) (i : Nat) : Hands s s i 0 := ⟨rfl, fun hand h => ⟨0, by simpa using h⟩⟩

theorem trans (h₁ : Hands s t i ds) (h₂ : Hands t u i ds') : Hands s u i (ds + ds') := by
  refine ⟨h₂.depth.trans h₁.depth, fun hand h => ?_⟩
  obtain ⟨a, ha⟩ := h₁.reach hand h
  obtain ⟨b, hb⟩ := h₂.reach _ ha
  refine ⟨b + a, ?_⟩
  rwa [show ds + ds' + (b + a + hand) = ds' + (b + (ds + (a + hand))) by ac_rfl]

theorem mono (h : Hands s t i ds) : Hands s t i 0 := by
  refine ⟨h.depth, fun hand hr => ?_⟩
  obtain ⟨a, ha⟩ := h.reach hand hr
  exact ⟨ds + a, by rwa [zero_add, add_assoc]⟩

theorem congr {s' t' : State} (hs : s'.program i = s.program i) (ht : t'.program i = t.program i)
    (h : Hands s t i ds) : Hands s' t' i ds :=
  ⟨by rw [hs, ht]; exact h.depth, by rw [hs, ht]; exact h.reach⟩

end Hands

/-- What a stretch of a script does to the programs that were there, and leaves. -/
structure Advances (s t : State) : Prop where
  sound : Sound t
  length_le : s.programs.length ≤ t.programs.length
  hands : ∀ i < s.programs.length, Hands s t i 0

namespace Advances

theorem trans (h₁ : Advances s t) (h₂ : Advances t u) : Advances s u := by
  refine ⟨h₂.sound, h₁.length_le.trans h₂.length_le, fun i hi => ?_⟩
  have := (h₁.hands i hi).trans (h₂.hands i (hi.trans_le h₁.length_le))
  rwa [add_zero] at this

theorem of_eq (h : Sound s) (hp : t.programs = s.programs) (hc : t.current = s.current) : Advances s t := by
  have hprog : ∀ i, t.program i = s.program i := fun i => by rw [State.program, State.program, hp]
  refine ⟨⟨by rw [hp, hc]; exact h.current_lt, fun i hi => ?_⟩, by rw [hp], fun i _ => ?_⟩
  · rw [hprog]
    exact h.reachable i (hp ▸ hi)
  · exact (Hands.refl s i).congr rfl (hprog i)

end Advances

/-- A change of one program, after which everyone else is as before. -/
theorem Sound.update (h : Sound s)
    (hf : ∀ hand, (s.program i).Reachable hand → ∃ hand', (f (s.program i)).Reachable hand') :
    Sound (s.update i f) := by
  refine ⟨by rw [State.length_update]; exact h.current_lt, fun j hj => ?_⟩
  rw [State.length_update] at hj
  obtain ⟨hand, hr⟩ := h.reachable j hj
  by_cases hij : j = i
  · subst hij
    rw [State.program_update_self hj]
    exact hf hand hr
  · rw [State.program_update_of_ne hij]
    exact ⟨hand, hr⟩

theorem Advances.update (hs : Sound (t.update i f))
    (hlen : s.programs.length ≤ t.programs.length) (hi : Hands s (t.update i f) i 0)
    (hj : ∀ j < s.programs.length, j ≠ i → Hands s t j 0) : Advances s (t.update i f) := by
  refine ⟨hs, by rwa [State.length_update], fun j hlt => ?_⟩
  by_cases hij : j = i
  · exact hij ▸ hi
  · exact (hj j hlt hij).congr rfl (State.program_update_of_ne hij)

/-- A change of one program that keeps its blocks open and its hand as it is. -/
theorem Sound.advances_update (h : Sound s) (hi : i < s.programs.length)
    (hn : (f (s.program i)).nested.length = (s.program i).nested.length)
    (hf : ∀ hand, (s.program i).Reachable hand → (f (s.program i)).Reachable hand) :
    Advances s (s.update i f) := by
  refine .update (h.update fun hand hr => ⟨hand, hf hand hr⟩) le_rfl ⟨?_, fun hand hr => ⟨0, ?_⟩⟩
    fun j _ _ => .refl s j
  · rw [State.program_update_self hi, hn]
  · rw [State.program_update_self hi, zero_add, zero_add]
    exact hf hand hr

/-- The new program is a copy of a reachable one; the others are as they were. -/
theorem Sound.advances_copy (h : Sound s) : Advances s { s with
    programs := s.programs ++ [(s.program s.current).copy]
    current := s.programs.length } := by
  generalize ht : State.mk (s.programs ++ [(s.program s.current).copy]) s.programs.length s.bindings s.entries = t
  have hlen : t.programs.length = s.programs.length + 1 := by
    subst ht
    exact length_append
  have hold : ∀ i < s.programs.length, t.program i = s.program i := fun i hi => by
    subst ht
    simp [State.program, getD_eq_getElem?_getD, getElem?_append_left hi]
  have hnew : t.program s.programs.length = (s.program s.current).copy := by
    subst ht
    simp [State.program]
  have hcur : t.current = s.programs.length := by rw [← ht]
  refine ⟨⟨by omega, fun i hi => ?_⟩, by omega, fun i hi => (Hands.refl s i).congr rfl (hold i hi)⟩
  · rcases Nat.lt_succ_iff_lt_or_eq.1 (hlen ▸ hi) with hi | rfl
    · rw [hold i hi]
      exact h.reachable i hi
    · obtain ⟨hand, hr⟩ := h.reachable _ h.current_lt
      rw [hnew]
      exact ⟨_, hr.copy⟩

theorem Sound.advances_use (h : Sound s) (hi : i < s.programs.length) : Advances s { s with current := i } :=
  ⟨⟨hi, h.reachable⟩, le_rfl, fun j _ => ⟨rfl, (Hands.refl s j).reach⟩⟩

theorem Advances.addTo {st : Stmt} (h : Advances s t) (hs : Sound s) (hi : i < s.programs.length)
    (hst : Hands s t i st.declarations) : Advances s (t.update i (·.add st)) := by
  have hself : (t.update i (·.add st)).program i = (t.program i).add st :=
    State.program_update_self (hi.trans_le h.length_le)
  have hreach : ∀ hand, (s.program i).Reachable hand →
      ∃ more, ((t.program i).add st).Reachable (0 + (more + hand)) := fun hand hr => by
    obtain ⟨more, hm⟩ := hst.reach hand hr
    exact ⟨more, by rw [zero_add]; exact .add hm⟩
  obtain ⟨hand, hr⟩ := hs.reachable i hi
  obtain ⟨more, hm⟩ := hreach hand hr
  refine .update (h.sound.update fun _ _ => ⟨_, hm⟩) h.length_le ⟨?_, ?_⟩ fun j hj _ => h.hands j hj
  · rw [hself, length_nested_add, hst.depth]
  · rwa [hself]

/-- Closing a block that was opened: its declarations are in hand. -/
theorem Advances.close (hi : i < s.programs.length) (h : Advances (s.update i (·.openBlock)) t) :
    Advances s (t.update i (·.closeBlock)) ∧
      Hands s (t.update i (·.closeBlock)) i (Stmt.allDeclarations (t.program i).innermost) := by
  have hlen : s.programs.length ≤ t.programs.length := State.length_update (s := s) ▸ h.length_le
  have hself : (t.update i (·.closeBlock)).program i = (t.program i).closeBlock :=
    State.program_update_self (hi.trans_le hlen)
  have hin := h.hands i (State.length_update (s := s) ▸ hi)
  have hdepth : (t.program i).nested.length = (s.program i).nested.length + 1 := by
    rw [hin.depth, State.program_update_self hi]
    rfl
  have hne : (t.program i).nested ≠ [] := ne_nil_of_length_eq_add_one hdepth
  have hhands : Hands s (t.update i (·.closeBlock)) i (Stmt.allDeclarations (t.program i).innermost) := by
    refine ⟨?_, fun hand hr => ?_⟩
    · rw [hself, Program.closeBlock, length_tail, hdepth, Nat.add_sub_cancel]
    · have hopen : ((s.update i (·.openBlock)).program i).Reachable hand :=
        State.program_update_self (s := s) hi ▸ hr.openBlock
      obtain ⟨more, hm⟩ := hin.reach hand hopen
      exact ⟨more, by rw [hself, ← zero_add (more + hand)]; exact .closeBlock hne hm⟩
  refine ⟨.update (h.sound.update fun _ hr => ⟨_, .closeBlock hne hr⟩) hlen hhands.mono fun j hj hij => ?_, hhands⟩
  exact (h.hands j (State.length_update (s := s) ▸ hj)).congr (State.program_update_of_ne hij).symm rfl

/-! ### Scripts -/

theorem reachable_prepends {hand : Multiset String} : ∀ {sts : List Stmt} {p : Program},
    Stmt.allDeclarations sts = [] → p.Reachable hand → (sts.foldl Program.prepend p).Reachable hand
  | [], _, _, hr => hr
  | st :: sts, p, h, hr => by
    rw [Stmt.allDeclarations, append_eq_nil_iff] at h
    rw [foldl_cons]
    exact reachable_prepends h.2 (hr.prepend_of_nil h.1)

theorem nested_prepends : ∀ (sts : List Stmt) (p : Program), (sts.foldl Program.prepend p).nested = p.nested
  | [], _ => rfl
  | _ :: sts, p => nested_prepends sts (p.prepend _)

section moves
variable {K : Part → Prop}

theorem Edits.reachable {p q : Program} (h : Edits K True p q) :
    q.nested.length = p.nested.length ∧ ∀ hand, p.Reachable hand → q.Reachable hand := by
  cases h with
  | add h => exact ⟨length_nested_add .., fun _ hr => hr.add_of_nil h⟩
  | declare _ _ h => exact ⟨length_nested_declare? h, fun _ hr => hr.declare h⟩
  | markDeclared v => exact ⟨rfl, fun _ hr => hr.markDeclared v⟩
  | addPending v => exact ⟨congrArg length (nested_addPending p v), fun _ hr => hr.addPending v⟩
  | prepends _ h => exact ⟨congrArg length (nested_prepends _ p), fun _ hr => reachable_prepends (h trivial) hr⟩
  | addGate x => exact ⟨rfl, fun _ hr => hr.addGate x⟩
  | addSubroutine x => exact ⟨rfl, fun _ hr => hr.addSubroutine x⟩
  | addCalibration x => exact ⟨rfl, fun _ hr => hr.addCalibration x⟩
  | enablePulse => exact ⟨rfl, fun _ hr => hr.enablePulse⟩

theorem Sound.openBlock (h : Sound s) : Sound (s.update i (·.openBlock)) := h.update fun hand hr => ⟨hand, hr.openBlock⟩

theorem Moves.advances (h : Moves K True s t) (hs : Sound s) : Advances s t := by
  induction h with
  | still hp hc => exact .of_eq hs hp hc
  | edit hi h => exact hs.advances_update hi h.reachable.1 h.reachable.2
  | block hi _ ih => exact ((ih hs.openBlock).close hi).1
  | enclose hi _ hst ih =>
    obtain ⟨hadv, hhands⟩ := (ih hs.openBlock).close hi
    exact hadv.addTo hs hi (hst ▸ hhands)
  | branch hi _ _ ih ih' =>
    obtain ⟨hadv, hhands⟩ := (ih hs.openBlock).close hi
    obtain ⟨hadv', hhands'⟩ := (ih' hadv.sound.openBlock).close (hi.trans_le hadv.length_le)
    refine (hadv.trans hadv').addTo hs hi ?_
    rw [Stmt.declarations, ← Multiset.coe_add]
    exact hhands.trans hhands'
  | copy => exact hs.advances_copy
  | use hi => exact hs.advances_use hi
  | trans _ _ ih ih' => exact (ih hs).trans (ih' (ih hs).sound)

end moves

theorem sound_start {steps : List Step} (h : Plain steps) : Sound (start steps).2 := by
  have hempty : Sound {} := by
    refine ⟨Nat.one_pos, fun i hi => ⟨0, ?_⟩⟩
    obtain rfl : i = 0 := Nat.lt_one_iff.1 hi
    exact .empty
  have hmoves : Moves (fun _ => True) True {} (start steps).2 :=
    goes_runWithin (fun _ _ => trivial) (fun _ => h) {} Nat.one_pos
  exact (hmoves.advances hempty).sound

theorem reachable_of_mem_start {steps : List Step} (h : Plain steps) {p : Program}
    (hp : p ∈ (start steps).2.programs) : ∃ hand, p.Reachable hand := by
  obtain ⟨i, hi, rfl⟩ := mem_iff_getElem.1 hp
  have := (sound_start h).reachable i hi
  rwa [State.program, getD_eq_getElem?_getD, getElem?_eq_getElem hi] at this

/-- However operations made a program, what waits for its declaration waits once and is not declared, a
name is found just when it is used, definitions have distinct names, and no name has two declarations:
not in hand, in the blocks and among what waits together, and so not in the body that is written. The
programs of a workbench are made that way. -/
theorem declared_once :
    (∀ {p : Program} {hand : Multiset String}, p.Reachable hand →
      (p.pending.map (·.name)).Nodup ∧
      (∀ v ∈ p.pending, p.isDeclared v.name = false) ∧
      (∀ name, (p.lookup? name).isSome = p.isUsed name) ∧
      (∀ name v, p.lookup? name = some v → v.name = name) ∧
      (p.gates.map (·.name)).Nodup ∧
      (p.subroutines.map (·.name)).Nodup ∧
      (∀ name, hand.count name + p.declarations.count name + (p.pending.map (·.name)).count name ≤ 1) ∧
      ∀ name, (Stmt.allDeclarations p.body).count name ≤ 1) ∧
    ∀ {steps : List Step}, Plain steps → ∀ p ∈ (start steps).2.programs, ∃ hand, p.Reachable hand := by
  refine ⟨fun {p hand} hr => ?_, fun h p hp => reachable_of_mem_start h hp⟩
  have h := hr.tables
  refine ⟨?_, h.apart, p.isSome_lookup?, fun _ _ => Program.name_of_lookup?, h.gates, h.subroutines,
    h.count_le_one, h.count_body_le_one⟩
  exact Multiset.coe_nodup.1 (Multiset.nodup_of_le (Multiset.le_add_left _ _) h.once)

/-- A block that fails after a declaration, a loop over a declared name, a declaration of a name that
waits, a copy taken inside of a block, and a pragma in front. -/
def crowdedScript : List Step :=
  let int (name : String) : VarSpec := { name := name, ty := some Ty.int }
  [.mk (.declare (int "x")) false,
    .mk (.block [.mk (.declare (int "y")) false, .mk (.fail "stop") false]) true,
    .mk (.addPending (int "z")) false,
    .mk (.loop (.const (.bool true)) [.mk (.declare (int "z")) false, .mk .copy false]) false,
    .mk (.declare (int "y")) true,
    .mk (.addPending (int "w")) false,
    .mk (.prepend [.mk (.pragma "first") false]) false]

theorem plain_crowdedScript : Plain crowdedScript := by
  refine ⟨trivial, ⟨trivial, trivial, trivial⟩, trivial, ⟨trivial, trivial, trivial⟩, trivial, trivial, ?_, trivial⟩
  rintro (_ | height) s sts t h
  · cases h
    rfl
  · cases h
    rfl

theorem declared_once_crowded :
    Plain crowdedScript ∧
    (start crowdedScript).2.programs.map (fun p => Stmt.allDeclarations p.body) = [["x", "z"], ["w", "x"]] ∧
    (start crowdedScript).2.program 1 ∈ (start crowdedScript).2.programs ∧
    ((start crowdedScript).2.program 1).isUsed "y" = true ∧
    (((start crowdedScript).2.program 1).lookup? "y").isSome = true ∧
    (Stmt.allDeclarations ((start crowdedScript).2.program 1).body).count "x" ≤ 1 := by
  have hmem : (start crowdedScript).2.program 1 ∈ (start crowdedScript).2.programs :=
    State.program_mem (by decide +kernel)
  have hused : ((start crowdedScript).2.program 1).isUsed "y" = true := by decide +kernel
  obtain ⟨hand, hr⟩ := declared_once.2 plain_crowdedScript _ hmem
  obtain ⟨-, -, hlookup, -, -, -, -, hbody⟩ := declared_once.1 hr
  exact ⟨plain_crowdedScript, by decide +kernel, hmem, hused, (hlookup "y").trans hused, hbody "x"⟩

/-- Statements of another program may declare what is declared here: a branch with a declaration inside
of it, put in front, is no declaration itself, and the body declares the name twice. -/
theorem declared_twice_by_prepended :
    let script : List Step :=
      [.mk (.declare { name := "x", ty := some Ty.int }) false,
        .mk (.prepend [.mk (.branch (.const (.bool true))
          [.mk (.declare { name := "x", ty := some Ty.int }) false] none) false]) false]
    let p := (start script).2.program 0
    p.top.map Stmt.declares = [[], ["x"]] ∧ (Stmt.allDeclarations p.body).count "x" = 2 := by
  decide +kernel

end QasmStudio.Workbench

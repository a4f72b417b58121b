import QasmStudio.Proofs.Convert.Additions
import QasmStudio.Proofs.Convert.DefinitionBodies

/-!
# Verbatim boxes

A box of verbatim code is announced by a pragma, the statement right before it. Where a box may be opened
depends on the context alone: not inside of another one, not on top of the root, and on devices that
accept the pragma. That is a rule about what is written (`Discipline.boxRule`): whatever a stretch of a
build adds has a box only if a box may be opened where the stretch begins. Definitions are written where
none may be opened, and so is the inside of a box.
-/

namespace QasmStudio

open List

variable {c : Context} {st : Stmt}

/-! ### Boxes of a statement -/

namespace Stmt

def isBox : Stmt → Bool
  | .box _ => true
  | _ => false

def announces : Stmt → Bool
  | .pragma text => text == "braket verbatim"
  | _ => false

mutual
def hasBox : Stmt → Bool
  | .box _ => true
  | .branch _ thn els => haveBox thn || haveBox els
  | .forIn _ _ body | .while _ body => haveBox body
  | _ => false

def haveBox : List Stmt → Bool
  | [] => false
  | st :: sts => st.hasBox || haveBox sts
end

mutual
/-- Inside of the statement, boxes are announced and hold no boxes. -/
def isPlaced : Stmt → Bool
  | .box body => !haveBox body
  | .branch _ thn els => placed false thn && placed false els
  | .forIn _ _ body | .while _ body => placed false body
  | _ => true

/-- Each box comes right after its pragma, the first statement only if it is `announced`, and so in all
bodies. No box holds another. -/
def placed (announced : Bool) : List Stmt → Bool
  | [] => true
  | st :: sts => (announced || !st.isBox) && st.isPlaced && placed st.announces sts
end

theorem haveBox_append (xs ys : List Stmt) : haveBox (xs ++ ys) = (haveBox xs || haveBox ys) := by
  induction xs with
  | nil => rfl
  | cons st xs ih => simp [haveBox, ih, Bool.or_assoc]

theorem haveBox_eq_false {sts : List Stmt} : haveBox sts = false ↔ ∀ st ∈ sts, st.hasBox = false := by
  induction sts with
  | nil => simp [haveBox]
  | cons st sts ih => simp [haveBox, ih]

theorem placed_of_false {b : Bool} {sts : List Stmt} (h : placed false sts = true) : placed b sts = true := by
  cases sts with
  | nil => rfl
  | cons st sts =>
    simp only [placed, Bool.and_eq_true, Bool.or_eq_true] at h ⊢
    exact ⟨⟨h.1.1.imp_left fun hf => absurd hf Bool.false_ne_true, h.1.2⟩, h.2⟩

theorem placed_append {b : Bool} {xs ys : List Stmt} (hx : placed b xs = true) (hy : placed false ys = true) :
    placed b (xs ++ ys) = true := by
  induction xs generalizing b with
  | nil => exact placed_of_false hy
  | cons st xs ih =>
    simp only [cons_append, placed, Bool.and_eq_true] at hx ⊢
    exact ⟨hx.1, ih hx.2⟩

theorem hasBox_of_callsOn {qubits : List Var} (h : st.CallsOn qubits) : st.hasBox = false := by
  cases st with
  | gate => rfl
  | _ => exact h.elim

theorem hasBox_of_isPulse (h : st.IsPulse) : st.hasBox = false := by
  cases st with
  | delay | eval => rfl
  | _ => exact h.elim

end Stmt

theorem Discipline.Emits.hasBox {d : Discipline} (h : d.Emits c st) :
    st.hasBox = false ∧ Stmt.placed false [st] = true := by
  cases h <;> exact ⟨rfl, rfl⟩

theorem Convert.verbatimRefusal?_congr {c' : Context} (hv : c'.verbatim = c.verbatim)
    (hs : c'.stackSize = c.stackSize) (hc : c'.config = c.config) :
    verbatimRefusal? c' = verbatimRefusal? c := by
  have hinner : c'.inner = [] ↔ c.inner = [] := by
    simp only [Context.stackSize] at hs
    rw [← length_eq_zero_iff, ← length_eq_zero_iff]
    omega
  simp only [verbatimRefusal?, hv, hc, ne_eq, hinner]

theorem Convert.supports_of_refusal (h : verbatimRefusal? c = none) :
    c.config.device.name = "" ∨ "verbatim" ∈ c.config.device.pragmas := by
  simp only [verbatimRefusal?] at h
  split_ifs at h with _ _ hs
  simpa [Device.supports, verbatimPragma] using hs

theorem Convert.inner_of_refusal (h : verbatimRefusal? c = none) : c.inner = [] := by
  simp only [verbatimRefusal?] at h
  split_ifs at h with _ hi
  simpa using hi

/-! ### What a stretch adds -/

namespace Context
variable {sts : List Stmt}

/-- The statements may be added where the build is. -/
def Takes (c : Context) (sts : List Stmt) : Prop :=
  Stmt.placed false sts = true ∧ (Stmt.haveBox sts = true → Convert.verbatimRefusal? c = none)

theorem takes_nil (c : Context) : c.Takes [] := ⟨rfl, fun h => absurd h Bool.false_ne_true⟩

theorem takes_single (hp : st.isPlaced = true) (hb : st.isBox = false)
    (h : st.hasBox = true → Convert.verbatimRefusal? c = none) : c.Takes [st] := by
  refine ⟨?_, fun hst => h ?_⟩
  · simp [Stmt.placed, hp, hb]
  · simpa [Stmt.haveBox] using hst

theorem Takes.append {new : List Stmt} (h : c.Takes sts) (hn : c.Takes new) : c.Takes (sts ++ new) := by
  refine ⟨Stmt.placed_append h.1 hn.1, fun hb => ?_⟩
  rw [Stmt.haveBox_append, Bool.or_eq_true] at hb
  exact hb.elim h.2 hn.2

end Context

open Context

/-- Boxes are written where they may be opened, with their pragma, and nothing else brings one along. -/
def Discipline.boxRule (d : Discipline) : Rule d where
  admits := Takes
  defines x := Stmt.haveBox x.body = false
  congr _ _ hv hf _ hs := by
    funext sts
    rw [Takes, Takes, Convert.verbatimRefusal?_congr hv hs hf]
  nil := takes_nil
  append := Takes.append
  emits h := by
    refine ⟨h.hasBox.2, fun hb => ?_⟩
    simp [Stmt.haveBox, h.hasBox.1] at hb
  declares _ _ := takes_single rfl rfl fun h => absurd h Bool.false_ne_true
  nests _ hn hbs := by
    cases hn with
    | branch =>
      have hthn := hbs _ (mem_cons_self ..)
      have hels := hbs _ (mem_cons_of_mem _ (mem_singleton.2 rfl))
      refine takes_single (by simp [Stmt.isPlaced, hthn.1, hels.1]) rfl fun hb => ?_
      simp only [Stmt.hasBox, Bool.or_eq_true] at hb
      exact hb.elim hthn.2 hels.2
    | forIn | «while» =>
      have hbody := hbs _ (mem_singleton.2 rfl)
      exact takes_single hbody.1 rfl hbody.2
  boxes _ hv h := by
    -- a box is open already, so none is opened inside of it
    have hnone := Bool.eq_false_iff.2 fun hb => absurd (Convert.verbatim_of_refusal (h.2 hb)) nofun
    exact ⟨by simp [Stmt.placed, Stmt.isPlaced, Stmt.isBox, Stmt.announces, hnone], fun _ => hv⟩
  stub stub := by
    unfold Stub.definition
    split <;> rfl
  routine _ h := Bool.eq_false_iff.2 fun hb => absurd (Convert.inner_of_refusal (h.2 hb)) nofun

/-! ### Boxes of a build -/

/-- The boxes of a body are in place, and if it has any, the device accepts them. -/
def Device.Accepts (device : Device) (sts : List Stmt) : Prop :=
  Stmt.placed false sts = true ∧
    (Stmt.haveBox sts = true → device.name = "" ∨ "verbatim" ∈ device.pragmas)

/-- The boxes of a build, in all blocks that are open: those at the root are in place, and elsewhere there
are none. -/
structure Context.Boxed (c : Context) : Prop where
  root : ∀ b ∈ c.root.blocks, c.config.device.Accepts b
  inner : ∀ p ∈ c.inner, ∀ b ∈ p.blocks, Stmt.haveBox b = false
  subroutines : ∀ p ∈ c.stack, ∀ d ∈ p.subroutines, Stmt.haveBox d.body = false
  gates : ∀ d ∈ c.root.gates, Stmt.haveBox d.body = false
  calibrations : ∀ d ∈ c.root.calibrations, Stmt.haveBox d.body = false

/-- The boxes of a program for the device are in place, and its definitions have none. -/
structure Program.Boxed (device : Device) (p : Program) : Prop where
  body : device.Accepts p.body
  subroutines : ∀ d ∈ p.subroutines, Stmt.haveBox d.body = false
  gates : ∀ d ∈ p.gates, Stmt.haveBox d.body = false
  calibrations : ∀ d ∈ p.calibrations, Stmt.haveBox d.body = false

theorem Device.Accepts.append {device : Device} {xs ys : List Stmt} (hx : device.Accepts xs)
    (hy : device.Accepts ys) : device.Accepts (xs ++ ys) := by
  refine ⟨Stmt.placed_append hx.1 hy.1, fun hb => ?_⟩
  rw [Stmt.haveBox_append, Bool.or_eq_true] at hb
  exact hb.elim hx.2 hy.2

theorem Device.accepts_declarations (device : Device) (vs : List Var) : device.Accepts (vs.map .declare) := by
  induction vs with
  | nil => exact ⟨rfl, fun h => absurd h Bool.false_ne_true⟩
  | cons v vs ih => exact ih

theorem GateDef.IsUnitary.haveBox {g : GateDef} (h : g.IsUnitary) : Stmt.haveBox g.body = false :=
  Stmt.haveBox_eq_false.2 fun st hst => Stmt.hasBox_of_callsOn (h st hst)

theorem Program.forall_blocks {p q : Program} {new : List Stmt} {P : List Stmt → Prop}
    (hq : q.blocks = (p.innermost ++ new) :: p.blocks.tail) (hp : ∀ b ∈ p.blocks, P b)
    (hnew : ∀ b, P b → P (b ++ new)) : ∀ b ∈ q.blocks, P b := by
  rw [blocks_eq p] at hp
  intro b hb
  rw [hq] at hb
  rcases mem_cons.1 hb with rfl | hb
  · exact hnew _ (hp _ (mem_cons_self ..))
  · exact hp b (mem_cons_of_mem _ hb)

theorem Context.Advance.inner {c' : Context} {p : Program} {ps : List Program} (h : c.Advance c')
    (hi : c.inner = p :: ps) :
    ∃ q qs, c'.inner = q :: qs ∧ Forall₂ Program.Rests ps qs ∧ c.root.Rests c'.root := by
  have hsize := h.stackSize
  have hbelow := h.below
  cases hi' : c'.inner with
  | nil => simp [Context.stackSize, hi, hi'] at hsize
  | cons q qs =>
    simp only [Context.stackSize, hi, hi', length_cons, Nat.add_right_cancel_iff] at hsize
    simp only [Context.stack, hi, hi', cons_append, tail_cons] at hbelow
    have hps := forall₂_take_append _ _ _ hbelow
    have hroot := forall₂_drop_append _ _ _ hbelow
    rw [hsize, take_left] at hps
    rw [hsize, drop_left] at hroot
    exact ⟨q, qs, rfl, hps, (forall₂_cons.1 hroot).1⟩

namespace Context.Boxed
variable {d : Discipline} {c' : Context}

theorem of_empty (hr : c.root = {}) (hi : c.inner = []) : c.Boxed := by
  refine ⟨?_, ?_, ?_, ?_, ?_⟩ <;>
    simp [hr, hi, stack, Program.blocks, Device.Accepts, Stmt.placed, Stmt.haveBox]

theorem writes (h : c.Boxed) (hw : Writes d c c') : c'.Boxed := by
  have hadv := hw.advance
  obtain ⟨new, htakes, hblocks⟩ := (hw.adds d.boxRule).current
  have hsubroutines := (hw.adds d.boxRule).subroutines h.subroutines
  have hgates : ∀ d ∈ c'.root.gates, Stmt.haveBox d.body = false := by
    obtain ⟨more, hmore, hunitary⟩ := hadv.defined
    intro g hg
    rw [hmore] at hg
    exact (mem_append.1 hg).elim (h.gates g) fun hg => (hunitary g hg).haveBox
  -- the stretch writes to the root, or to a program on top where it may open no box
  cases hi : c.inner with
  | nil =>
    have hi' : c'.inner = [] := by
      have hsize := hadv.stackSize
      simpa [stackSize, hi] using hsize
    have hcur : c.current = c.root := by simp [current, hi]
    have hcur' : c'.current = c'.root := by simp [current, hi']
    have hkept := hadv.current.kept.calibrations
    rw [hcur, hcur'] at hblocks hkept
    refine ⟨?_, by simp [hi'], hsubroutines, hgates, hkept ▸ h.calibrations⟩
    rw [hadv.config]
    exact Program.forall_blocks hblocks h.root fun b hb =>
      hb.append ⟨htakes.1, fun hbox => Convert.supports_of_refusal (htakes.2 hbox)⟩
  | cons p ps =>
    obtain ⟨q, qs, hi', hrests, hroot⟩ := hadv.inner hi
    have hcur : c.current = p := by simp [current, hi]
    have hcur' : c'.current = q := by simp [current, hi']
    have hinner := h.inner
    rw [hcur, hcur'] at hblocks
    rw [hi] at hinner
    have hnone : Stmt.haveBox new = false := by
      rw [Bool.eq_false_iff]
      intro hbox
      simpa [hi] using Convert.inner_of_refusal (htakes.2 hbox)
    refine ⟨?_, ?_, hsubroutines, hgates, hroot.kept.calibrations ▸ h.calibrations⟩
    · rw [hroot.blocks, hadv.config]
      exact h.root
    · rw [hi']
      intro x hx
      rcases mem_cons.1 hx with rfl | hx
      · refine Program.forall_blocks hblocks (hinner p (mem_cons_self ..)) fun b hb => ?_
        rw [Stmt.haveBox_append, hb, hnone]
        rfl
      · obtain ⟨y, hy, hyx⟩ := exists_of_forall₂ hrests x hx
        rw [hyx.blocks]
        exact hinner y (mem_cons_of_mem _ hy)

theorem enterProgram {p : Program} (h : c.Boxed) (hb : p.blocks = [[]]) (hs : p.subroutines = []) :
    (c.enterProgram p).Boxed := by
  refine ⟨h.root, ?_, AllSubroutines.enterProgram h.subroutines hs, h.gates, h.calibrations⟩
  intro q hq b hmem
  rcases mem_cons.1 hq with rfl | hq
  · rw [hb, mem_singleton] at hmem
    rw [hmem]
    rfl
  · exact h.inner q hq b hmem

theorem openBlock (h : c.Boxed) : c.openBlock.Boxed := by
  have hsubroutines : c.openBlock.AllSubroutines fun x => Stmt.haveBox x.body = false :=
    AllSubroutines.updateCurrent h.subroutines fun _ hd => .inl hd
  unfold Context.openBlock updateCurrent at hsubroutines ⊢
  cases hi : c.inner with
  | nil =>
    rw [hi] at hsubroutines
    refine ⟨fun b hb => ?_, by simp, hsubroutines, h.gates, h.calibrations⟩
    rcases mem_cons.1 hb with rfl | hb
    · exact c.config.device.accepts_declarations []
    · exact h.root b hb
  | cons p ps =>
    have hinner := h.inner
    rw [hi] at hsubroutines hinner
    refine ⟨h.root, fun q hq b hb => ?_, hsubroutines, h.gates, h.calibrations⟩
    rcases mem_cons.1 hq with rfl | hq
    · rcases mem_cons.1 hb with rfl | hb
      · rfl
      · exact hinner p (mem_cons_self ..) b hb
    · exact hinner q (mem_cons_of_mem _ hq) b hb

theorem enters (h : c.Boxed) (he : Enters d c c') : c'.Boxed := by
  cases he with
  | block => exact h.openBlock
  | program hb => exact h.enterProgram rfl rfl
  | @routine key r stub hb =>
    have hin := h.enterProgram r.blocks_blank.1 r.blocks_blank.2.2
    exact ⟨hin.root, hin.inner, hin.subroutines, hin.gates, hin.calibrations⟩
  | verbatim | gate | calibration => exact ⟨h.root, h.inner, h.subroutines, h.gates, h.calibrations⟩

theorem quiet (h : c.Boxed) : Quiet d Context.Boxed c := .of_preserved writes enters h

theorem result (h : c.Boxed) : c.result.program.Boxed c.config.device := by
  have hplain : ∀ d ∈ c.root.subroutines, Stmt.haveBox d.body = false := h.subroutines c.root (by simp [stack])
  have htop : c.config.device.Accepts c.root.top := h.root _ (by simp [Program.blocks])
  have hbody := (c.config.device.accepts_declarations c.root.pending).append htop
  rcases c.program_result with hp | hp
  · rw [hp]
    exact ⟨hbody, hplain, h.gates, h.calibrations⟩
  · rw [hp]
    exact ⟨hbody, hplain, h.gates, h.calibrations⟩

theorem withRegister (h : c.Boxed) (n : Int) : (c.withRegister n).Boxed := by
  refine ⟨fun b hb => ?_, h.inner, AllSubroutines.updateRoot h.subroutines fun _ hd => .inl hd, h.gates, h.calibrations⟩
  rcases mem_append.1 hb with hb | hb
  · exact h.root b (mem_append_left _ hb)
  · cases mem_singleton.1 hb
    have htop : c.config.device.Accepts c.root.top := h.root _ (by simp [Program.blocks])
    exact (c.config.device.accepts_declarations [registerVar n]).append htop

end Context.Boxed

namespace Convert

/-- Boxes are in place at every moment of a build and in its result, whatever has been tried on the way;
and no calibration has a box in its body. -/
theorem verbatim_boxes :
    (∀ (lib : Library) (fuel : Nat) (r : Routine) (config : BuildConfig) (args : List Value) (s : State),
      s.finished.Boxed →
      Throughout lib fuel (fun _ t => t.ctx.Boxed ∧ t.finished.Boxed)
        (buildProgram · r config args) s ∧
      ∀ p s', buildProgram (run lib fuel) r config args s = (.ok p, s') → p.program.Boxed config.device) ∧
    ∀ (lib : Library) (fuel : Nat) (spec : CalibrationSpec) (s s' : State) (d : CalibrationDef),
      calibrateWith (run lib fuel) spec s = (.ok d, s') → Stmt.haveBox d.body = false := by
  have hstart : ∀ n config id, Quiet .free Context.Boxed (Context.start n config id) :=
    fun _ _ _ => (Context.Boxed.of_empty rfl rfl).quiet
  refine ⟨fun lib fuel r config args s hfin => ⟨throughout_of_quiet hstart hfin.quiet, fun p s' hp => ?_⟩,
    fun lib fuel spec s s' d hd => ?_⟩
  · obtain ⟨t, u, hw, hdecl, rfl⟩ := writes_of_build hp
    have ht : t.ctx.Boxed := .writes (.of_empty rfl rfl) hw
    have hconfig : t.ctx.config = config := hw.advance.config
    rcases declareRegister_ok hdecl with ⟨-, -, rfl⟩ | ⟨-, -, rfl⟩
    · exact hconfig ▸ ht.result
    · exact hconfig ▸ (ht.withRegister _).result
  · exact Stmt.haveBox_eq_false.2 fun st hst => Stmt.hasBox_of_isPulse (pulses_of_calibrate hd st hst)

/-- A subroutine that tries to open a box, and is called after a loop whose box holds an attempt at
another. -/
def boxLibrary : Library :=
  .ofRoutines [.subroutine "flip" [] none
    [.mk (.verbatim []) none true .own, .mk (.gate ⟨"x", 1, 0⟩ [.const (.int .word 1)]) none false .own]
    (.const .none)]

def boxMain : Routine :=
  .main "main"
    [.mk (.loopOver none (.const (.int .word 0)) (.const (.int .word 3)) none
      [.mk (.verbatim
        [.mk (.gate ⟨"h", 1, 0⟩ [.const (.int .word 0)]) none false .own,
         .mk (.verbatim []) none true .own]) none false .own]) none false .own,
     .mk (.call "flip" []) none false .own] []

theorem verbatim_boxes_loop :
    (∃ p s', buildProgram (run boxLibrary 4) boxMain {} [] {} = (.ok p, s') ∧
      Stmt.haveBox p.program.body = true ∧ p.program.subroutines.length = 1 ∧ p.program.Boxed {}) ∧
    ∃ d s', calibrate boxLibrary driveCalibration {} = (.ok d, s') ∧ Stmt.haveBox d.body = false := by
  have hbuild : ∃ p s', buildProgram (run boxLibrary 4) boxMain {} [] {} = (.ok p, s') ∧
      Stmt.haveBox p.program.body = true ∧ p.program.subroutines.length = 1 := ⟨_, _, rfl, by decide⟩
  have hcalibrate : ∃ d s', calibrate boxLibrary driveCalibration {} = (.ok d, s') := ⟨_, _, rfl⟩
  obtain ⟨p, s', hp, hbox, hlength⟩ := hbuild
  obtain ⟨d, t, hd⟩ := hcalibrate
  have hnone : ({} : State).finished.Boxed := .of_empty rfl rfl
  exact ⟨⟨p, s', hp, hbox, hlength, (verbatim_boxes.1 boxLibrary 4 boxMain {} [] {} hnone).2 p s' hp⟩,
    d, t, hd, verbatim_boxes.2 boxLibrary ampleFuel driveCalibration {} t d hd⟩

end Convert

end QasmStudio

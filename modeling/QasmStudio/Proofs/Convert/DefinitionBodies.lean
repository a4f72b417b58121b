import QasmStudio.Proofs.Convert.CalibrationQubits

/-!
# Bodies of definitions

A gate definition holds calls of gates on its own qubits, and a calibration holds operations on frames
and delays, whatever the bodies they were converted from contain: gates defined inside of gates, loops
and branches over data, errors that were caught half-way. The gates are in order at every moment of a
build, not only in its result.
-/

namespace QasmStudio

def Program.HasUnitaryGates (p : Program) : Prop := ∀ g ∈ p.gates, g.IsUnitary

/-- Gates that are defined on the way are unitary, so all are if those were that had been there. -/
theorem Quiet.unitary {d : Discipline} {c : Context} (h : c.root.HasUnitaryGates) :
    Quiet d (fun c => c.root.HasUnitaryGates) c := by
  intro t hp
  induction hp with
  | refl => exact h
  | tail _ hstep ih =>
    rcases hstep with hw | he
    · obtain ⟨new, hnew, hu⟩ := hw.advance.defined
      intro g hg
      rw [hnew] at hg
      exact (List.mem_append.1 hg).elim (ih g) (hu g)
    · unfold Program.HasUnitaryGates at ih ⊢
      cases he with
      | block => rwa [Context.openBlock, Context.gates_root_updateCurrent rfl]
      | _ => exact ih

namespace Convert

theorem quiet_start {d : Discipline} (n : Nat) (config : BuildConfig) (id : String) :
    Quiet d (fun c => c.root.HasUnitaryGates) (Context.start n config id) :=
  .unitary fun _ h => absurd h List.not_mem_nil

/-- At every moment of a build, and in its result, the gates defined call gates on their own qubits and
do nothing else; and a calibration holds operations on frames and delays alone. -/
theorem definition_bodies :
    (∀ (lib : Library) (fuel : Nat) (r : Routine) (config : BuildConfig) (args : List Value) (s : State),
      s.finished.root.HasUnitaryGates →
      Throughout lib fuel
        (fun _ t => t.ctx.root.HasUnitaryGates ∧ t.finished.root.HasUnitaryGates)
        (buildProgram · r config args) s ∧
      ∀ p s', buildProgram (run lib fuel) r config args s = (.ok p, s') → p.program.HasUnitaryGates) ∧
    ∀ (lib : Library) (fuel : Nat) (spec : CalibrationSpec) (s s' : State) (d : CalibrationDef),
      calibrateWith (run lib fuel) spec s = (.ok d, s') → ∀ st ∈ d.body, st.IsPulse := by
  refine ⟨fun lib fuel r config args s hfin => ⟨throughout_of_quiet quiet_start (.unitary hfin), fun p s' hp => ?_⟩,
    fun lib fuel spec s s' d hd => pulses_of_calibrate hd⟩
  obtain ⟨t, u, hw, hdecl, rfl⟩ := writes_of_build hp
  have ht : t.ctx.root.HasUnitaryGates := ((quiet_start _ _ _).writes hw).here
  have hu : u.ctx.root.gates = t.ctx.root.gates := by
    rcases declareRegister_ok hdecl with ⟨-, -, rfl⟩ | ⟨-, -, rfl⟩ <;> rfl
  have hres : u.ctx.result.program.gates = u.ctx.root.gates := by
    unfold Context.result
    cases u.ctx.pulse <;> rfl
  intro g hg
  rw [hres, hu] at hg
  exact ht g hg

/-- A gate that calls another one, which is defined in the middle of the first. -/
def pairLibrary : Library :=
  .ofRoutines
    [.gate "flip" [⟨"a", some (.qubit 0)⟩] [.mk (.gate ⟨"x", 1, 0⟩ [.arg 0]) none false .own],
     .gate "pair" [⟨"a", some (.qubit 0)⟩, ⟨"b", some (.qubit 0)⟩]
       [.mk (.gate ⟨"h", 1, 0⟩ [.arg 0]) none false .own, .mk (.call "flip" [.arg 1]) none false .own]]

def pairMain : Routine :=
  .main "main" [.mk (.call "pair" [.const (.int .word 0), .const (.int .word 1)]) none false .own] []

def driveCalibration : CalibrationSpec where
  gate := "x"
  qubits := [.const (.string "$0")]
  angles := []
  body := [.mk (.play "drive" "gaussian") none false .own,
    .mk (.delay 10 [.const (.string "$0")]) none false .own]

theorem definition_bodies_pair :
    (∃ p s', buildProgram (run pairLibrary 4) pairMain {} [] {} = (.ok p, s') ∧
      p.program.gates.map (·.name) = ["flip", "pair"] ∧ p.program.HasUnitaryGates) ∧
    ∃ d s', calibrate pairLibrary driveCalibration {} = (.ok d, s') ∧ d.body.length = 2 ∧
      ∀ st ∈ d.body, st.IsPulse := by
  have hbuild : ∃ p s', buildProgram (run pairLibrary 4) pairMain {} [] {} = (.ok p, s') ∧
      p.program.gates.map (·.name) = ["flip", "pair"] := ⟨_, _, rfl, by decide⟩
  have hcalibrate : ∃ d s', calibrate pairLibrary driveCalibration {} = (.ok d, s') ∧
      d.body.length = 2 := ⟨_, _, rfl, by decide⟩
  obtain ⟨p, s', hp, hgates⟩ := hbuild
  obtain ⟨d, t, hd, hlength⟩ := hcalibrate
  have hnone : ({} : State).finished.root.HasUnitaryGates := fun _ h => absurd h List.not_mem_nil
  exact ⟨⟨p, s', hp, hgates, (definition_bodies.1 pairLibrary 4 pairMain {} [] {} hnone).2 p s' hp⟩,
    d, t, hd, hlength, definition_bodies.2 pairLibrary ampleFuel driveCalibration {} t d hd⟩

end Convert

end QasmStudio

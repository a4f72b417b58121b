import QasmStudio.Proofs.Convert.Additions
import QasmStudio.Proofs.Convert.GateTable
import QasmStudio.Proofs.Lang.Scope

/-!
# Angles in gate definitions

A variable that stands as an angle in the body of a gate is one of the gate's own, at every moment of a
build and in its result. The check is made where the call is written and looks at an angle from outside:
a sum or product passes whatever variables are in it (`applyGate_binary`), so a gate can be defined with
the variables of its surroundings in its angles.
-/

namespace QasmStudio

/-- If the statement is a call of a gate, angles that are variables are named like some of the given
ones. -/
def Stmt.TurnsBy (angles : List Var) : Stmt → Prop
  | .gate _ args _ => ∀ name ty init, .var name ty init ∈ args → ∃ v ∈ angles, v.name = name
  | _ => True

def Stmt.angleNames : Stmt → List String
  | .gate _ args _ => Expr.allNames args
  | _ => []

/-- If the statement is a call of a gate, its angles are variables or have none in them. -/
def Stmt.HasPlainAngles : Stmt → Prop
  | .gate _ args _ => ∀ e ∈ args, (∃ name ty init, e = .var name ty init) ∨ e.names = []
  | _ => True

theorem Stmt.TurnsBy.exists_of_mem {angles : List Var} {st : Stmt} (h : st.TurnsBy angles)
    (hplain : st.HasPlainAngles) : ∀ name ∈ st.angleNames, ∃ v ∈ angles, v.name = name := by
  cases st with
  | gate _ args _ =>
    have hall : ∀ es : List Expr, (∀ e ∈ es, e ∈ args) → ∀ name ∈ Expr.allNames es, ∃ v ∈ angles, v.name = name := by
      intro es
      induction es with
      | nil => exact fun _ _ hname => absurd hname List.not_mem_nil
      | cons e es ih =>
        intro hes name hname
        obtain ⟨he, hes⟩ := List.forall_mem_cons.1 hes
        rcases List.mem_append.1 hname with hname | hname
        · rcases hplain e he with ⟨x, ty, init, rfl⟩ | hnone
          · rw [List.mem_singleton.1 hname]
            exact h x ty init he
          · rw [hnone] at hname
            cases hname
        · exact ih hes name hname
    exact hall args fun _ he => he
  | _ => exact fun _ hname => absurd hname List.not_mem_nil

/-- The angles in the body of the gate that are variables are its own. -/
def GateDef.TurnsByOwn (g : GateDef) : Prop := ∀ st ∈ g.body, st.TurnsBy g.angles

namespace Context
variable {c : Context} {r : GateRecord} {rs : List GateRecord} {qubits args : List Expr}

/-- Inside of a gate definition, operands pass if the qubits are its own, and the variables among the
angles. -/
theorem foreign?_eq_none_iff (hg : c.gates = r :: rs) :
    c.foreign? qubits args = none ↔ (∀ q ∈ qubits, r.hasQubit q = true) ∧
      ∀ name ty init, .var name ty init ∈ args → ∃ v ∈ GateParam.angles r.params, v.name = name := by
  have hangle : ∀ name, r.hasAngle name = true ↔ ∃ v ∈ GateParam.angles r.params, v.name = name := by
    simp [GateRecord.hasAngle]
  unfold foreign?
  simp only [hg]
  cases hq : qubits.find? (!r.hasQubit ·) with
  | some q =>
    have hforeign := List.find?_some hq
    simp only [reduceCtorEq, false_iff]
    rintro ⟨hall, -⟩
    simp [hall q (List.mem_of_find?_eq_some hq)] at hforeign
  | none =>
    have hall : ∀ q ∈ qubits, r.hasQubit q = true := by simpa using List.find?_eq_none.1 hq
    simp only [List.findSome?_eq_none_iff]
    constructor
    · refine fun h => ⟨hall, fun name ty init hmem => ?_⟩
      have hpass := h _ hmem
      rw [← hangle]
      simpa using hpass
    · rintro ⟨-, h⟩ e he
      cases e with
      | var name ty init => simp [(hangle name).2 (h name ty init he)]
      | _ => rfl

end Context

/-- A call of a gate is written only after its operands have been checked. -/
def Discipline.angleRule (d : Discipline) : Rule d :=
  .inDefinitions (fun c st => ∀ r rs, c.gates = r :: rs → st.TurnsBy (GateParam.angles r.params))
    (fun hg _ _ _ => by simp only [hg])
    (fun h r rs hg => by
      cases h with
      | gate hp hn ht ha hf => exact ((Context.foreign?_eq_none_iff hg).1 hf).2
      | _ => trivial)
    fun hg _ _ r rs hr => by rw [hg] at hr; cases hr

theorem Discipline.turnsByOwn_of_defines {d : Discipline} {g : GateDef} (h : d.angleRule.Defines g) :
    g.TurnsByOwn := by
  obtain ⟨c, r, rs, hg, hangles, -, hbody⟩ := h
  intro st hst
  rw [hangles]
  exact hbody st hst r rs hg

def Program.HasOwnAngles (p : Program) : Prop := ∀ g ∈ p.gates, g.TurnsByOwn

theorem Quiet.ownAngles {d : Discipline} {c : Context} (h : c.root.HasOwnAngles) :
    Quiet d (fun c => c.root.HasOwnAngles) c := by
  refine .of_preserved (fun ho hw g hg => ?_) (fun ho he => ?_) h
  · obtain ⟨new, hnew, hdefines⟩ := (hw.adds d.angleRule).defined
    rw [hnew] at hg
    exact (List.mem_append.1 hg).elim (ho g) fun hg => Discipline.turnsByOwn_of_defines (hdefines g hg)
  · unfold Program.HasOwnAngles
    rw [he.gates_root]
    exact ho

namespace Convert

theorem isNumeric_binary (op : Arithmetic) (l r : Expr) :
    ∃ t, (Expr.binary op.symbol l r).ty = some t ∧ t.isNumeric = true := by
  have hop : Expr.isComparison op.symbol = false := by cases op <;> rfl
  refine ⟨Expr.arithmeticType l.ty r.ty, ?_, ?_⟩
  · simp [Expr.ty, hop]
  · unfold Expr.arithmeticType
    split
    · rfl
    · split <;> rfl

theorem resolve_gateQubit {c : Context} {params : List GateParam} {q : Var}
    (hq : q ∈ GateParam.qubits params) : c.resolve (.expr q.expr) = .ok ⟨q.expr, none⟩ := by
  obtain ⟨p, hp, rfl⟩ := List.mem_map.1 hq
  cases p with
  | qubit name => rfl
  | angle name => simp [GateParam.isQubit] at hp

/-- An arithmetic expression passes for an angle of every gate, whatever is in it. -/
theorem applyGate_binary {s : State} {r : GateRecord} {rs : List GateRecord} {q : Var} (name : String)
    (op : Arithmetic) (x y : Expr) (ha : s.ctx.active = true) (hg : s.ctx.gates = r :: rs)
    (hc : s.ctx.calibrations = []) (hq : q ∈ GateParam.qubits r.params) :
    applyGate .own name [.expr q.expr] [.expr (.binary op.symbol x y)] s =
      (.ok (), { s with ctx := s.ctx.emit (.gate name [.binary op.symbol x y] [q.expr]) }) := by
  obtain ⟨t, hty, hnumeric⟩ := isNumeric_binary op x y
  have hrefusal : s.ctx.refusal? .unitary = none := by simp [Context.refusal?, hg, hc]
  have hresolve : resolveAll [.expr q.expr] s = (.ok [⟨q.expr, none⟩], s) := by
    simp [resolveAll, bind_apply, Context.resolveAll, resolve_gateQubit hq, liftDomain]
  have hangle : angleOperand (.expr (.binary op.symbol x y)) s = (.ok (.binary op.symbol x y), s) := by
    simp [angleOperand, Value.toFloat?, expression, Value.toExpr, bind_apply, hty, hnumeric]
  have hpass : s.ctx.foreign? [q.expr] [.binary op.symbol x y] = none := by
    refine (Context.foreign?_eq_none_iff hg).2 ⟨?_, ?_⟩
    · simpa [Var.expr, GateRecord.hasQubit] using ⟨q, hq, rfl⟩
    · intro n ty init hmem
      simp at hmem
  have hangles : [Value.expr (.binary op.symbol x y)].mapM angleOperand s = (.ok [.binary op.symbol x y], s) := by
    simp [bind_apply, hangle]
  rw [applyGate, bind_of_ok (requireActive_of_active ha _), bind_of_ok (allow_of_refusal hrefusal),
    bind_of_ok hresolve, bind_of_ok hangles, bind_of_ok (context_apply s)]
  simp only [List.map_cons, List.map_nil, hpass]
  rfl

/-- At every moment of a build, and in its result, angles in the body of a gate that are variables are its
own, so every variable in the angles of a call is, if they are variables or have none in them. An arithmetic
expression is an angle wherever a gate is defined, whatever variables are in it. -/
theorem gate_angles (lib : Library) (fuel : Nat) (r : Routine) (config : BuildConfig) (args : List Value)
    (s : State) (hfin : s.finished.root.HasOwnAngles) :
    Throughout lib fuel (fun _ t => t.ctx.root.HasOwnAngles ∧ t.finished.root.HasOwnAngles)
      (buildProgram · r config args) s ∧
    (∀ p s', buildProgram (run lib fuel) r config args s = (.ok p, s') → p.program.HasOwnAngles ∧
      ∀ g ∈ p.program.gates, ∀ st ∈ g.body, st.HasPlainAngles →
        ∀ name ∈ st.angleNames, ∃ v ∈ g.angles, v.name = name) ∧
    ∀ (t : State) (g : GateRecord) (gs : List GateRecord) (q : Var) (name : String) (op : Arithmetic)
      (x y : Expr), t.ctx.active = true → t.ctx.gates = g :: gs → t.ctx.calibrations = [] →
      q ∈ GateParam.qubits g.params →
      applyGate .own name [.expr q.expr] [.expr (.binary op.symbol x y)] t =
        (.ok (), { t with ctx := t.ctx.emit (.gate name [.binary op.symbol x y] [q.expr]) }) := by
  have hstart : ∀ {d : Discipline} (n : Nat) (config : BuildConfig) (id : String),
      Quiet d (fun c => c.root.HasOwnAngles) (Context.start n config id) := fun n config id =>
    .ownAngles fun _ h => absurd h List.not_mem_nil
  refine ⟨throughout_of_quiet hstart (.ownAngles hfin), fun p s' hp => ?_,
    fun t g gs q name op x y ha hg hc hq => applyGate_binary name op x y ha hg hc hq⟩
  have hown : p.program.HasOwnAngles := by
    obtain ⟨t, u, hw, hdecl, rfl⟩ := writes_of_build hp
    unfold Program.HasOwnAngles
    rw [gates_result hdecl]
    exact ((hstart _ _ _).writes hw).here
  exact ⟨hown, fun g hg st hst hplain => (hown g hg st hst).exists_of_mem hplain⟩

def twistLibrary : Library :=
  .ofRoutines
    [.gate "twist" [⟨"q", some (.qubit 0)⟩, ⟨"a", some .angle⟩]
      [.mk (.gate ⟨"rx", 1, 1⟩ [.arg 0, .arg 1]) none false .own,
       .mk (.arithmetic .mul (.const (.int .word 2)) (.arg 1)) (some "b") false .own,
       .mk (.gate ⟨"ry", 1, 1⟩ [.arg 0, .named "b"]) none false .own]]

def twistMain : Routine :=
  .main "main"
    [.mk (.call "twist" [.const (.int .word 0), .const (.expr (.var "phi" (some .angle) none))]) none false .own] []

theorem gate_angles_twist :
    (∃ p s', buildProgram (run twistLibrary 4) twistMain {} [] {} = (.ok p, s') ∧
      p.program.gates.map (fun g => (g.angles.map (·.name), g.body.map Stmt.angleNames)) =
        [(["a"], [["a"], ["a"]])] ∧ p.program.HasOwnAngles) ∧
    ∃ s : State, s.ctx.gates = [⟨"twist", [.qubit "q"]⟩] ∧
      applyGate .own "rx" [.expr (.var "q" (some (.qubit 0)) none)]
          [.expr (.binary "+" (.var "phi" (some .angle) none) (.int 1))] s =
        (.ok (), { s with ctx := s.ctx.emit (.gate "rx" [.binary "+" (.var "phi" (some .angle) none) (.int 1)]
          [.var "q" (some (.qubit 0)) none]) }) := by
  have hends : (buildProgram (run twistLibrary 4) twistMain {} [] {}).1.toOption.map
      (fun p => p.program.gates.map fun g => (g.angles.map (·.name), g.body.map Stmt.angleNames)) =
      some [(["a"], [["a"], ["a"]])] := by decide +kernel
  obtain ⟨p, s', hp, hgates⟩ := exists_of_toOption hends
  have hnone : ({} : State).finished.root.HasOwnAngles := fun _ h => absurd h List.not_mem_nil
  have htwist := gate_angles twistLibrary 4 twistMain {} [] {} hnone
  let inside : Context := (Context.start 1 {} "").enterGate ⟨"twist", [.qubit "q"]⟩
  have happly := htwist.2.2 { ctx := inside } ⟨"twist", [.qubit "q"]⟩ [] ⟨"q", some (.qubit 0), none⟩ "rx" .add
    (.var "phi" (some .angle) none) (.int 1) rfl rfl rfl (List.mem_singleton.2 rfl)
  exact ⟨⟨p, s', hp, hgates, (htwist.2.1 p s' hp).1⟩, { ctx := inside }, rfl, happly⟩

/-- A gate without angles that turns by a variable of its surroundings, plus one. -/
def tiltLibrary : Library :=
  .ofRoutines
    [.gate "tilt" [⟨"q", some (.qubit 0)⟩]
      [.mk (.arithmetic .add (.const (.expr (.var "theta" (some .angle) none))) (.const (.int .word 1))) (some "b")
        false .own,
       .mk (.gate ⟨"rx", 1, 1⟩ [.arg 0, .named "b"]) none false .own]]

def tiltMain : Routine := .main "main" [.mk (.call "tilt" [.const (.int .word 0)]) none false .own] []

theorem foreign_angle_in_gate :
    ∃ p s', buildProgram (run tiltLibrary 4) tiltMain {} [] {} = (.ok p, s') ∧
      ∃ g ∈ p.program.gates, g.angles = [] ∧ ∃ st ∈ g.body, "theta" ∈ st.angleNames := by
  have hends : (buildProgram (run tiltLibrary 4) tiltMain {} [] {}).1.toOption.map
      (fun p => p.program.gates.any fun g =>
        g.angles.isEmpty && g.body.any fun st => st.angleNames.contains "theta") = some true := by decide +kernel
  obtain ⟨p, s', hp, hgates⟩ := exists_of_toOption hends
  refine ⟨p, s', hp, ?_⟩
  simpa [List.any_eq_true] using hgates

end Convert

end QasmStudio

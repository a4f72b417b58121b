import QasmStudio.Proofs.Convert.CallFrame
import QasmStudio.Proofs.Convert.GateTable

/-!
# Where definitions come from

Whether a routine is in conversion is asked of the routine itself, by its number. Whether it has been
defined is asked of a table, by its name. So of two routines that share a name one has a definition, the
one whose body was over first, and a call of the other one means that definition all the same. What is
in the tables is always the work of some routine of that name, and a routine that shares its name with no
other of its kind has its own definition or none.
-/

namespace QasmStudio

namespace Routine

/-- The definition has the parameters of the subroutine and its type, and the body that the body of the
subroutine leaves in a program of its own. -/
structure Defines (r : Routine) (lib : Library) (x : SubroutineDef) : Prop where
  kind : r.kind ≠ .gate
  name : x.name = r.name
  params : x.params = r.locals
  returns : x.returns = r.returns
  body : ∃ fuel, Convert.Completes (Convert.run lib fuel) r x

/-- The definition has the qubits and the angles of the gate in their order, and the body that the body
of the gate leaves in a block of its own. -/
structure DefinesGate (r : Routine) (lib : Library) (x : GateDef) : Prop where
  kind : r.kind = .gate
  name : x.name = r.name
  qubits : x.qubits = (r.params.filter Convert.Param.isQubit).map fun p => (GateParam.qubit p.name).var
  angles : x.angles = (r.params.filter fun p => !Convert.Param.isQubit p).map fun p =>
    (GateParam.angle p.name).var
  body : ∃ fuel, Convert.CompletesGate (Convert.run lib fuel) r x

end Routine

/-- Routines of the same kind and name, where gates are of one kind and all others of another, are the
same. -/
def Library.Distinguishes (lib : Library) (f : Routine) : Prop :=
  ∀ key g, lib.Holds key g → (g.kind = .gate ↔ f.kind = .gate) → g.name = f.name → g = f

/-- The name of the routine has a definition at the root, or it is that of a subroutine in conversion. -/
def Library.Settles (lib : Library) (f : Routine) (c : Context) : Prop :=
  (f.kind = .gate → ∃ x ∈ c.root.gates, x.name = f.name) ∧
  (f.kind ≠ .gate → (∃ x ∈ c.root.subroutines, x.name = f.name) ∨
    ∃ key stub g, (key, stub) ∈ c.converting ∧ lib.Holds key g ∧ g.name = f.name)

def Action.opened? : Action → Option String
  | .gateDef n _ _ => some n
  | _ => none

@[simp] theorem GateParam.isQubit_qubit (name : String) : (GateParam.qubit name).isQubit = true := rfl

@[simp] theorem GateParam.isQubit_angle (name : String) : (GateParam.angle name).isQubit = false := rfl

namespace Convert
variable {lib : Library} {fuel : Nat} {r f : Routine}

theorem gateParams_ok {ps : List Param} {qs : List GateParam} (h : ps.mapM (gateParam r) = .ok qs) :
    GateParam.qubits qs = (ps.filter Param.isQubit).map (fun p => (GateParam.qubit p.name).var) ∧
      GateParam.angles qs = (ps.filter fun p => !Param.isQubit p).map fun p => (GateParam.angle p.name).var := by
  have hall := forall₂_of_mapM h
  clear h
  induction hall with
  | nil => exact ⟨rfl, rfl⟩
  | @cons p q ps qs hp _ ih =>
    obtain ⟨hqubits, hangles⟩ := ih
    unfold GateParam.qubits GateParam.angles at *
    rw [gateParam_ok hp]
    cases hk : Param.isQubit p <;> simp [List.filter_cons, hk, hqubits, hangles]

theorem Completes.defines {x : SubroutineDef} (hk : f.kind ≠ .gate) (h : Completes (run lib fuel) f x) :
    f.Defines lib x := by
  refine ⟨hk, ?_, ?_, ?_, fuel, h⟩ <;> obtain ⟨s, -, v, t, u, -, -, rfl⟩ := h <;> rfl

theorem CompletesGate.definesGate {x : GateDef} (hk : f.kind = .gate)
    (h : CompletesGate (run lib fuel) f x) : f.DefinesGate lib x := by
  refine ⟨hk, ?_, ?_, ?_, fuel, h⟩ <;> obtain ⟨params, s, v, t, hparams, -, -, -, -, rfl⟩ := h
  · rfl
  · exact (gateParams_ok hparams).1
  · exact (gateParams_ok hparams).2

/-- Routines and definitions come from the library, but for gates of the given names. -/
def originPolicy (lib : Library) (H : String → Prop) : Policy where
  routine := lib.Holds
  defines _ x := ∃ key g, lib.Holds key g ∧ g.Defines lib x
  definesGate x := H x.name ∨ ∃ key g, lib.Holds key g ∧ g.DefinesGate lib x
  lost := Policy.lost_default

theorem allows_originPolicy {H : String → Prop} {runs : Nat → Runner} {e : Stop}
    {he : ∀ x, Stop.error x ≠ e} {o : Option Step} {t : State}
    (h : ∀ st ∈ o, ∀ n ∈ st.action.opened?, H n) :
    Allows ((originPolicy lib H).excusing (fun _ => trivial) e he).discipline lib runs o t := by
  refine allows_of_within ?_
  rintro ⟨action, target, guarded, handle⟩ hst
  have hopened := h _ hst
  cases action with
  | gateDef n params body =>
    intro x hx
    exact .inl (hx ▸ hopened n rfl)
  | leaveRoutine o => exact fun _ _ _ _ _ => .inl trivial
  | _ => trivial

section build
variable {config : BuildConfig} {args : List Value} {s s' : State} {p : BuiltProgram}

/-- Every definition in the result is what a routine of the library left, or a gate that was opened by
hand. -/
theorem origins {H : String → Prop} (h : Throughout lib fuel (fun o _ => ∀ st ∈ o, ∀ n ∈ st.action.opened?, H n)
      (buildProgram · r config args) s)
    (hp : buildProgram (run lib fuel) r config args s = (.ok p, s')) :
    (∀ x ∈ p.program.subroutines, ∃ key g, lib.Holds key g ∧ g.Defines lib x) ∧
      ∀ x ∈ p.program.gates, H x.name ∨ ∃ key g, lib.Holds key g ∧ g.DefinesGate lib x := by
  obtain ⟨t, u, hw, hdecl, rfl⟩ := h.writes
    (π := (originPolicy lib H).excusing (fun _ => trivial) .exhausted error_ne_exhausted)
    (fun _ _ _ hr => Library.holds_of_find? hr)
    (fun n key g x s hg hk _ hx => ⟨key, g, hg, Completes.defines hk ⟨s, hx⟩⟩) rfl
    (fun o t ho => allows_originPolicy ho) hp fun n key g x hg hk hx => .inr ⟨key, g, hg, hx.definesGate hk⟩
  rw [subroutines_result hdecl, gates_result hdecl]
  constructor
  · exact (hw.orderly (Context.orderly_start _ _ _ _)).subroutines
  · exact hw.fills.table.definesGate fun g hg => absurd hg List.not_mem_nil

theorem settles_of_call {key : Nat} {vs : List Value} {v : Value} {t t' : State}
    (hact : t.ctx.active = true) (hf : lib.Holds key f)
    (hcall : call (run lib fuel) .own key f vs t = (.ok v, t')) : lib.Settles f t'.ctx := by
  obtain ⟨⟨hgate, hknows⟩, -⟩ := provides_of_call hact hf hcall
  constructor
  · intro hk
    simpa [Program.hasGate] using hgate hk
  · intro hk
    rcases hknows hk with hthere | hconverting
    · rw [Program.hasSubroutine_iff, List.mem_map] at hthere
      exact .inl hthere
    · exact .inr hconverting

/-- A call of a routine that succeeds, at any moment of a build, leaves its name with a definition, unless
a subroutine of that name is in conversion. What a name is defined as in the result of a build is the work
of a routine of that name. If it is the name of one routine of its kind, and no gate of that name is opened
by hand, then it is the work of that one: its parameters, its type and what its body has written. -/
theorem definition_origin (hp : buildProgram (run lib fuel) r config args s = (.ok p, s')) :
    Throughout lib fuel
      (fun _ t => ∀ n key f vs v t', lib.Holds key f → call (run lib n) .own key f vs t = (.ok v, t') →
        lib.Settles f t'.ctx)
      (buildProgram · r config args) s ∧
    (∀ x ∈ p.program.subroutines, ∃ key g, lib.Holds key g ∧ g.Defines lib x) ∧
    ∀ f, lib.Distinguishes f →
      (f.kind ≠ .gate → ∀ x ∈ p.program.subroutines, x.name = f.name → f.Defines lib x) ∧
      (f.kind = .gate →
        Throughout lib fuel (fun o _ => ∀ st ∈ o, ∀ n ∈ st.action.opened?, n ≠ f.name)
          (buildProgram · r config args) s →
        ∀ x ∈ p.program.gates, x.name = f.name → f.DefinesGate lib x) := by
  have hsubroutines : ∀ x ∈ p.program.subroutines, ∃ key g, lib.Holds key g ∧ g.Defines lib x :=
    (origins (H := fun _ => True) (.of_forall fun _ _ _ _ _ _ => trivial) hp).1
  refine ⟨?_, hsubroutines, fun f hf => ⟨fun hk x hx hname => ?_, fun hk hopened x hx hname => ?_⟩⟩
  · refine throughout_orderly_free.mono fun o t ht => ?_
    intro n key f vs v t' hf hcall
    exact settles_of_call ht.active hf hcall
  · obtain ⟨key, g, hg, hdef⟩ := hsubroutines x hx
    obtain rfl : g = f := hf key g hg (iff_of_false hdef.kind hk) (hdef.name.symm.trans hname)
    exact hdef
  · rcases (origins hopened hp).2 x hx with hother | ⟨key, g, hg, hdef⟩
    · exact absurd hname hother
    · obtain rfl : g = f := hf key g hg (iff_of_true hdef.kind hk) (hdef.name.symm.trans hname)
      exact hdef

end build

def turnGate : Routine :=
  .gate "turn" [⟨"angle", some Ty.float⟩, ⟨"q", some (.qubit 0)⟩]
    [.mk (.gate ⟨"rx", 1, 1⟩ [.arg 1, .arg 0]) none false .own]

def turnCount : Routine :=
  .subroutine "turn" [⟨"n", some Ty.int⟩] (some Ty.int)
    [.mk (.call "gate" [.const (.int .word 1), .const (.int .word 0)]) none false .own] (.arg 0)

def turnLibrary : Library := ⟨[("gate", turnGate), ("count", turnCount)]⟩

def turnMain : Routine := .main "main" [.mk (.call "count" [.const (.int .word 2)]) none false .own] []

theorem definition_origin_turn :
    ∃ p s', buildProgram (run turnLibrary 4) turnMain {} [] {} = (.ok p, s') ∧
      (p.program.subroutines.map (·.name) = ["turn"] ∧ p.program.gates.map (·.name) = ["turn"]) ∧
      (∀ x ∈ p.program.subroutines, x.name = turnCount.name → turnCount.Defines turnLibrary x) ∧
      ∀ x ∈ p.program.gates, x.name = turnGate.name → turnGate.DefinesGate turnLibrary x := by
  have hends : (buildProgram (run turnLibrary 4) turnMain {} [] {}).1.toOption.map
      (fun p => (p.program.subroutines.map (·.name), p.program.gates.map (·.name))) =
      some (["turn"], ["turn"]) := by decide +kernel
  obtain ⟨p, s', hp, htables⟩ := exists_of_toOption hends
  have hheld : ∀ {key g}, turnLibrary.Holds key g → g = turnGate ∨ g = turnCount := by
    rintro key g ⟨id, hid⟩
    have hmem := List.mem_of_getElem? hid
    simp only [turnLibrary, List.mem_cons, Prod.mk.injEq, List.not_mem_nil, or_false] at hmem
    exact hmem.imp And.right And.right
  have hcount : turnLibrary.Distinguishes turnCount := by
    intro key g hg hkind _
    rcases hheld hg with rfl | rfl
    · exact absurd (hkind.1 rfl) (by decide)
    · rfl
  have hgate : turnLibrary.Distinguishes turnGate := by
    intro key g hg hkind _
    rcases hheld hg with rfl | rfl
    · rfl
    · exact absurd (hkind.2 rfl) (by decide)
  have hopened : Throughout turnLibrary 4
      (fun o _ => ∀ st ∈ o, ∀ n ∈ st.action.opened?, n ≠ turnGate.name)
      (buildProgram · turnMain {} []) {} := throughout_of_check (by decide +kernel)
  have horigin := (definition_origin hp).2.2
  exact ⟨p, s', hp, Prod.mk.inj htables, (horigin turnCount hcount).1 (by decide),
    (horigin turnGate hgate).2 rfl hopened⟩

def silentTwin : Routine :=
  .subroutine "f" [] none [.mk (.gate ⟨"x", 1, 0⟩ [.const (.int .word 0)]) none false .own] (.const .none)

def countingTwin : Routine := .subroutine "f" [] (some Ty.int) [] (.const (.int .word 1))

def twins : Library := ⟨[("silent", silentTwin), ("counting", countingTwin)]⟩

def twinMain : Routine :=
  .main "main" [.mk (.call "silent" []) none false .own, .mk (.call "counting" []) none false .own] []

/-- Both calls succeed, and the definition of the name that they share returns nothing. -/
theorem definition_of_other :
    twins.find? "counting" = some (1, countingTwin) ∧
    ∃ p s', buildProgram (run twins 4) twinMain {} [] {} = (.ok p, s') ∧
      ∃ x ∈ p.program.subroutines, x.name = countingTwin.name ∧ ¬ countingTwin.Defines twins x := by
  have hends : (buildProgram (run twins 4) twinMain {} [] {}).1.toOption.map
      (·.program.subroutines.map fun x => (x.name, x.returns.isSome)) = some [("f", false)] := by
    decide +kernel
  obtain ⟨p, s', hp, htable⟩ := exists_of_toOption hends
  refine ⟨rfl, p, s', hp, ?_⟩
  obtain ⟨x, hx, hpair⟩ : ∃ x ∈ p.program.subroutines, (x.name, x.returns.isSome) = ("f", false) := by
    rw [← List.mem_map, htable]
    exact List.mem_singleton.2 rfl
  obtain ⟨hname, hreturns⟩ := Prod.mk.inj hpair
  refine ⟨x, hx, hname, fun hdef => ?_⟩
  rw [hdef.returns] at hreturns
  cases hreturns

end Convert

end QasmStudio

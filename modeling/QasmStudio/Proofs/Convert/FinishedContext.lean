import QasmStudio.Proofs.Convert.FailedGates

/-!
# Contexts of builds that are over

A body can keep a context beyond the end of its build and hand it to operations later. Such a context has been
closed and stays so. Nothing is written to it: what would have to write a statement or to create a variable
stops before it has done anything, and a routine that is called with it is built as a program of its own.

Its methods work on, however. They register qubits, take names, announce the pulse grammar, and add to the
table of gates the definitions that are opened by hand, which are empty since no call of a gate reaches
them.
-/

namespace QasmStudio

/-- Among the bindings `b` the operation has a statement to write or a variable to create, unless its operands
are rejected. Operands that are known while converting spare some operations the statement. -/
def Action.Writes (lib : Library) (b : Bindings) : Action → Prop
  | .gate .. | .measure .. | .reset .. | .barrier .. | .newVar .. | .newArray .. | .loopOver .. | .leaveLoop
  | .nextTurn | .leaveRoutine .. | .verbatim .. | .play .. | .frameCall .. | .delay .. => True
  | .compare _ l r => ∀ x y, l.eval b = .ok x → r.eval b = .ok y → (x.isExpr || y.isExpr) = true
  | .logical _ l r => ∀ x y, l.eval b = .ok (.bool x) → r.eval b ≠ .ok (.bool y)
  | .not o | .branch o _ _ => ∀ x, o.eval b ≠ .ok (.bool x)
  | .assign _ o => ∀ v, o.eval b = .ok v → v.isExpr = true
  | .call id _ => ∀ key r, lib.find? id = some (key, r) → r.kind = .gate
  | _ => False

namespace Convert
variable {α β : Type} {lib : Library} {again : Runner} {f : Nat} {s : State} {a : Value} {args : List Value}
  {r : Routine} {key : Nat}

/-! ### Operations that are refused -/

/-- The conversion looks at no context and leaves the state as it is. -/
def Blind (m : Convert α) (s : State) : Prop := ∃ x, ∀ c, m { s with ctx := c } = (x, { s with ctx := c })

/-- With a finished context the operation stops at once: it is used outside of a build. Or its operands are
rejected, and then it stops in the same way with any context. -/
def Refuses (m : Handle → Convert α) (s : State) : Prop :=
  ∃ stop, m .finished s = (.error stop, s) ∧
    ((∃ operation, stop = .error (.domain (.outsideProgram operation))) ∨
      ∀ h c, m h { s with ctx := c } = (.error stop, { s with ctx := c }))

section blind

theorem Blind.pure (a : α) : Blind (pure a : Convert α) s := ⟨.ok a, fun _ => rfl⟩

theorem Blind.throw (e : Stop) : Blind (throw e : Convert α) s := ⟨.error e, fun _ => rfl⟩

theorem Blind.bind {m : Convert α} {k : α → Convert β} (hm : Blind m s) (hk : ∀ a, Blind (k a) s) :
    Blind (m >>= k) s := by
  obtain ⟨e | a, hx⟩ := hm
  · exact ⟨.error e, fun c => bind_of_error (hx c) k⟩
  · obtain ⟨y, hy⟩ := hk a
    exact ⟨y, fun c => (bind_of_ok (hx c) k).trans (hy c)⟩

end blind

namespace Refuses
variable {m : Handle → Convert α}

theorem outside {operation : String}
    (h : m .finished s = (.error (.error (.domain (.outsideProgram operation))), s)) : Refuses m s :=
  ⟨_, h, .inl ⟨operation, rfl⟩⟩

theorem after {k : Convert β} {m : β → Handle → Convert α} (hk : Blind k s)
    (hm : ∀ b, k s = (.ok b, s) → Refuses (m b) s) : Refuses (fun h => k >>= fun b => m b h) s := by
  obtain ⟨e | b, hx⟩ := hk
  · exact ⟨e, bind_of_error (hx s.ctx) _, .inr fun h c => bind_of_error (hx c) _⟩
  · obtain ⟨stop, hstop, hwhy⟩ := hm b (hx s.ctx)
    refine ⟨stop, (bind_of_ok (hx s.ctx) _).trans hstop, hwhy.imp_right fun hsame h c => ?_⟩
    exact (bind_of_ok (hx c) _).trans (hsame h c)

theorem bind {k : Handle → α → Convert β} (hm : Refuses m s) : Refuses (fun h => m h >>= k h) s := by
  obtain ⟨stop, hstop, hwhy⟩ := hm
  exact ⟨stop, bind_of_error hstop _, hwhy.imp_right fun hsame h c => bind_of_error (hsame h c) _⟩

end Refuses

section refuses
variable (hfin : s.finished.active = false)
include hfin

end refuses

def finishedLicence (n : Nat) (G : GateDef → Prop) (W : Prop) : Licence where
  build := n
  inGate := False
  stmts _ := False
  gates := G
  methods := W

/-- On that context the operation is a method or opens a gate definition only if that may be. -/
structure Tolerable (G : GateDef → Prop) (W : Prop) (c : Context) (action : Action) : Prop where
  methods : action.meddles c = true → W
  gates : ∀ name params body, action = .gateDef name params body →
    G ⟨name, GateParam.angles params, GateParam.qubits params, []⟩

section lawful
variable {M : Option Step → State → Prop} {n fuel : Nat} {G : GateDef → Prop} {W : Prop}
  {h : Handle} {action : Action}

theorem finished_ne_own : Side.finished ≠ .own := by
  intro h
  cases h

theorem Tolerable.opens {c : Context} (hc : h = .finished → Tolerable G W c action) :
    Opens .finished (finishedLicence n G W) again h action :=
  ⟨fun hσ => absurd hσ finished_ne_own, fun _ hh => (hc hh).gates⟩

end lawful

end Convert

end QasmStudio

import QasmStudio.Proofs.Convert.Interpreter
import QasmStudio.Proofs.Convert.Relay

/-!
# Where errors carry positions

An error is raised by some operation and goes up through the bodies that it is in, until a guarded step
catches it or the conversion ends. On its way an operator tags it with a position, and a routine settles
it. The way up is a list of `Frame`s, outermost first (`Raised`), and it decides what becomes of the error:
a converter error comes out as it was raised, and any other has one position in front of it for each
routine on the way in which an operator was passed.
-/

namespace QasmStudio

/-! ### The way up -/

/-- What an error passes on its way up. -/
inductive Frame where
  /-- The body of a branch, a loop or a verbatim block. -/
  | operator
  /-- The body of a routine that is called or built. -/
  | routine
  deriving DecidableEq

namespace Frame

def pass : Frame → Error → Error
  | operator, e => e.tag
  | routine, e => e.settle

/-- What has become of the error outside of all frames. -/
def passAll (path : List Frame) (e : Error) : Error := path.foldr pass e

end Frame

namespace Error

variable {e : Error}

end Error

namespace Frame
variable {e : Error}

end Frame

/-! ### Operations -/

/-- The frame around the bodies of an operation, if it changes their errors. -/
def Action.frames : Action → List Frame
  | .branch .. | .unroll .. | .loopOver .. | .whileLoop .. | .verbatim .. => [.operator]
  | .call .. | .build .. => [.routine]
  | _ => []

namespace Convert
variable {u : State} {e : Error}

theorem callable_relaying {h : Handle} {i : relaying.Place} {key : Nat} {r : Routine} (hi : i.2 = id) :
    relaying.Callable h i key r := by
  obtain ⟨P, w⟩ := i
  subst hi
  exact ⟨fun _ _ _ _ _ => .body _, fun _ _ _ _ _ _ => ⟨.body _, trivial⟩, fun _ _ _ _ _ hj => hj ▸ .body _⟩

/-- An operation passes on the errors of its bodies through its frames, and its own are bare. -/
theorem relays_perform (lib : Library) (fuel : Nat) (h : Handle) (action : Action) :
    Relays Error.IsBare (Frame.passAll action.frames) fun again => perform again lib fuel h action := by
  let i : relaying.Place := (Error.IsBare, Frame.passAll action.frames)
  have hf : relaying.Fails i := fun _ h => h
  refine relaying.perform (i := i) hf ?_
  cases action with
  | call => exact ⟨rfl, fun _ _ _ => callable_relaying rfl⟩
  | build => exact ⟨rfl, fun _ _ _ _ hj => hj ▸ .body _⟩
  | branch cond thn els => exact ⟨rfl, .body _, fun _ _ => .body _⟩
  | unroll | verbatim | loopOver => exact ⟨rfl, .body _⟩
  | whileLoop cond test body =>
    refine .bind (relaying.whileLoop (i := i) hf rfl (.body _) (.body _) (.body _) ?_) fun _ => relaying.pure (i := i) _
    exact .const fun _ _ _ he => by cases he
  | inProgram | calibrationDef => cases h <;> exact .body _
  | gateDef => cases h <;> exact ⟨.body _, fun _ => ⟨fun _ => trivial, fun _ => trivial⟩⟩
  | nestedBuild => exact ⟨.body _, fun _ _ _ _ hj => hj ▸ .body _⟩
  | registerQubit | nextName | result => exact fun _ => trivial
  | draft | validateTargets => trivial
  | _ => exact relaying.plain (i := i) hf trivial nofun rfl

/-! ### Runs -/

section reaches
variable {α : Type} {P : Error → Prop} {w : Error → Error} {again : Runner} {F : Runner → Convert α} {s : State}
  {b : List Step} {v : State}

/-- The operation comes to run the body `b` at the state `v`: it would be cut off if the body were, and as
it is, it is not. -/
def Reaches (again : Runner) (F : Runner → Convert α) (s : State) (b : List Step) (v : State) : Prop :=
  (F again s).1 ≠ .error .exhausted ∧
    ∀ u, (F (instead again b v (.error .exhausted, u)) s).1 = .error .exhausted

/-- An error of a body that is reached is the error of the operation. -/
theorem Relays.of_reaches (h : Relays P w F) (hr : Reaches again F s b v)
    (hb : again b v = (.error (.error e), u)) : ∃ u', F again s = (.error (.error (w e)), u') := by
  rcases h.asks again s b v with hsame | hasks
  · have hcut := hr.2 u
    rw [hsame] at hcut
    exact absurd hcut hr.1
  · obtain ⟨u', hu'⟩ := hasks (.error e) u
    rw [← hb, instead_same] at hu'
    exact ⟨u', hu'⟩

theorem Asks.reaches (h : Asks w again F s b v) (hne : (F again s).1 ≠ .error .exhausted) :
    Reaches again F s b v := by
  refine ⟨hne, fun u => ?_⟩
  obtain ⟨u', hu'⟩ := h .exhausted u
  rw [hu']
  rfl

/-- An error of the operation is its own if no body that it reaches has failed. -/
theorem Relays.bare_of_own (h : Relays Error.IsBare w F) (he : F again s = (.error (.error e), u))
    (hown : ∀ b v, Reaches again F s b v → ∀ e' u', again b v ≠ (.error (.error e'), u')) : e.IsBare := by
  rcases h.raises again s e u he with hbare | ⟨b, v, e', u', hb, hasks⟩
  · exact hbare
  · refine absurd hb (hown b v (hasks.reaches ?_) e' u')
    rw [he]
    exact fun heq => error_ne_exhausted e (Except.error.inj heq)

end reaches

/-- The steps, run at a state, stop with an error that was raised as `e` at the end of the path. -/
inductive Raised (lib : Library) : Nat → List Step → State → List Frame → Error → Prop
  | here {fuel action target h pre post s t u e}
      (hpre : run lib (fuel + 1) pre s = (.ok (), t))
      (hfail : perform (run lib fuel) lib fuel h action t = (.error (.error e), u))
      (hown : ∀ b v, Reaches (run lib fuel) (perform · lib fuel h action) t b v →
        ∀ e' u', run lib fuel b v ≠ (.error (.error e'), u')) :
      Raised lib (fuel + 1) (pre ++ .mk action target false h :: post) s [] e
  | inside {fuel action target h pre post s t b v path e}
      (hpre : run lib (fuel + 1) pre s = (.ok (), t))
      (hbody : Reaches (run lib fuel) (perform · lib fuel h action) t b v)
      (hraised : Raised lib fuel b v path e) :
      Raised lib (fuel + 1) (pre ++ .mk action target false h :: post) s (action.frames ++ path) e

variable {lib : Library} {fuel : Nat} {steps : List Step} {s : State}

theorem run_append (pre post : List Step) :
    run lib (fuel + 1) (pre ++ post) = run lib (fuel + 1) pre >>= fun _ => run lib (fuel + 1) post :=
  List.forM_append

theorem run_cons (st : Step) (post : List Step) :
    run lib (fuel + 1) (st :: post) = step (run lib fuel) lib fuel st >>= fun _ => run lib (fuel + 1) post :=
  List.forM_cons

theorem run_of_error {action : Action} {target : Option String} {h : Handle} {pre post : List Step} {t : State}
    (hpre : run lib (fuel + 1) pre s = (.ok (), t))
    (hfail : perform (run lib fuel) lib fuel h action t = (.error (.error e), u)) :
    ∃ u', run lib (fuel + 1) (pre ++ .mk action target false h :: post) s = (.error (.error e), u') := by
  have hstep : step (run lib fuel) lib fuel (.mk action target false h) t =
      (.error (.error e), note action.word (.error e) u) := by
    rw [step_apply, hfail]
    rfl
  rw [run_append, bind_of_ok hpre, run_cons]
  exact ⟨_, bind_of_error hstep _⟩

theorem Raised.run {path : List Frame} (h : Raised lib fuel steps s path e) :
    e.IsBare ∧ ∃ u, run lib fuel steps s = (.error (.error (Frame.passAll path e)), u) := by
  induction h with
  | here hpre hfail hown =>
    exact ⟨(relays_perform lib _ _ _).bare_of_own hfail hown, run_of_error hpre hfail⟩
  | @inside fuel action target h pre post s t b v path e hpre hbody hraised ih =>
    obtain ⟨hbare, u, hrun⟩ := ih
    obtain ⟨u', hfail⟩ := (relays_perform lib fuel h action).of_reaches hbody hrun
    have hpass : Frame.passAll action.frames (Frame.passAll path e) = Frame.passAll (action.frames ++ path) e := by
      unfold Frame.passAll
      rw [List.foldr_append]
    rw [hpass] at hfail
    exact ⟨hbare, run_of_error hpre hfail⟩

end Convert

end QasmStudio

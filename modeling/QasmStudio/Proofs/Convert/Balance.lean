import QasmStudio.Proofs.Convert.Interpreter

/-!
# Balance of the stacks

An operation leaves every stack of its context as it found it: the programs being written, with their
open blocks, the definitions in progress and the subroutines in conversion. It may stop anywhere inside
of its bodies, with an error or for good.

A program on the stack after the operation is the one that was there before it if it `Continues` it:
what was written before is still there, with as many open blocks around the place where writing goes on.
-/

namespace QasmStudio

/-- `q` is a later stage of `p`: its open blocks begin with those of `p`, one by one, and everything
that was declared or defined in `p` still is. -/
structure Program.Continues (p q : Program) : Prop where
  blocks : List.Forall₂ (· <+: ·) p.blocks q.blocks
  kept : p.Kept q

namespace Program
variable {p q : Program}

theorem Resumes.continues (h : p.Resumes q) : p.Continues q :=
  ⟨h.blocks ▸ List.forall₂_same.2 fun b _ => List.prefix_refl b, h.kept⟩

theorem Grows.continues {ok : Stmt → Prop} (h : p.Grows ok q) : p.Continues q := by
  obtain ⟨new, -, hq⟩ := h.blocks
  refine ⟨?_, h.kept⟩
  rw [hq, blocks_eq p]
  exact .cons (List.prefix_append ..) (List.forall₂_same.2 fun b _ => List.prefix_refl b)

theorem Continues.depth (h : p.Continues q) : q.depth = p.depth := by
  rw [depth_eq, depth_eq, h.blocks.length_eq]

end Program

/-- The stacks of the two contexts are the same. -/
structure Context.Balanced (c c' : Context) : Prop where
  programs : List.Forall₂ Program.Continues c.stack c'.stack
  depths : c'.stack.map (·.depth) = c.stack.map (·.depth)
  gates : c'.gates = c.gates
  calibrations : c'.calibrations = c.calibrations
  converting : c'.converting.map (·.1) = c.converting.map (·.1)
  verbatim : c'.verbatim = c.verbatim
  active : c'.active = c.active

theorem depths_of_continues {ps qs : List Program} (h : List.Forall₂ Program.Continues ps qs) :
    qs.map (·.depth) = ps.map (·.depth) := by
  induction h with
  | nil => rfl
  | cons h _ ih => rw [List.map_cons, List.map_cons, h.depth, ih]

theorem Context.Advance.balanced {c c' : Context} (h : c.Advance c') : c.Balanced c' := by
  have hstack : List.Forall₂ Program.Continues c.stack c'.stack := by
    rw [stack_eq c, stack_eq c']
    exact .cons h.current.continues (h.below.imp fun _ _ hr => hr.toResumes.continues)
  exact ⟨hstack, depths_of_continues hstack, h.gates, h.calibrations, by rw [h.converting], h.verbatim, h.active⟩

namespace Convert

/-- However an operation ends, and whatever its bodies do, the stacks of its context are what they were
before, and so are those of the finished one. -/
theorem balanced_perform (lib : Library) (fuel turns : Nat) (h : Handle) (action : Action) (s : State) :
    s.ctx.Balanced (perform (run lib fuel) lib turns h action s).2.ctx ∧
      s.finished.Balanced (perform (run lib fuel) lib turns h action s).2.finished := by
  have hperform := follows_perform (f := turns) (h := h) (fun _ _ _ _ _ => trivial) (library_obeys_free lib)
    (faithful_run_self lib fuel) (obeys_free lib s.bindings action) (over_free s)
  exact ⟨hperform.exits.advance.balanced, hperform.finished.advance.balanced⟩

end Convert

end QasmStudio

import Mathlib.Logic.Relation
import QasmStudio.Proofs.Circuit.Schedule
import QasmStudio.StateVector.Simulate

/-!
# The order of simulation

The simulator takes the operations column by column. There an operation is passed only by later ones
that stand in earlier columns, and those do not overlap it (`IsSchedule.ordered`). So the columns are
reached from the program by exchanging neighbours that do not overlap, and where such neighbours commute
both orders lead to the same state.
-/

namespace QasmStudio

open List

/-! ### Exchanges -/

/-- Two neighbours that do not overlap change places. -/
inductive Exchange (n : Nat) : List Op → List Op → Prop
  | swap (before after : List Op) (a b : Op) (h : ¬ a.Overlaps n b) :
      Exchange n (before ++ a :: b :: after) (before ++ b :: a :: after)

namespace Exchange
variable {n : Nat} {xs ys : List Op}

theorem cons (op : Op) (h : Exchange n xs ys) : Exchange n (op :: xs) (op :: ys) := by
  obtain ⟨before, after, a, b, hab⟩ := h
  exact .swap (op :: before) after a b hab

theorem perm (h : Exchange n xs ys) : xs.Perm ys := by
  obtain ⟨before, after, a, b, -⟩ := h
  exact (List.Perm.swap b a after).append_left before

theorem foldl_eq {σ : Type} {f : Op → σ → σ} (h : Exchange n xs ys)
    (hf : ∀ a ∈ xs, ∀ b ∈ xs, ¬ a.Overlaps n b → ∀ s, f b (f a s) = f a (f b s)) (s : σ) :
    xs.foldl (fun s op => f op s) s = ys.foldl (fun s op => f op s) s := by
  obtain ⟨before, after, a, b, hab⟩ := h
  simp only [foldl_append, foldl_cons]
  rw [hf a (by simp) b (by simp) hab]

/-- An operation moves behind operations that it does not overlap. -/
theorem pass (a : Op) (before after : List Op) (h : ∀ b ∈ before, ¬ a.Overlaps n b) :
    Relation.ReflTransGen (Exchange n) (a :: (before ++ after)) (before ++ a :: after) := by
  induction before with
  | nil => exact .refl
  | cons b before ih =>
    obtain ⟨hb, hbefore⟩ := forall_mem_cons.1 h
    have hfirst : Exchange n (a :: b :: (before ++ after)) (b :: a :: (before ++ after)) :=
      .swap [] (before ++ after) a b hb
    exact .head hfirst ((ih hbefore).lift (b :: ·) fun _ _ => cons b)

end Exchange

section Exchanges
variable {n : Nat} {xs ys : List Op} (h : Relation.ReflTransGen (Exchange n) xs ys)
include h

theorem perm_of_exchanges : xs.Perm ys := by
  induction h with
  | refl => exact .refl _
  | tail _ hlast ih => exact ih.trans hlast.perm

theorem foldl_eq_of_exchanges {σ : Type} {f : Op → σ → σ}
    (hf : ∀ a ∈ xs, ∀ b ∈ xs, ¬ a.Overlaps n b → ∀ s, f b (f a s) = f a (f b s)) (s : σ) :
    xs.foldl (fun s op => f op s) s = ys.foldl (fun s op => f op s) s := by
  induction h with
  | refl => rfl
  | tail hfront hlast ih =>
    have hmem := fun a => (perm_of_exchanges hfront).mem_iff (a := a)
    exact ih.trans (hlast.foldl_eq (fun a ha b hb => hf a ((hmem a).2 ha) b ((hmem b).2 hb)) s)

end Exchanges

/-! ### Sorting by columns -/

theorem step_le_trans (a b c : Placed) (hab : decide (a.step ≤ b.step) = true)
    (hbc : decide (b.step ≤ c.step) = true) : decide (a.step ≤ c.step) = true := by
  simp only [decide_eq_true_eq] at *
  omega

theorem step_le_total (a b : Placed) : (decide (a.step ≤ b.step) || decide (b.step ≤ a.step)) = true := by
  simp only [Bool.or_eq_true, decide_eq_true_eq]
  omega

/-- The first operation of the program stands behind those of earlier columns and before all others. -/
theorem sort_cons (p : Placed) (ps : List Placed) : ∃ before after,
    ((p :: ps).mergeSort fun a b => a.step ≤ b.step) = before ++ p :: after ∧
    (ps.mergeSort fun a b => a.step ≤ b.step) = before ++ after ∧ ∀ b ∈ before, b.step < p.step := by
  obtain ⟨before, after, hsort, hrest, hlt⟩ := mergeSort_cons step_le_trans step_le_total p ps
  refine ⟨before, after, hsort, hrest, fun b hb => ?_⟩
  simpa using hlt b hb

theorem exchanges_sort {n : Nat} {ps : List Placed}
    (h : ps.Pairwise fun a b => a.Overlaps n b.toOp → a.step < b.step) :
    Relation.ReflTransGen (Exchange n) (ps.map (·.toOp))
      ((ps.mergeSort fun a b => a.step ≤ b.step).map (·.toOp)) := by
  induction ps with
  | nil => simpa using .refl
  | cons p ps ih =>
    obtain ⟨hp, hps⟩ := pairwise_cons.1 h
    obtain ⟨before, after, hsort, hrest, hlt⟩ := sort_cons p ps
    -- what comes before `p` is of an earlier column, and what overlaps `p` is of a later one
    have hpass : ∀ b ∈ before.map (·.toOp), ¬ p.toOp.Overlaps n b := by
      intro b hb hover
      obtain ⟨x, hx, rfl⟩ := mem_map.1 hb
      have hmem : x ∈ ps := mem_mergeSort.1 (hrest ▸ mem_append_left after hx)
      exact absurd (hp x hmem hover) (hlt x hx).not_gt
    have htail := (ih hps).lift (p.toOp :: ·) fun _ _ => Exchange.cons p.toOp
    rw [hrest, map_append] at htail
    rw [hsort, map_append, map_cons, map_cons]
    exact htail.trans (Exchange.pass p.toOp _ _ hpass)

theorem filter_sort (k : Nat) (ps : List Placed) :
    (ps.mergeSort fun a b => a.step ≤ b.step).filter (·.step = k) = ps.filter (·.step = k) := by
  induction ps with
  | nil => simp
  | cons p ps ih =>
    obtain ⟨before, after, hsort, hrest, hlt⟩ := sort_cons p ps
    rw [hrest, filter_append] at ih
    rw [hsort, filter_append, filter_cons, filter_cons]
    by_cases hk : p.step = k
    · have hnone : before.filter (·.step = k) = [] :=
        filter_eq_nil_iff.2 fun b hb => by simpa using (hk ▸ hlt b hb).ne
      simp only [hnone, nil_append] at ih ⊢
      simp only [hk, ih]
    · simpa [hk] using ih

/-! ### The simulator -/

namespace Circuit

/-- What an operation makes of the outcome of those before it. -/
def advance (op : Op) : Except Fault (Except SimulationError StateVector) →
    Except Fault (Except SimulationError StateVector)
  | .ok (.ok s) => runOps s [op]
  | r => r

theorem foldl_advance_of_not_ok {r : Except Fault (Except SimulationError StateVector)}
    (h : ∀ s, r ≠ .ok (.ok s)) (ops : List Op) : ops.foldl (fun r op => advance op r) r = r := by
  induction ops with
  | nil => rfl
  | cons op ops ih =>
    have hstop : advance op r = r := by
      unfold advance
      split
      · exact absurd rfl (h _)
      · rfl
    rw [foldl_cons, hstop, ih]

theorem runOps_eq_foldl (s : StateVector) (ops : List Op) :
    runOps s ops = ops.foldl (fun r op => advance op r) (.ok (.ok s)) := by
  induction ops generalizing s with
  | nil => rfl
  | cons op ops ih =>
    rw [foldl_cons, advance, runOps, runOps]
    rcases s.apply op.name (op.qubits.map Int.ofNat) op.params with e | _ | t
    · exact (foldl_advance_of_not_ok (by simp [bind, Except.bind]) ops).symm
    · exact (foldl_advance_of_not_ok (by simp [bind, Except.bind, pure, Except.pure]) ops).symm
    · exact ih t

theorem advance_comm {a b : Op} (h : ∀ s, runOps s [a, b] = runOps s [b, a])
    (r : Except Fault (Except SimulationError StateVector)) :
    advance b (advance a r) = advance a (advance b r) := by
  rcases r with e | e | s
  · rfl
  · rfl
  · simpa only [runOps_eq_foldl, foldl_cons, foldl_nil] using h s

/-- The simulator sorts by columns and keeps the order within a column. What it runs is the program up to
exchanges of neighbours that do not overlap, so for any reading of operations as state transformers, the
simulator's own one included, in which such operations commute the result is that of the program. -/
theorem simulation_order {c : Circuit} {ops : List Op} (hops : c.ops = schedule c.numQubits ops)
    (hn : ∀ op ∈ ops, ∀ q ∈ op.qubits, q < c.numQubits) :
    (c.byStep.Pairwise fun a b => a.step ≤ b.step) ∧
    (∀ k, c.byStep.filter (·.step = k) = c.ops.filter (·.step = k)) ∧
    (c.byStep.map (·.toOp)).Perm ops ∧
    Relation.ReflTransGen (Exchange c.numQubits) ops (c.byStep.map (·.toOp)) ∧
    (∀ (σ : Type) (f : Op → σ → σ),
      (∀ a ∈ ops, ∀ b ∈ ops, ¬ a.Overlaps c.numQubits b → ∀ s, f b (f a s) = f a (f b s)) →
      ∀ s, (c.byStep.map (·.toOp)).foldl (fun s op => f op s) s = ops.foldl (fun s op => f op s) s) ∧
    ((∀ a ∈ ops, ∀ b ∈ ops, ¬ a.Overlaps c.numQubits b → ∀ s, runOps s [a, b] = runOps s [b, a]) →
      c.classical = false → c.numQubits ≤ maxSimulated →
      c.simulate = do runOps (← StateVector.zero c.numQubits) ops) := by
  have hsched : IsSchedule c.numQubits c.ops := hops ▸ (IsSchedule.nil _).placeFrom (.start _) hn
  have hprogram : c.ops.map (·.toOp) = ops := hops ▸ toOp_placeFrom _ _ ops
  have hexchange : Relation.ReflTransGen (Exchange c.numQubits) ops (c.byStep.map (·.toOp)) :=
    hprogram ▸ exchanges_sort hsched.ordered
  refine ⟨?_, fun k => filter_sort k c.ops, (perm_of_exchanges hexchange).symm, hexchange,
    fun σ f hf s => (foldl_eq_of_exchanges hexchange hf s).symm, fun hf hclassical hsmall => ?_⟩
  · exact (List.pairwise_mergeSort step_le_trans step_le_total c.ops).imp of_decide_eq_true
  · have hrun : ∀ s, runOps s (c.byStep.map (·.toOp)) = runOps s ops := by
      intro s
      rw [runOps_eq_foldl, runOps_eq_foldl]
      exact (foldl_eq_of_exchanges hexchange (fun a ha b hb hab => advance_comm (hf a ha b hb hab)) _).symm
    unfold simulate
    rw [if_neg (by simp [hclassical]), if_neg hsmall.not_gt]
    simp only [hrun]

def staggeredOps : List Op := [⟨"H", [0], []⟩, ⟨"X", [0], []⟩, ⟨"Z", [1], []⟩]

/-- Every wire records the operations that cover it. -/
def recordOn (n : Nat) (op : Op) (log : Nat → List String) : Nat → List String :=
  fun q => if (op.span n).Contains q then log q ++ [op.name] else log q

theorem recordOn_comm {n : Nat} {a b : Op} (h : ¬ a.Overlaps n b) (log : Nat → List String) :
    recordOn n b (recordOn n a log) = recordOn n a (recordOn n b log) := by
  funext q
  have hq : ¬ ((a.span n).Contains q ∧ (b.span n).Contains q) := by
    rintro ⟨ha, hb⟩
    exact h ⟨q, Op.contains_span.1 ha, Op.contains_span.1 hb⟩
  unfold recordOn
  split_ifs with hb ha <;> simp_all

theorem simulation_order_staggered :
    (∀ op ∈ staggeredOps, ∀ q ∈ op.qubits, q < 2) ∧
    (⟨2, schedule 2 staggeredOps, false, false⟩ : Circuit).byStep.map (·.name) = ["H", "Z", "X"] ∧
    ∀ log, ((⟨2, schedule 2 staggeredOps, false, false⟩ : Circuit).byStep.map (·.toOp)).foldl
        (fun log op => recordOn 2 op log) log =
      staggeredOps.foldl (fun log op => recordOn 2 op log) log := by
  have hn : ∀ op ∈ staggeredOps, ∀ q ∈ op.qubits, q < 2 := by decide
  have horder := simulation_order (c := ⟨2, schedule 2 staggeredOps, false, false⟩) rfl hn
  have hplaced : schedule 2 staggeredOps =
      [⟨⟨"H", [0], []⟩, 0⟩, ⟨⟨"X", [0], []⟩, 1⟩, ⟨⟨"Z", [1], []⟩, 0⟩] := rfl
  refine ⟨hn, ?_, horder.2.2.2.2.1 _ (recordOn 2) fun a _ b _ hab => recordOn_comm hab⟩
  simp [byStep, hplaced, List.mergeSort, List.MergeSort.Internal.splitInTwo]

end Circuit

end QasmStudio

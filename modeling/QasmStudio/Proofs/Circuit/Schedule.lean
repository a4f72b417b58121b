import Mathlib.Data.List.Pairwise
import Mathlib.Order.MinMax
import QasmStudio.Circuit.Schedule

/-!
# Schedules

While operations are placed, the table of free columns says of each wire how far the operations that
cover it have got (`Records`). So an operation goes behind every earlier one that it overlaps, and right
behind one of them unless it is in the first column: the schedule is as short as the overlaps allow.
-/

namespace QasmStudio

open List

/-! ### Spans -/

theorem foldl_min_le_iff {qs : List Nat} {q x : Nat} : qs.foldl min q ≤ x ↔ ∃ a ∈ q :: qs, a ≤ x := by
  induction qs generalizing q with
  | nil => simp
  | cons a qs ih => simp [ih, or_assoc]

theorem le_foldl_max_iff {qs : List Nat} {q x : Nat} : x ≤ qs.foldl max q ↔ ∃ b ∈ q :: qs, x ≤ b := by
  induction qs generalizing q with
  | nil => simp
  | cons b qs ih => simp [ih, or_assoc]

theorem Span.mem_slice {α : Type} {s : Span} {xs : List α} {x : α} :
    x ∈ s.slice xs ↔ ∃ q, s.Contains q ∧ xs[q]? = some x := by
  unfold slice Contains
  rw [mem_iff_getElem?]
  constructor
  · rintro ⟨i, hi⟩
    rw [getElem?_take] at hi
    split at hi
    · exact ⟨s.lo + i, by omega, by rwa [getElem?_drop] at hi⟩
    · cases hi
  · rintro ⟨q, hq, hx⟩
    refine ⟨q - s.lo, ?_⟩
    rw [getElem?_take, if_pos (by omega), getElem?_drop, Nat.add_sub_cancel' hq.1]
    exact hx

namespace Op

/-- The wires from the lowest operand to the highest, and all `n` of them where there are no operands. -/
def Covers (n : Nat) (op : Op) (q : Nat) : Prop :=
  (op.qubits = [] ∧ q < n) ∨ ∃ a ∈ op.qubits, ∃ b ∈ op.qubits, a ≤ q ∧ q ≤ b

def Overlaps (n : Nat) (a b : Op) : Prop := ∃ q, a.Covers n q ∧ b.Covers n q

theorem contains_span {n : Nat} {op : Op} {q : Nat} : (op.span n).Contains q ↔ op.Covers n q := by
  obtain ⟨name, qubits, params⟩ := op
  cases qubits with
  | nil => simp [span, bounds?, Span.Contains, Covers]
  | cons a qs =>
    simp only [span, bounds?, Span.Contains, Covers, Nat.lt_succ_iff, foldl_min_le_iff, le_foldl_max_iff]
    constructor
    · rintro ⟨⟨a, ha, haq⟩, b, hb, hqb⟩
      exact .inr ⟨a, ha, b, hb, haq, hqb⟩
    · rintro (⟨hnil, -⟩ | ⟨a, ha, b, hb, haq, hqb⟩)
      · cases hnil
      · exact ⟨⟨a, ha, haq⟩, b, hb, hqb⟩

theorem Covers.lt {n : Nat} {op : Op} {q : Nat} (hn : ∀ b ∈ op.qubits, b < n) (h : op.Covers n q) : q < n := by
  rcases h with ⟨-, hq⟩ | ⟨-, -, b, hb, -, hq⟩
  · exact hq
  · exact hq.trans_lt (hn b hb)

end Op

/-! ### The table of free columns -/

theorem le_earliest {free : List Nat} {s : Span} {q f : Nat} (hq : s.Contains q) (hf : free[q]? = some f) :
    f ≤ earliest free s :=
  le_foldl_max_iff.2 ⟨f, mem_cons_of_mem _ (Span.mem_slice.2 ⟨q, hq, hf⟩), le_rfl⟩

theorem earliest_eq (free : List Nat) (s : Span) :
    earliest free s = 0 ∨ ∃ q, s.Contains q ∧ free[q]? = some (earliest free s) := by
  obtain ⟨f, hf, hle⟩ := le_foldl_max_iff.1 (le_refl (earliest free s))
  rcases mem_cons.1 hf with rfl | hf
  · exact .inl (Nat.le_zero.1 hle)
  · obtain ⟨q, hq, hqf⟩ := Span.mem_slice.1 hf
    have heq : f = earliest free s := (le_earliest hq hqf).antisymm hle
    exact .inr ⟨q, hq, heq ▸ hqf⟩

theorem getElem?_occupy (free : List Nat) (s : Span) (step q : Nat) :
    (occupy free s step)[q]? = free[q]?.map fun f => if s.Contains q then step + 1 else f := by
  simp [occupy]

/-- The free column of a wire is behind all operations that cover it, and right behind one of them if it
is not the first. -/
structure Records (n : Nat) (placed : List Placed) (free : List Nat) : Prop where
  length : free.length = n
  behind : ∀ q f, free[q]? = some f → ∀ p ∈ placed, p.Covers n q → p.step < f
  tight : ∀ q f, free[q]? = some f → f = 0 ∨ ∃ p ∈ placed, p.Covers n q ∧ p.step + 1 = f

namespace Records
variable {n : Nat} {placed : List Placed} {free : List Nat} {op : Op}

theorem start (n : Nat) : Records n [] (List.replicate n 0) where
  length := length_replicate
  behind _ _ _ _ h := absurd h not_mem_nil
  tight _ _ h := .inl (eq_of_mem_replicate (mem_of_getElem? h))

theorem lt_earliest (h : Records n placed free) (hn : ∀ q ∈ op.qubits, q < n) {p : Placed} (hp : p ∈ placed)
    (hover : p.Overlaps n op) : p.step < earliest free (op.span n) := by
  obtain ⟨q, hpq, hq⟩ := hover
  obtain ⟨f, hf⟩ : ∃ f, free[q]? = some f := ⟨_, getElem?_eq_getElem (h.length.symm ▸ hq.lt hn)⟩
  exact (h.behind q f hf p hp hpq).trans_le (le_earliest (Op.contains_span.2 hq) hf)

theorem earliest_tight (h : Records n placed free) (op : Op) : earliest free (op.span n) = 0 ∨
    ∃ p ∈ placed, p.Overlaps n op ∧ p.step + 1 = earliest free (op.span n) := by
  rcases earliest_eq free (op.span n) with hzero | ⟨q, hq, hf⟩
  · exact .inl hzero
  · rcases h.tight q _ hf with hzero | ⟨p, hp, hpq, hstep⟩
    · exact .inl hzero
    · exact .inr ⟨p, hp, ⟨q, hpq, Op.contains_span.1 hq⟩, hstep⟩

theorem place (h : Records n placed free) (hn : ∀ q ∈ op.qubits, q < n) :
    Records n (placed ++ [{ op with step := earliest free (op.span n) }])
      (occupy free (op.span n) (earliest free (op.span n))) where
  length := by simp [occupy, h.length]
  behind q f hf p hp hpq := by
    rw [getElem?_occupy, Option.map_eq_some_iff] at hf
    obtain ⟨f, hfree, rfl⟩ := hf
    rcases mem_append.1 hp with hp | hp
    · split
      · rename_i hq
        exact Nat.lt_succ_of_lt (h.lt_earliest hn hp ⟨q, hpq, Op.contains_span.1 hq⟩)
      · exact h.behind q f hfree p hp hpq
    · rw [mem_singleton] at hp
      subst hp
      rw [if_pos (Op.contains_span.2 hpq)]
      exact Nat.lt_succ_self _
  tight q f hf := by
    rw [getElem?_occupy, Option.map_eq_some_iff] at hf
    obtain ⟨f, hfree, rfl⟩ := hf
    split
    · rename_i hq
      exact .inr ⟨_, mem_append_right _ (mem_singleton.2 rfl), Op.contains_span.1 hq, rfl⟩
    · exact (h.tight q f hfree).imp_right fun ⟨p, hp, hpq⟩ => ⟨p, mem_append_left _ hp, hpq⟩

end Records

/-! ### Placing operations -/

/-- Overlapping operations are in the order of their columns, and none could be moved one column to the
front. -/
structure IsSchedule (n : Nat) (ps : List Placed) : Prop where
  ordered : ps.Pairwise fun a b => a.Overlaps n b.toOp → a.step < b.step
  earliest : ∀ before p after, ps = before ++ p :: after →
    p.step = 0 ∨ ∃ a ∈ before, a.Overlaps n p.toOp ∧ a.step + 1 = p.step

namespace IsSchedule
variable {n : Nat} {ps : List Placed}

theorem nil (n : Nat) : IsSchedule n [] := ⟨.nil, by simp⟩

theorem append_singleton {p : Placed} (h : IsSchedule n ps) (hlt : ∀ a ∈ ps, a.Overlaps n p.toOp → a.step < p.step)
    (htight : p.step = 0 ∨ ∃ a ∈ ps, a.Overlaps n p.toOp ∧ a.step + 1 = p.step) : IsSchedule n (ps ++ [p]) where
  ordered := pairwise_append.2 ⟨h.ordered, pairwise_singleton _ _, by simpa using hlt⟩
  earliest before x after heq := by
    -- the last element is `p`, and all others are where they were
    rcases eq_nil_or_concat after with rfl | ⟨after, y, rfl⟩
    · obtain ⟨rfl, hx⟩ := append_inj' heq rfl
      cases hx
      exact htight
    · rw [concat_eq_append, ← cons_append, ← append_assoc] at heq
      exact h.earliest before x after (append_inj' heq rfl).1

theorem placeFrom {free : List Nat} {ops : List Op} (h : IsSchedule n ps) (hr : Records n ps free)
    (hn : ∀ op ∈ ops, ∀ q ∈ op.qubits, q < n) : IsSchedule n (ps ++ placeFrom n free ops) := by
  induction ops generalizing ps free with
  | nil => simpa [QasmStudio.placeFrom] using h
  | cons op ops ih =>
    obtain ⟨hop, hops⟩ := forall_mem_cons.1 hn
    have hnext := h.append_singleton (p := { op with step := QasmStudio.earliest free (op.span n) })
      (fun a ha => hr.lt_earliest hop ha) (hr.earliest_tight op)
    have hrest := ih hnext (hr.place hop) hops
    rwa [append_assoc] at hrest

end IsSchedule

theorem toOp_placeFrom (n : Nat) (free : List Nat) (ops : List Op) : (placeFrom n free ops).map (·.toOp) = ops := by
  induction ops generalizing free with
  | nil => rfl
  | cons op ops ih =>
    show op :: (placeFrom n _ ops).map (·.toOp) = op :: ops
    rw [ih]

theorem lt_columns {ps : List Placed} {p : Placed} (hp : p ∈ ps) : p.step < columns ps :=
  le_foldl_max_iff.2 ⟨p.step + 1, mem_cons_of_mem _ (mem_map.2 ⟨p, hp, rfl⟩), le_rfl⟩

theorem columns_eq {ps : List Placed} (h : ps ≠ []) : ∃ p ∈ ps, columns ps = p.step + 1 := by
  obtain ⟨p, hp⟩ := exists_mem_of_ne_nil ps h
  obtain ⟨k, hk, hle⟩ := le_foldl_max_iff.1 (le_refl (columns ps))
  rcases mem_cons.1 hk with rfl | hk
  · exact absurd (lt_columns hp) (by omega)
  · obtain ⟨a, ha, rfl⟩ := mem_map.1 hk
    exact ⟨a, ha, hle.antisymm (lt_columns ha)⟩

/-- Of two operations that overlap, the earlier one comes in an earlier column, so those of one column do
not overlap; an operation behind the first column has one that it overlaps right before it; and there are
as many columns as the last operation needs. -/
theorem schedule_earliest {n : Nat} {ops : List Op} (h : ∀ op ∈ ops, ∀ q ∈ op.qubits, q < n) :
    (schedule n ops).map (·.toOp) = ops ∧
    ((schedule n ops).Pairwise fun a b => a.Overlaps n b.toOp → a.step < b.step) ∧
    ((schedule n ops).Pairwise fun a b => a.step = b.step → ¬ a.Overlaps n b.toOp) ∧
    (∀ before p after, schedule n ops = before ++ p :: after →
      p.step = 0 ∨ ∃ a ∈ before, a.Overlaps n p.toOp ∧ a.step + 1 = p.step) ∧
    (ops = [] → columns (schedule n ops) = 0) ∧
    (∀ p ∈ schedule n ops, p.step + 1 ≤ columns (schedule n ops)) ∧
    (ops ≠ [] → ∃ p ∈ schedule n ops, columns (schedule n ops) = p.step + 1) := by
  have hops : (schedule n ops).map (·.toOp) = ops := toOp_placeFrom n _ ops
  have hsched : IsSchedule n (schedule n ops) := (IsSchedule.nil n).placeFrom (.start n) h
  refine ⟨hops, hsched.ordered, hsched.ordered.imp fun hlt heq hover => ?_, hsched.earliest, ?_,
    fun p hp => lt_columns hp, fun hne => columns_eq fun hnil => hne ?_⟩
  · exact absurd (hlt hover) (heq ▸ lt_irrefl _)
  · rintro rfl
    rfl
  · rw [← hops, hnil, List.map_nil]

/-- A gate around a wire, one on that wire, a barrier over all wires, and operands out of order. -/
def crossingOps : List Op :=
  [⟨"CNOT", [0, 2], []⟩, ⟨"X", [1], []⟩, ⟨"BARRIER", [], []⟩, ⟨"SWAP", [3, 2], []⟩, ⟨"Z", [0], []⟩]

theorem schedule_earliest_crossing :
    (∀ op ∈ crossingOps, ∀ q ∈ op.qubits, q < 4) ∧ (schedule 4 crossingOps).map (·.step) = [0, 1, 2, 3, 3] ∧
    columns (schedule 4 crossingOps) = 4 ∧
    (schedule 4 crossingOps).Pairwise fun a b => a.Overlaps 4 b.toOp → a.step < b.step := by
  have hn : ∀ op ∈ crossingOps, ∀ q ∈ op.qubits, q < 4 := by decide
  exact ⟨hn, rfl, rfl, (schedule_earliest hn).2.1⟩

end QasmStudio

import QasmStudio.Circuit.Cell
import QasmStudio.Proofs.Circuit.Schedule

/-!
# The drawn grid

A cell is drawn by all operations of its column, one over the other. An operation leaves the cells of wires
that it does not cover as they are (`Cell.draw_of_not_covers`), and those of one column cover different wires
(`IsSchedule.alone`). So a cell shows the one operation that covers its wire, and nothing if there is none.
-/

namespace QasmStudio

open List

/-! ### Bounds -/

theorem foldl_min_lt_iff {qs : List Nat} {q x : Nat} : qs.foldl min q < x ↔ ∃ a ∈ q :: qs, a < x := by
  cases x with
  | zero => simp
  | succ x => simp only [Nat.lt_succ_iff, foldl_min_le_iff]

namespace Op
variable {n q lo hi : Nat} {op : Op}

theorem lo_lt_iff (h : op.bounds? = some (lo, hi)) : lo < q ↔ ∃ a ∈ op.qubits, a < q := by
  obtain ⟨name, qubits, params⟩ := op
  cases qubits with
  | nil => cases h
  | cons a qs =>
    cases h
    exact foldl_min_lt_iff

theorem lt_hi_iff (h : op.bounds? = some (lo, hi)) : q < hi ↔ ∃ b ∈ op.qubits, q < b := by
  obtain ⟨name, qubits, params⟩ := op
  cases qubits with
  | nil => cases h
  | cons a qs =>
    cases h
    exact le_foldl_max_iff

theorem covers_iff (h : op.bounds? = some (lo, hi)) : op.Covers n q ↔ lo ≤ q ∧ q ≤ hi := by
  rw [← contains_span, span, h]
  exact and_congr_right fun _ => Nat.lt_succ_iff

theorem bounds?_of_mem (h : q ∈ op.qubits) : ∃ lo hi, op.bounds? = some (lo, hi) := by
  obtain ⟨name, qubits, params⟩ := op
  cases qubits with
  | nil => cases h
  | cons a qs => exact ⟨_, _, rfl⟩

theorem covers_of_mem (h : q ∈ op.qubits) : op.Covers n q := .inr ⟨q, h, q, h, le_rfl, le_rfl⟩

theorem qubits_eq_singleton (h : q ∈ op.qubits) (hlen : op.qubits.length < 2) : op.qubits = [q] := by
  have hpos := length_pos_of_mem h
  obtain ⟨x, hx⟩ := length_eq_one_iff.1 (show op.qubits.length = 1 by omega)
  rw [hx, mem_singleton] at h
  rw [hx, h]

end Op

/-! ### One operation -/

namespace Cell
variable {n q : Nat} {op : Op}

theorem draw_of_not_covers (hq : q < n) (h : ¬ op.Covers n q) (cell : Cell) : draw q cell op = cell := by
  have hne : op.qubits ≠ [] := fun hnil => h (.inl ⟨hnil, hq⟩)
  have hmem : q ∉ op.qubits := fun hmem => h (Op.covers_of_mem hmem)
  unfold draw
  rw [if_neg (by simp [hne, hmem])]
  split
  · rfl
  split
  · rfl
  · rename_i hb
    rw [Op.covers_iff hb] at h
    exact if_pos (by simp; omega)

theorem draw_barrier (hb : op.isBarrier = true) (h : op.qubits = []) (cell : Cell) :
    draw q cell op = { cell with barrier := true, op := some op } := by
  unfold draw
  rw [if_pos (by simp [hb, h])]

theorem draw_operand (hb : op.isBarrier = false) (h : q ∈ op.qubits) (role : Role) :
    draw q { op := some op, role := role } op =
      { op := some op, role := role, above := decide (∃ a ∈ op.qubits, a < q),
        below := decide (∃ b ∈ op.qubits, q < b) } := by
  obtain ⟨lo, hi, hbounds⟩ := Op.bounds?_of_mem h
  obtain ⟨hlo, hhi⟩ := (Op.covers_iff hbounds).1 (Op.covers_of_mem (n := 0) h)
  unfold draw
  rw [if_neg (by simp [hb])]
  split
  · -- there is one operand only
    rename_i hlen
    simp [Op.qubits_eq_singleton h hlen]
  · rw [hbounds]
    show (if _ then _ else _) = _
    rw [if_neg (by simp; omega)]
    simp [Op.lo_lt_iff hbounds, Op.lt_hi_iff hbounds]

theorem draw_inside (h : q ∉ op.qubits) (hlt : ∃ a ∈ op.qubits, a < q) (hgt : ∃ b ∈ op.qubits, q < b) :
    draw q {} op = { above := true, below := true, through := true } := by
  obtain ⟨a, ha, haq⟩ := hlt
  obtain ⟨b, hb, hqb⟩ := hgt
  obtain ⟨lo, hi, hbounds⟩ := Op.bounds?_of_mem ha
  have hlo : lo < q := (Op.lo_lt_iff hbounds).2 ⟨a, ha, haq⟩
  have hhi : q < hi := (Op.lt_hi_iff hbounds).2 ⟨b, hb, hqb⟩
  have htwo : ¬ op.qubits.length < 2 := by
    intro hlen
    rw [Op.qubits_eq_singleton ha hlen, mem_singleton] at hb
    omega
  unfold draw
  rw [if_neg (by simp [ne_nil_of_mem ha, h]), if_neg htwo, hbounds]
  show (if _ then _ else _) = _
  rw [if_neg (by simp; omega)]
  simp [hlo, hhi]

end Cell

/-! ### The operations of a column -/

/-- In the column of an operation no other one covers a wire of its span. -/
theorem IsSchedule.alone {n q : Nat} {before after : List Placed} {p : Placed}
    (h : IsSchedule n (before ++ p :: after)) (hq : p.Covers n q) :
    ∀ x ∈ before ++ after, x.step = p.step → ¬ x.Covers n q := by
  obtain ⟨-, hafter, hbefore⟩ := pairwise_append.1 h.ordered
  intro x hx hstep hxq
  rcases mem_append.1 hx with hx | hx
  · exact absurd (hbefore x hx p mem_cons_self ⟨q, hxq, hq⟩) (by omega)
  · exact absurd ((pairwise_cons.1 hafter).1 x hx ⟨q, hq, hxq⟩) (by omega)

namespace Circuit
variable {c : Circuit} {q : Nat}

theorem foldl_draw_of_not_covers {n : Nat} (hq : q < n) {ops : List Op} (h : ∀ op ∈ ops, ¬ op.Covers n q)
    (cell : Cell) : ops.foldl (Cell.draw q) cell = cell := by
  induction ops with
  | nil => rfl
  | cons op ops ih =>
    obtain ⟨hop, hops⟩ := forall_mem_cons.1 h
    rw [foldl_cons, Cell.draw_of_not_covers hq hop, ih hops]

theorem find?_of_not_covers {n : Nat} {ops : List Op} (h : ∀ op ∈ ops, ¬ op.Covers n q) :
    ops.find? (·.qubits.contains q) = none := by
  rw [find?_eq_none]
  intro op hop hmem
  exact h op hop (Op.covers_of_mem (contains_iff_mem.1 hmem))

theorem cell_of_not_covers {step : Nat} (hq : q < c.numQubits)
    (h : ∀ op ∈ c.opsAt step, ¬ op.Covers c.numQubits q) : c.cell step q = {} := by
  rw [cell, opAt?, find?_of_not_covers h]
  exact foldl_draw_of_not_covers hq h _

/-- What a wire shows where one operation of the column covers it. -/
def drawAlone (op : Op) (q : Nat) : Cell :=
  Cell.draw q (if q ∈ op.qubits then { op := some op, role := op.role q } else {}) op

theorem cell_of_alone {before after : List Placed} {p : Placed} (hops : c.ops = before ++ p :: after)
    (hq : q < c.numQubits) (h : ∀ x ∈ before ++ after, x.step = p.step → ¬ x.Covers c.numQubits q) :
    c.cell p.step q = drawAlone p.toOp q := by
  have hsplit : c.opsAt p.step = (before.filter (·.step = p.step)).map (·.toOp) ++
      p.toOp :: (after.filter (·.step = p.step)).map (·.toOp) := by
    simp [opsAt, hops]
  have hrest : ∀ xs ⊆ before ++ after, ∀ op ∈ (xs.filter (·.step = p.step)).map (·.toOp),
      ¬ op.Covers c.numQubits q := by
    intro xs hxs op hop
    obtain ⟨x, hx, rfl⟩ := mem_map.1 hop
    obtain ⟨hx, hstep⟩ := mem_filter.1 hx
    exact h x (hxs hx) (of_decide_eq_true hstep)
  have hbefore := hrest before (subset_append_left ..)
  have hafter := hrest after (subset_append_right ..)
  have hstart : c.opAt? p.step q = if q ∈ p.qubits then some p.toOp else none := by
    rw [opAt?, hsplit, find?_append, find?_of_not_covers hbefore, Option.none_or, find?_cons,
      find?_of_not_covers hafter]
    by_cases hmem : q ∈ p.qubits <;> simp [hmem]
  rw [cell, hstart, hsplit, foldl_append, foldl_cons, foldl_draw_of_not_covers hq hbefore,
    foldl_draw_of_not_covers hq hafter, drawAlone]
  by_cases hmem : q ∈ p.qubits <;> simp [hmem]

/-- No cell of the grid mixes operations. A wire that an operation acts on shows that operation and no other,
with a line up if there is a smaller operand and a line down if there is a larger one; a wire between two
operands that is none itself shows a line that passes; a barrier without operands is shown on every wire; and
a wire that no operation of the column covers shows nothing. -/
theorem cell_eq_of_schedule {ops : List Op} (hops : c.ops = schedule c.numQubits ops)
    (hn : ∀ op ∈ ops, ∀ q ∈ op.qubits, q < c.numQubits) :
    (∀ before p after, c.ops = before ++ p :: after →
      (∀ q, p.Covers c.numQubits q → ∀ x ∈ before ++ after, x.step = p.step → ¬ x.Covers c.numQubits q) ∧
      (p.isBarrier = false → ∀ q ∈ p.qubits, c.cell p.step q =
        { op := some p.toOp, role := p.role q, above := decide (∃ a ∈ p.qubits, a < q),
          below := decide (∃ b ∈ p.qubits, q < b) }) ∧
      (∀ q ∉ p.qubits, (∃ a ∈ p.qubits, a < q) → (∃ b ∈ p.qubits, q < b) →
        c.cell p.step q = { above := true, below := true, through := true }) ∧
      (p.isBarrier = true → p.qubits = [] → ∀ q < c.numQubits,
        c.cell p.step q = { op := some p.toOp, barrier := true })) ∧
    (∀ step, ∀ q < c.numQubits, (∀ p ∈ c.ops, p.step = step → ¬ p.Covers c.numQubits q) →
      c.cell step q = {}) := by
  have hsched : IsSchedule c.numQubits c.ops := hops ▸ (IsSchedule.nil _).placeFrom (.start _) hn
  have hprogram : c.ops.map (·.toOp) = ops := hops ▸ toOp_placeFrom _ _ ops
  refine ⟨fun before p after hsplit => ?_, fun step q hq hfree => ?_⟩
  · have halone := fun q (hq : p.Covers c.numQubits q) => (hsplit ▸ hsched).alone hq
    have hmem : p.toOp ∈ ops := by
      rw [← hprogram, hsplit]
      simp
    have hcell : ∀ q, p.Covers c.numQubits q → c.cell p.step q = drawAlone p.toOp q :=
      fun q hq => cell_of_alone hsplit (hq.lt (hn _ hmem)) (halone q hq)
    refine ⟨halone, fun hb q hq => ?_, fun q hq hlt hgt => ?_, fun hb hnil q hq => ?_⟩
    · rw [hcell q (Op.covers_of_mem hq), drawAlone, if_pos hq, Cell.draw_operand hb hq]
    · obtain ⟨⟨a, ha, haq⟩, b, hb, hqb⟩ := And.intro hlt hgt
      rw [hcell q (.inr ⟨a, ha, b, hb, haq.le, hqb.le⟩), drawAlone, if_neg hq, Cell.draw_inside hq hlt hgt]
    · rw [hcell q (.inl ⟨hnil, hq⟩), drawAlone, if_neg (by simp [hnil]), Cell.draw_barrier hb hnil]
  · refine cell_of_not_covers hq fun op hop => ?_
    obtain ⟨p, hp, rfl⟩ := List.mem_map.1 hop
    obtain ⟨hp, hstep⟩ := List.mem_filter.1 hp
    exact hfree p hp (of_decide_eq_true hstep)

theorem cell_eq_of_schedule_crossing :
    (∀ op ∈ crossingOps, ∀ q ∈ op.qubits, q < 4) ∧
    let c : Circuit := ⟨4, schedule 4 crossingOps, false, false⟩
    c.cell 0 2 = { op := some ⟨"CNOT", [0, 2], []⟩, role := .target, above := true } ∧
    c.cell 0 1 = { above := true, below := true, through := true } ∧
    (∀ q < 4, c.cell 2 q = { op := some ⟨"BARRIER", [], []⟩, barrier := true }) ∧
    c.cell 0 3 = {} := by
  have hn : ∀ op ∈ crossingOps, ∀ q ∈ op.qubits, q < 4 := by decide
  obtain ⟨hcells, hempty⟩ := cell_eq_of_schedule (c := ⟨4, schedule 4 crossingOps, false, false⟩) rfl hn
  have hfirst := hcells [] ⟨⟨"CNOT", [0, 2], []⟩, 0⟩ (schedule 4 crossingOps).tail rfl
  have hbarrier := hcells ((schedule 4 crossingOps).take 2) ⟨⟨"BARRIER", [], []⟩, 2⟩
    ((schedule 4 crossingOps).drop 3) rfl
  refine ⟨hn, hfirst.2.1 rfl 2 (by decide), hfirst.2.2.1 1 (by decide) (by decide) (by decide),
    hbarrier.2.2.2 rfl rfl, hempty 0 3 (by decide) fun p hp hstep => ?_⟩
  have hcolumn : ∀ p ∈ schedule 4 crossingOps, p.step = 0 → p.qubits = [0, 2] := by decide
  simp [Op.Covers, hcolumn p hp hstep]

end Circuit
end QasmStudio

import Mathlib.Algebra.GroupWithZero.Nat
import QasmStudio.Circuit.Drawing
import QasmStudio.Proofs.Circuit.Schedule

/-!
# The layout of a drawing

A column is as wide as the widest label in it needs, so the box of an operation holds its whole label, and
each of the three lines of a cell fills the column (`cell_fills_column`). No length that a cell is drawn with is
negative there.

The lines of the grid start with the name of a wire or with spaces in its place. The columns that follow are
the longest run of columns that fits. Every line is as long as the others just if no name is longer than the
room for names (`grid_aligned`).
-/

namespace QasmStudio

open List

variable {k : Nat} {op : Op}

/-! ### Runs of characters -/

namespace Text

@[simp] theorem length_spaces (n : Nat) : (spaces n).length = n := length_replicate

@[simp] theorem length_center (cs : List Char) (width : Nat) : (center cs width).length = width := by
  simp only [center, length_append, length_spaces, length_take]
  omega

theorem infix_center {cs : List Char} {width : Nat} (h : cs.length ≤ width) : cs <:+: center cs width := by
  rw [center, take_of_length_le h]
  exact ⟨_, _, rfl⟩

@[simp] theorem length_padRight (cs : List Char) (width : Nat) :
    (padRight cs width).length = max width cs.length := by
  simp only [padRight, length_append, length_spaces]
  omega

theorem run?_of_nonneg {n : Int} (h : 0 ≤ n) (c : Char) : run? c n = .ok (replicate n.toNat c) := if_neg (by omega)

theorem center?_of_nonneg {n : Int} (h : 0 ≤ n) (cs : List Char) : center? cs n = .ok (center cs n.toNat) :=
  if_neg (by omega)

end Text

open Text (spaces run? run?_of_nonneg)

@[simp] theorem length_dashes (n : Nat) : (dashes n).length = n := length_replicate

/-! ### Cells -/

/-- Each of the three lines has `w` characters. -/
structure Picture.Fills (p : Picture) (w : Nat) : Prop where
  top : p.top.length = w
  mid : p.mid.length = w
  bot : p.bot.length = w

namespace Cell
variable {w : Nat} {cell : Cell}

theorem around?_ok {left w : Int} (h : 0 ≤ left) (hw : left < w) (c symbol : Char) :
    ∃ cs, around? c left symbol w = .ok cs ∧ (cs.length : Int) = w := by
  refine ⟨replicate left.toNat c ++ symbol :: replicate (w - left - 1).toNat c, ?_, ?_⟩
  · rw [around?, run?_of_nonneg h, run?_of_nonneg (by omega)]
    rfl
  · simp only [length_append, length_cons, length_replicate]
    omega

theorem vertical?_ok {w : Int} (h : 0 < w) : ∃ cs, vertical? w = .ok cs ∧ (cs.length : Int) = w := by
  have hhalf := Int.tdiv_eq_ediv_of_nonneg (b := 2) (show 0 ≤ w by omega)
  exact around?_ok (by omega) (by omega) _ _

theorem wire?_ok {w : Int} (h : 0 < w) (symbol : Char) : ∃ cs, wire? w symbol = .ok cs ∧ (cs.length : Int) = w := by
  have hhalf := Int.tdiv_eq_ediv_of_nonneg (b := 2) (show 0 ≤ w - 1 by omega)
  exact around?_ok (by omega) (by omega) _ _

theorem side?_ok {inner : Int} (h : 0 < inner) (left right : Char) (join : Option Char) :
    ∃ cs, side? inner left right join = .ok cs ∧ (cs.length : Int) = inner + 4 := by
  obtain ⟨middle, hmiddle, hlength⟩ : ∃ cs, join.elim (pure (replicate inner.toNat '─')) (wire? inner) = .ok cs ∧
      (cs.length : Int) = inner := by
    cases join with
    | none => exact ⟨_, rfl, by simp; omega⟩
    | some c => exact wire?_ok h c
  refine ⟨' ' :: left :: middle ++ [right, ' '], ?_, by simp; omega⟩
  rw [side?, run?_of_nonneg (by omega)]
  simp only [Bind.bind, Except.bind, hmiddle]
  rfl

/-- In a column that has room for its label a box holds it. -/
theorem box?_ok (cell : Cell) (label : List Char) (h : 4 < w) :
    ∃ p, cell.box? label w = .ok p ∧ p.Fills w ∧ (label.length + 4 ≤ w → label <:+: p.mid) := by
  have hinner : 0 < (w : Int) - 4 := by omega
  have hcenter := Text.center?_of_nonneg (n := (w : Int) - 4) (by omega) label
  obtain ⟨top, htop, hlt⟩ := side?_ok hinner '┌' '┐' (if cell.above then some '┴' else none)
  obtain ⟨bot, hbot, hlb⟩ := side?_ok hinner '└' '┘' (if cell.below then some '┬' else none)
  refine ⟨⟨top, '─' :: '┤' :: Text.center label ((w : Int) - 4).toNat ++ ['├', '─'], bot⟩, ?_,
    ⟨show top.length = w by omega, ?_, show bot.length = w by omega⟩, fun hlabel => ?_⟩
  · rw [box?, hcenter, htop, hbot]
    rfl
  · simp
    omega
  · have hinfix : label <:+: Text.center label ((w : Int) - 4).toNat := Text.infix_center (by omega)
    exact hinfix.trans (infix_append' ['─', '┤'] _ ['├', '─'])

/-- The operation that a cell shows as a box. -/
def boxed? (cell : Cell) : Option Op :=
  if cell.barrier || cell.symbol?.isSome then none else cell.op

/-- In a column that has room for a box no length is negative. -/
theorem picture?_ok (cell : Cell) (h : 4 < w) : ∃ p, cell.picture? w = .ok p ∧ p.Fills w ∧
    ∀ op, cell.boxed? = some op → cell.box? op.label w = .ok p := by
  have hpos : 0 < (w : Int) := by omega
  obtain ⟨line, hline, hlength⟩ := vertical?_ok hpos
  have hvertical : line.length = w := Int.ofNat.inj hlength
  have hside : ∀ b : Bool, (if b then line else replicate w ' ').length = w := by
    intro b
    cases b with
    | false => exact length_replicate
    | true => exact hvertical
  unfold picture?
  rw [run?_of_nonneg (by omega), hline]
  simp only [Bind.bind, Except.bind]
  split
  · rename_i hbarrier
    obtain ⟨mid, hmid, hm⟩ := wire?_ok hpos '│'
    rw [hmid]
    exact ⟨_, rfl, ⟨hvertical, Int.ofNat.inj hm, hvertical⟩, by simp [boxed?, hbarrier]⟩
  split
  · rename_i c hsymbol
    obtain ⟨mid, hmid, hm⟩ := wire?_ok hpos c
    rw [hmid]
    exact ⟨_, rfl, ⟨hside _, Int.ofNat.inj hm, hside _⟩, by simp [boxed?, hsymbol]⟩
  rename_i hbarrier _ hsymbol
  have hboxed : cell.boxed? = cell.op := by simp [boxed?, hbarrier, hsymbol]
  rw [hboxed]
  split
  · rename_i op hop
    obtain ⟨p, hp, hfills, -⟩ := box?_ok cell op.label h
    refine ⟨p, hp, hfills, fun op' hop' => ?_⟩
    cases hop.symm.trans hop'
    exact hp
  · rename_i hop
    rw [hop]
    split
    · obtain ⟨mid, hmid, hm⟩ := wire?_ok hpos '┼'
      rw [hmid]
      exact ⟨_, rfl, ⟨hvertical, Int.ofNat.inj hm, hvertical⟩, nofun⟩
    · rw [run?_of_nonneg (by omega)]
      exact ⟨_, rfl, ⟨hside _, length_replicate, hside _⟩, nofun⟩

/-! ### The operation of a cell -/

/-- Drawing over a cell that is no barrier afterwards leaves its operation. -/
theorem draw_of_barrier_eq_false {q : Nat} (h : (draw q cell op).barrier = false) :
    cell.barrier = false ∧ (draw q cell op).op = cell.op ∧ (q ∈ op.qubits → op.isBarrier = false) := by
  unfold draw at h ⊢
  split at h
  · cases h
  · rename_i hno
    have hother : q ∈ op.qubits → op.isBarrier = false := by
      intro hq
      simpa [hq] using hno
    rw [if_neg hno]
    split
    · rename_i hlen
      rw [if_pos hlen] at h
      exact ⟨h, rfl, hother⟩
    · rename_i hlen
      rw [if_neg hlen] at h
      cases hb : op.bounds? with
      | none =>
        rw [hb] at h
        exact ⟨h, rfl, hother⟩
      | some b =>
        obtain ⟨lo, hi⟩ := b
        rw [hb] at h
        dsimp only at h ⊢
        split at h
        · rename_i hout
          rw [if_pos hout]
          exact ⟨h, rfl, hother⟩
        · rename_i hout
          rw [if_neg hout]
          exact ⟨h, rfl, hother⟩

theorem foldl_draw_of_barrier_eq_false {q : Nat} {ops : List Op}
    (h : (ops.foldl (draw q) cell).barrier = false) : cell.barrier = false ∧
      (ops.foldl (draw q) cell).op = cell.op ∧ ∀ op ∈ ops, q ∈ op.qubits → op.isBarrier = false := by
  induction ops generalizing cell with
  | nil => exact ⟨h, rfl, fun _ hop => absurd hop not_mem_nil⟩
  | cons op ops ih =>
    obtain ⟨hbarrier, hop, hops⟩ := ih h
    obtain ⟨hcell, hkept, hfirst⟩ := draw_of_barrier_eq_false hbarrier
    exact ⟨hcell, hop.trans hkept, forall_mem_cons.2 ⟨hfirst, hops⟩⟩

end Cell

theorem Op.length_label_le (op : Op) : op.label.length + 4 ≤ op.width := by
  unfold width
  split <;> omega

namespace Circuit

theorem mem_of_boxed? {c : Circuit} {step qubit : Nat} (h : (c.cell step qubit).boxed? = some op) :
    op ∈ c.opsAt step ∧ qubit ∈ op.qubits ∧ op.isBarrier = false := by
  unfold Cell.boxed? at h
  split at h
  · cases h
  · rename_i hno
    have hbarrier : (c.cell step qubit).barrier = false := by
      cases hb : (c.cell step qubit).barrier with
      | false => rfl
      | true => simp [hb] at hno
    obtain ⟨-, hop, hops⟩ := Cell.foldl_draw_of_barrier_eq_false hbarrier
    rw [cell, hop] at h
    cases hat : c.opAt? step qubit with
    | none =>
      rw [hat] at h
      cases h
    | some first =>
      rw [hat] at h
      cases h
      have hmem : op ∈ c.opsAt step := mem_of_find?_eq_some hat
      have hcontains : op.qubits.contains qubit = true :=
        find?_some (p := fun op : Op => op.qubits.contains qubit) hat
      have hqubit : qubit ∈ op.qubits := contains_iff_mem.1 hcontains
      exact ⟨hmem, hqubit, hops op hmem hqubit⟩

/-! ### Columns -/

variable (c : Circuit)

theorem columnWidth_eq (step : Nat) : c.columnWidth step =
    (((c.opsAt step).filter (!·.isBarrier)).map Op.width).foldl max leastWidth := by
  rw [foldl_map]
  rfl

theorem leastWidth_le_columnWidth (step : Nat) : leastWidth ≤ c.columnWidth step := by
  rw [columnWidth_eq]
  exact le_foldl_max_iff.2 ⟨leastWidth, mem_cons_self, le_rfl⟩

theorem width_le_columnWidth {c : Circuit} {step : Nat} (h : op ∈ c.opsAt step) (hb : op.isBarrier = false) :
    op.width ≤ c.columnWidth step := by
  have hmem : op ∈ (c.opsAt step).filter (!·.isBarrier) := mem_filter.2 ⟨h, by rw [hb]; rfl⟩
  rw [columnWidth_eq]
  exact le_foldl_max_iff.2 ⟨op.width, mem_cons_of_mem _ (mem_map_of_mem hmem), le_rfl⟩

theorem four_lt_columnWidth (step : Nat) : 4 < c.columnWidth step :=
  lt_of_lt_of_le (by decide) (c.leastWidth_le_columnWidth step)

/-- A cell is drawn with lengths that are not negative, its three lines are as wide as the column, and a box
holds the whole label of its operation. -/
theorem cell_fills_column (step qubit : Nat) :
    ∃ p, (c.cell step qubit).picture? (c.columnWidth step) = .ok p ∧ p.Fills (c.columnWidth step) ∧
      ∀ op, (c.cell step qubit).boxed? = some op →
        (c.cell step qubit).box? op.label (c.columnWidth step) = .ok p ∧ op.label <:+: p.mid := by
  have hwide := c.four_lt_columnWidth step
  obtain ⟨p, hp, hfills, hbox⟩ := Cell.picture?_ok (c.cell step qubit) hwide
  refine ⟨p, hp, hfills, fun op hop => ⟨hbox op hop, ?_⟩⟩
  obtain ⟨hmem, -, hbarrier⟩ := mem_of_boxed? hop
  obtain ⟨p', hp', -, hlabel⟩ := Cell.box?_ok (c.cell step qubit) op.label hwide
  cases (hbox op hop).symm.trans hp'
  exact hlabel (op.length_label_le.trans (width_le_columnWidth hmem hbarrier))

/-- A gate with an angle over three wires, and a gate with a short label in its column. -/
def labelledCircuit : Circuit :=
  ⟨4, schedule 4 [⟨"XX", [2, 0], [0.5]⟩, ⟨"H", [3], []⟩], false, false⟩

theorem cell_fills_column_angle : ∃ op p, (labelledCircuit.cell 0 0).boxed? = some op ∧
    op.label = "XX(0.5)".toList ∧ labelledCircuit.columnWidth 0 = 11 ∧
    (labelledCircuit.cell 0 0).picture? 11 = .ok p ∧ p.Fills 11 ∧ op.label <:+: p.mid := by
  have hwidth : labelledCircuit.columnWidth 0 = 11 := by decide +kernel
  obtain ⟨p, hp, hfills, hbox⟩ := labelledCircuit.cell_fills_column 0 0
  rw [hwidth] at hp hfills
  exact ⟨_, p, rfl, by decide +kernel, hwidth, hp, hfills, (hbox _ rfl).2⟩

/-! ### The columns that are shown -/

def extent (k : Nat) : Nat := ((List.range k).map c.columnWidth).sum

/-- A column is shown as long as the columns up to it fit. -/
theorem fitting_spec (room : Int) (ws : List Nat) : fitting room ws ≤ ws.length ∧
      (fitting room ws = 0 ∨ ((ws.take (fitting room ws)).sum : Int) ≤ room) ∧
      ∀ j ≤ ws.length, ((ws.take j).sum : Int) ≤ room → j ≤ fitting room ws := by
  induction ws generalizing room with
  | nil => exact ⟨le_rfl, .inl rfl, fun j hj _ => hj⟩
  | cons w ws ih =>
    obtain ⟨hlen, hfits, hmost⟩ := ih (room - w)
    unfold fitting
    split
    · rename_i hw
      refine ⟨Nat.succ_le_succ hlen, .inr ?_, fun j hj hsum => ?_⟩
      · rw [take_succ_cons, sum_cons]
        rcases hfits with hzero | hle
        · rw [hzero, take_zero, sum_nil]
          exact hw
        · omega
      · cases j with
        | zero => exact Nat.zero_le _
        | succ j =>
          rw [take_succ_cons, sum_cons] at hsum
          exact Nat.succ_le_succ (hmost j (Nat.le_of_succ_le_succ hj) (by omega))
    · rename_i hw
      refine ⟨Nat.zero_le _, .inl rfl, fun j hj hsum => ?_⟩
      cases j with
      | zero => exact le_rfl
      | succ j =>
        rw [take_succ_cons, sum_cons] at hsum
        omega

theorem sum_take_columnWidths (h : k ≤ c.steps) : (c.columnWidths.take k).sum = c.extent k := by
  rw [columnWidths, ← map_take, take_range, Nat.min_eq_left h]
  rfl

/-- The first columns with their widths, as many as fit and no fewer. -/
theorem shown_spec (width : Int) : ∃ k ≤ c.steps,
    c.shown width = (List.range k).map (fun step => (step, c.columnWidth step)) ∧
      (k = 0 ∨ (c.extent k : Int) ≤ width - nameWidth) ∧
      ∀ j ≤ c.steps, (c.extent j : Int) ≤ width - nameWidth → j ≤ k := by
  have hlength : c.columnWidths.length = c.steps := by simp [columnWidths]
  obtain ⟨hlen, hfits, hmost⟩ := fitting_spec (width - nameWidth) c.columnWidths
  rw [hlength] at hlen hmost
  refine ⟨_, hlen, ?_, ?_, fun j hj hsum => hmost j hj ?_⟩
  · have hzip : (List.range c.steps).zip c.columnWidths =
        (List.range c.steps).map fun step => (step, c.columnWidth step) := by
      have hmap : ((List.range c.steps).map id).zip ((List.range c.steps).map c.columnWidth) =
          (List.range c.steps).map fun step => (step, c.columnWidth step) := zip_map'
      rwa [map_id] at hmap
    rw [shown, hzip, ← map_take, take_range, Nat.min_eq_left hlen]
  · rwa [sum_take_columnWidths c hlen] at hfits
  · rwa [sum_take_columnWidths c hj]

/-! ### Lines of the grid -/

theorem length_flatMap_columns {f : Nat → List Char} (h : ∀ step, (f step).length = c.columnWidth step) :
    ((List.range k).flatMap f).length = c.extent k := by
  rw [length_flatMap, extent]
  exact congrArg List.sum (map_congr_left fun step _ => h step)

theorem length_header (k : Nat) :
    (header ((List.range k).map fun step => (step, c.columnWidth step))).length = nameWidth + c.extent k := by
  rw [header, length_append, Text.length_spaces, flatMap_map]
  exact congrArg (nameWidth + ·) (c.length_flatMap_columns fun _ => Text.length_center ..)

/-- The lines above and below a wire are as long as the header. The wire itself is longer by what its name
takes more than the room for names. -/
theorem length_wireLines (k qubit : Nat) : ∃ top mid bot,
    c.wireLines ((List.range k).map fun step => (step, c.columnWidth step)) qubit = .ok [top, mid, bot] ∧
      top.length = nameWidth + c.extent k ∧
      mid.length = nameWidth + c.extent k + ((c.wireName qubit).length - (nameWidth - 2)) ∧
      bot.length = nameWidth + c.extent k := by
  choose p hp hfills _ using fun step => Cell.picture?_ok (c.cell step qubit) (c.four_lt_columnWidth step)
  have hpictures : ((List.range k).map fun step => (step, c.columnWidth step)).mapM
      (fun x => (c.cell x.1 qubit).picture? x.2) = .ok ((List.range k).map p) := by
    rw [mapM_map]
    exact (congrArg (mapM · _) (funext hp)).trans mapM_pure
  have hlines : ∀ {line : Picture → List Char}, (∀ step, (line (p step)).length = c.columnWidth step) →
      (((List.range k).map p).flatMap line).length = c.extent k := by
    intro line hline
    rw [flatMap_map]
    exact c.length_flatMap_columns hline
  refine ⟨_, _, _, by rw [wireLines, hpictures]; rfl, ?_, ?_, ?_⟩
  · rw [length_append, Text.length_spaces, hlines fun step => (hfills step).top]
  · rw [length_append, length_append, Text.length_padRight, length_dashes, hlines fun step => (hfills step).mid]
    unfold nameWidth
    omega
  · rw [length_append, Text.length_spaces, hlines fun step => (hfills step).bot]

/-- The number of wires whose names fit in the room for names. -/
def namedWires : Nat := if c.physical then 10000 else 100

theorem length_wireName_le_iff (qubit : Nat) :
    (c.wireName qubit).length ≤ nameWidth - 2 ↔ qubit < c.namedWires := by
  have hdigits : ∀ k, 0 < k → ((Word.digits qubit).length ≤ k ↔ qubit < 10 ^ k) := fun k hk =>
    Nat.length_toDigits_le_iff (by decide) hk
  unfold wireName namedWires nameWidth
  split
  · have hfour := hdigits 4 (by decide)
    rw [length_cons]
    omega
  · have htwo := hdigits 2 (by decide)
    simp only [length_append, length_cons, length_nil]
    omega

/-- The shown columns are the longest run of columns that fits. The header and the lines above and below the
wires are as long as the room for names and these columns; the line of a wire is longer by as much as its name
is too long, so that the grid is aligned just if there is no wire after the hundredth, or the ten-thousandth
where the wires are physical qubits. -/
theorem grid_aligned (width : Int) : ∃ k ≤ c.steps,
    c.shown width = (List.range k).map (fun step => (step, c.columnWidth step)) ∧
      (k = 0 ∨ (c.extent k : Int) ≤ width - nameWidth) ∧
      (∀ j ≤ c.steps, (c.extent j : Int) ≤ width - nameWidth → j ≤ k) ∧
      (header (c.shown width)).length = nameWidth + c.extent k ∧
      (∀ qubit, ∃ top mid bot, c.wireLines (c.shown width) qubit = .ok [top, mid, bot] ∧
        top.length = nameWidth + c.extent k ∧
        mid.length = nameWidth + c.extent k + ((c.wireName qubit).length - (nameWidth - 2)) ∧
        bot.length = nameWidth + c.extent k) ∧
      ∃ lines, c.grid (c.shown width) = .ok lines ∧
        ((∀ line ∈ lines, line.length = nameWidth + c.extent k) ↔ c.numQubits ≤ c.namedWires) := by
  obtain ⟨k, hk, hshown, hfits, hmost⟩ := c.shown_spec width
  refine ⟨k, hk, hshown, hfits, hmost, ?_, ?_, ?_⟩
  · rw [hshown]
    exact c.length_header k
  · rw [hshown]
    exact c.length_wireLines k
  rw [hshown]
  choose top mid bot hlines htop hmid hbot using c.length_wireLines k
  have hwires : (List.range c.numQubits).mapM
      (c.wireLines ((List.range k).map fun step => (step, c.columnWidth step))) =
      .ok ((List.range c.numQubits).map fun qubit => [top qubit, mid qubit, bot qubit]) :=
    (congrArg (mapM · _) (funext hlines)).trans mapM_pure
  refine ⟨_, by rw [grid, hwires]; rfl, fun hall => ?_, fun hfew line hline => ?_⟩
  · by_contra hmany
    -- the first wire whose name is too long
    have hname := (c.length_wireName_le_iff c.namedWires).not.2 (lt_irrefl _)
    have hlen := hall (mid c.namedWires) (List.mem_cons_of_mem _ (List.mem_flatten.2
      ⟨_, List.mem_map_of_mem (List.mem_range.2 (by omega : c.namedWires < c.numQubits)), by simp⟩))
    have hlonger := hmid c.namedWires
    omega
  · rcases List.mem_cons.1 hline with rfl | hline
    · exact c.length_header k
    · obtain ⟨_, hlines, hline⟩ := List.mem_flatten.1 hline
      obtain ⟨qubit, hqubit, rfl⟩ := List.mem_map.1 hlines
      have hname := (c.length_wireName_le_iff qubit).2 (by have := List.mem_range.1 hqubit; omega)
      simp only [List.mem_cons, List.not_mem_nil, or_false] at hline
      rcases hline with rfl | rfl | rfl
      · exact htop qubit
      · have hlonger := hmid qubit
        omega
      · exact hbot qubit

def wideCircuit : Circuit := ⟨101, schedule 101 [⟨"H", [0], []⟩], false, false⟩

/-- The line of the last wire is longer than the header. -/
theorem wideCircuit_not_aligned : (header (wideCircuit.shown 80)).length = 14 ∧
    ∃ lines, wideCircuit.grid (wideCircuit.shown 80) = .ok lines ∧ ∃ line ∈ lines, line.length = 15 :=
  ⟨by decide +kernel, _, rfl, by decide +kernel⟩

end Circuit

end QasmStudio

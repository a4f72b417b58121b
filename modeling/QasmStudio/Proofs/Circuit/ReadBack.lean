import QasmStudio.Proofs.Circuit.Draw
import QasmStudio.Proofs.Circuit.Schedule
import Mathlib.Order.Bounds.Defs

/-!
# Reading programs back

The circuit that is read from the text of a legible program has the operations outside of control flow
in their order, each with its name, its operands and as many angles, and it notes whether there is
control flow.
-/

namespace QasmStudio

open List

namespace Stmt

theorem allLines_append (xs ys : List Stmt) : allLines (xs ++ ys) = allLines xs ++ allLines ys := by
  induction xs with
  | nil => rfl
  | cons x xs ih =>
    show x.lines ++ allLines (xs ++ ys) = x.lines ++ allLines xs ++ allLines ys
    rw [ih, append_assoc]

theorem allDrawn_append (xs ys : List Stmt) : allDrawn (xs ++ ys) = allDrawn xs ++ allDrawn ys := by
  induction xs with
  | nil => rfl
  | cons x xs ih =>
    show x.drawn ++ allDrawn (xs ++ ys) = x.drawn ++ allDrawn xs ++ allDrawn ys
    rw [ih, append_assoc]

theorem anyControl_append (xs ys : List Stmt) : anyControl (xs ++ ys) = (anyControl xs || anyControl ys) := by
  induction xs with
  | nil => rfl
  | cons x xs ih =>
    show (x.hasControl || anyControl (xs ++ ys)) = (x.hasControl || anyControl xs || anyControl ys)
    rw [ih, Bool.or_assoc]

end Stmt

namespace Sketch

variable {s : Sketch}

/-- The declaration of the register gives the number of qubits, unless that is not positive. -/
theorem take_register (hs : s.subroutines = []) (hzero : s.numQubits = 0) {n : Int} (hn : n ≤ Word.largest) :
    s.take (.declare ⟨registerName, some (.qubit n), none⟩) = { s with numQubits := n.toNat } := by
  rw [take_eq_note hs .declare]
  have hline : ∀ cs, (Ty.qubit n).text = cs → written (.declare ⟨registerName, some (.qubit n), none⟩) ++ [';'] =
      cs ++ ' ' :: (registerName.toList ++ [';']) := by
    rintro _ rfl
    show (Ty.qubit n).text ++ ' ' :: (registerName.toList ++ []) ++ [';'] = _
    simp
  by_cases hpos : 0 < n
  · obtain ⟨k, rfl⟩ := Int.eq_ofNat_of_zero_le hpos.le
    have hsized : (Ty.qubit k).text = "qubit".toList ++ '[' :: (Word.digits k ++ [']']) := if_pos hpos
    have hread := Statement.read_register hn
    rw [hline _ hsized,
      show "qubit".toList ++ '[' :: (Word.digits k ++ [']']) ++ ' ' :: (registerName.toList ++ [';']) =
      "qubit[".toList ++ (Word.digits k ++ ']' :: ' ' :: (registerName.toList ++ [';'])) by simp, hread]
    rfl
  · have hsized : (Ty.qubit n).text = "qubit".toList := if_neg hpos
    rw [hline _ hsized, Int.toNat_of_nonpos (not_lt.1 hpos), ← hzero]
    rfl

/-- The sketch of a program that draws `ds` on a register of `n` qubits. -/
def sketchOf (n : Nat) (ds : List Drawn) (control : Bool) : Sketch :=
  { Sketch.draw {} ds control with numQubits := n }

theorem foldl_take_registered (hs : s.subroutines = []) (hzero : s.numQubits = 0) {size : Option Int}
    (hsize : ∀ n, size = some n → n ≤ Word.largest) {rest : List Stmt} (hrest : ∀ st ∈ rest, st.Legible)
    (hfits : ∀ d ∈ Stmt.allDrawn rest, d.Fits) :
    (Stmt.allLines ((size.map fun n =>
        Stmt.declare ⟨registerName, some (.qubit n), none⟩).toList ++ rest)).foldl take s =
      { s.draw (Stmt.allDrawn rest) (Stmt.anyControl rest) with numQubits := (size.getD 0).toNat } := by
  have hall : ∀ s : Sketch, s.subroutines = [] → (Stmt.allLines rest).foldl take s =
      s.draw (Stmt.allDrawn rest) (Stmt.anyControl rest) :=
    fun s hs => foldl_take_allLines (fun st hst => foldl_take_lines (hrest st hst)) hs hfits
  cases size with
  | none =>
    refine (hall s hs).trans ?_
    rw [Option.getD_none, Int.toNat_zero, ← hzero]
    rfl
  | some n =>
    show (Stmt.allLines rest).foldl take (s.take _) = _
    rw [take_register hs hzero (hsize n rfl)]
    exact hall _ hs

theorem reads_of_legible {p : Program} {size : Option Int} (h : p.Legible size)
    (hsize : ∀ n, size = some n → n ≤ Word.largest) (hfits : ∀ d ∈ Stmt.allDrawn p.body, d.Fits) :
    reads {} p.text = sketchOf (size.getD 0).toNat (Stmt.allDrawn p.body) (Stmt.anyControl p.body) := by
  obtain ⟨before, after, htop, hlegible⟩ := h.top
  have hfirst : ∀ st ∈ p.pending.map Stmt.declare ++ before, st.Legible := by
    intro st hst
    rcases mem_append.1 hst with hst | hst
    · obtain ⟨v, hv, rfl⟩ := mem_map.1 hst
      exact h.pending v hv
    · exact hlegible st (mem_append_left _ hst)
  have hsplit : p.body = (p.pending.map .declare ++ before) ++
      ((size.map fun n => Stmt.declare ⟨registerName, some (.qubit n), none⟩).toList ++ after) := by
    rw [Program.body, htop, append_assoc]
  -- the declaration of the register draws nothing
  have hdrawn : Stmt.allDrawn p.body = Stmt.allDrawn (p.pending.map .declare ++ before) ++ Stmt.allDrawn after := by
    rw [hsplit, Stmt.allDrawn_append]
    cases size with
    | none => rfl
    | some n => rfl
  have hcontrol : Stmt.anyControl p.body =
      (Stmt.anyControl (p.pending.map .declare ++ before) || Stmt.anyControl after) := by
    rw [hsplit, Stmt.anyControl_append]
    cases size with
    | none => rfl
    | some n => rfl
  have hunbroken : p.Unbroken := by
    refine ⟨h.gates, h.calibrations, by rw [h.subroutines]; exact fun _ hd => absurd hd not_mem_nil, ?_⟩
    rw [hsplit]
    refine forall_mem_append.2 ⟨fun st hst => (hfirst st hst).unbroken, forall_mem_append.2
      ⟨fun st hst => ?_, fun st hst => (hlegible st (mem_append_right _ hst)).unbroken⟩⟩
    obtain ⟨n, -, rfl⟩ := Option.map_eq_some_iff.1 (Option.mem_toList.1 hst)
    have hty := newline_not_mem_tyText (some (.qubit n))
    refine .declare ?_
    show '\n' ∉ tyText (some (.qubit n)) ++ ' ' :: (registerName.toList ++ [])
    simp [hty, show '\n' ∉ registerName.toList by decide]
  rw [hdrawn] at hfits ⊢
  rw [reads_program hunbroken (by rw [h.subroutines]; exact fun _ hd => absurd hd not_mem_nil), h.subroutines,
    sketchOf, hcontrol, ← draw_draw, hsplit, Stmt.allLines_append, foldl_append,
    foldl_take_allLines (fun st hst => foldl_take_lines (hfirst st hst)) rfl
      fun d hd => hfits d (mem_append_left _ hd)]
  exact foldl_take_registered rfl rfl hsize (fun st hst => hlegible st (mem_append_right _ hst))
    fun d hd => hfits d (mem_append_right _ hd)

/-! ### The number of wires -/

theorem foldl_max_le {f : Nat → Nat} {qs : List Nat} {n b : Nat} :
    qs.foldl (fun n q => max n (f q)) n ≤ b ↔ n ≤ b ∧ ∀ q ∈ qs, f q ≤ b := by
  induction qs generalizing n with
  | nil => simp
  | cons q qs ih =>
    rw [foldl_cons, ih, max_le_iff, forall_mem_cons, and_assoc]

/-- The wires of a sketch are the fewest that the register and the operands need. -/
theorem wires_le_iff (h : ∀ op ∈ s.ops, ∀ q ∈ op.qubits, (q : Int) < Word.largest) {b : Nat} :
    s.wires ≤ b ↔ s.numQubits ≤ b ∧ ∀ op ∈ s.ops, ∀ q ∈ op.qubits, q < b := by
  have hsucc : ∀ op ∈ s.ops, ∀ q ∈ op.qubits, (Word.add q 1).toNat = q + 1 := by
    intro op hop q hq
    rw [Word.add_one ⟨Int.natCast_nonneg q, h op hop q hq⟩]
    rfl
  unfold wires
  rw [foldl_max_le, forall_mem_flatMap]
  refine and_congr_right fun _ => forall₂_congr fun op hop => forall₂_congr fun q hq => ?_
  rw [hsucc op hop q hq, Nat.succ_le_iff]

theorem reverse_ops_sketchOf (n : Nat) (ds : List Drawn) (b : Bool) :
    (sketchOf n ds b).ops.reverse = ds.map Drawn.op := by
  show ((ds.map Drawn.op).reverse ++ []).reverse = _
  rw [append_nil, reverse_reverse]

theorem wires_sketchOf_le_iff {ds : List Drawn} (h : ∀ d ∈ ds, ∀ w ∈ d.wires, (w.index : Int) < Word.largest)
    {n : Nat} {b : Bool} {m : Nat} :
    (sketchOf n ds b).wires ≤ m ↔ n ≤ m ∧ ∀ d ∈ ds, ∀ w ∈ d.wires, w.index < m := by
  have hqubits : ∀ P : Nat → Prop, (∀ op ∈ (sketchOf n ds b).ops, ∀ q ∈ op.qubits, P q) ↔
      ∀ d ∈ ds, ∀ w ∈ d.wires, P w.index := by
    intro P
    have hmem : ∀ op, op ∈ (sketchOf n ds b).ops ↔ op ∈ ds.map Drawn.op := fun op => by
      rw [← reverse_ops_sketchOf n ds b, mem_reverse]
    simp [hmem, Drawn.op]
  rw [wires_le_iff ((hqubits _).2 h), hqubits]
  rfl

end Sketch

/-! ### Circuits -/

namespace Circuit

theorem read_of_lines {cs : List Char} {s : Sketch} (hs : (Text.split '\n' cs).foldl Sketch.line {} = s)
    (hwires : (s.wires : Int) ≤ Fault.longest) :
    read cs = .ok ⟨s.wires, schedule s.wires s.ops.reverse, s.classical, s.physical⟩ := by
  have hlength : Fault.length s.wires = .ok s.wires := by
    rw [Fault.length, if_neg (by omega), if_neg (by omega)]
    rfl
  unfold read
  rw [hs]
  simp only [hlength]
  rfl

theorem summary_schedule (n : Nat) (ops : List Op) :
    (schedule n ops).map (fun op => (op.name, op.qubits, op.params.length)) =
      ops.map fun op => (op.name, op.qubits, op.params.length) := by
  have hops : (schedule n ops).map (·.toOp) = ops := toOp_placeFrom n _ ops
  nth_rewrite 2 [← hops]
  rw [map_map]
  rfl

theorem summary_op (ds : List Drawn) : (ds.map Drawn.op).map (fun op => (op.name, op.qubits, op.params.length)) =
      ds.map fun d => (d.name, d.wires.map Wire.index, d.angles.length) := by
  rw [map_map]
  refine map_congr_left fun d _ => ?_
  have hlength : d.op.params.length = d.angles.length :=
    isSome_filterMap_length fun x _ => Angle.isSome_read?_text x
  show (d.name, d.wires.map Wire.index, d.op.params.length) = _
  rw [hlength]

/-- The circuit of a legible program: one operation for each call, measurement, reset and barrier outside
of control flow, in order, on the fewest wires. -/
theorem read_text_of_legible {p : Program} {size : Option Int} (h : p.Legible size)
    (hsize : ∀ n, size = some n → n ≤ Fault.longest)
    (hindex : ∀ d ∈ Stmt.allDrawn p.body, ∀ w ∈ d.wires, (w.index : Int) < Fault.longest) :
    ∃ c, read p.text = .ok c ∧
      c.ops.map (fun op => (op.name, op.qubits, op.params.length)) =
        (Stmt.allDrawn p.body).map (fun d => (d.name, d.wires.map Wire.index, d.angles.length)) ∧
      c.classical = Stmt.anyControl p.body ∧
      c.physical = (Stmt.allDrawn p.body).any (fun d => d.wires.any Wire.isPhysical) ∧
      IsLeast {n : Nat | size.getD 0 ≤ n ∧ ∀ d ∈ Stmt.allDrawn p.body, ∀ w ∈ d.wires, w.index < n}
        c.numQubits := by
  have hlargest : Fault.longest ≤ Word.largest := by decide
  have hword : ∀ d ∈ Stmt.allDrawn p.body, ∀ w ∈ d.wires, (w.index : Int) < Word.largest :=
    fun d hd w hw => (hindex d hd w hw).trans_le hlargest
  have hreads := Sketch.reads_of_legible h (fun n hn => (hsize n hn).trans hlargest)
    fun d hd w hw => (hword d hd w hw).le
  have hwires : ∀ m : Nat,
      (Sketch.sketchOf (size.getD 0).toNat (Stmt.allDrawn p.body) (Stmt.anyControl p.body)).wires ≤ m ↔
        size.getD 0 ≤ m ∧ ∀ d ∈ Stmt.allDrawn p.body, ∀ w ∈ d.wires, w.index < m := fun m => by
    rw [Sketch.wires_sketchOf_le_iff hword, Int.toNat_le]
  have hlongest : (Sketch.sketchOf (size.getD 0).toNat (Stmt.allDrawn p.body) (Stmt.anyControl p.body)).wires ≤
      Fault.longest.toNat := by
    refine (hwires _).2 ⟨?_, fun d hd w hw => ?_⟩
    · cases size with
      | none => decide
      | some n => exact hsize n rfl
    · exact Int.ofNat_lt.1 (hindex d hd w hw)
  refine ⟨_, read_of_lines hreads (Int.ofNat_le.2 hlongest), ?_, rfl, rfl, (hwires _).1 le_rfl,
    fun m hm => (hwires m).2 hm⟩
  exact (summary_schedule _ _).trans (by rw [Sketch.reverse_ops_sketchOf, summary_op])

/-- A rotation, a box on both kinds of qubits, and a branch on what was measured. -/
def boxedProgram : Program where
  gates := [⟨"flip", [], [⟨"a", some (Ty.qubit 0), none⟩], []⟩]
  top := [
    .declare ⟨registerName, some (.qubit 2), none⟩,
    .gate "rx" [.angle 0.5] [.index registerExpr (.int 1)],
    .pragma "braket verbatim",
    .box [
      .gate "cnot" [] [.index registerExpr (.int 1), .physical 3],
      .declare ⟨"__bit_0__", some (Ty.bit 0), some (.measure (.index registerExpr (.int 1)))⟩],
    .branch (.var "__bit_0__" (some (Ty.bit 0)) none) [.reset (.index registerExpr (.int 0))] []]

theorem legible_boxedProgram : boxedProgram.Legible (some 2) where
  subroutines := rfl
  gates := forall_mem_singleton.2 ⟨by decide, by decide, fun _ h => absurd h not_mem_nil⟩
  calibrations := fun _ h => absurd h not_mem_nil
  pending := fun _ h => absurd h not_mem_nil
  top := by
    have hname : IsGenerated "__bit_0__" := ⟨.bit, "__bit_", 0, rfl, by decide⟩
    have hbox : ∀ st ∈ [Stmt.gate "cnot" [] [.index registerExpr (.int 1), .physical 3],
        .declare ⟨"__bit_0__", some (Ty.bit 0), some (.measure (.index registerExpr (.int 1)))⟩], st.Legible :=
      forall_mem_cons.2 ⟨@Stmt.Legible.gate "cnot" [] _ (by decide) (by decide) (by decide),
        forall_mem_singleton.2 (.measure hname rfl)⟩
    have hthen : ∀ st ∈ [Stmt.reset (.index registerExpr (.int 0))], st.Legible :=
      forall_mem_singleton.2 (.reset rfl)
    refine ⟨[], _, rfl, forall_mem_cons.2 ⟨?_, forall_mem_cons.2 ⟨.pragma (by decide),
      forall_mem_cons.2 ⟨.box hbox, forall_mem_singleton.2 ?_⟩⟩⟩⟩
    · exact @Stmt.Legible.gate "rx" [0.5] _ (by decide) (by decide) (by decide)
    · exact .branch (.var hname) hthen fun _ h => absurd h not_mem_nil

theorem read_boxedProgram : boxedProgram.Legible (some 2) ∧ ∃ c, read boxedProgram.text = .ok c ∧
    c.ops.map (fun op => (op.name, op.qubits, op.params.length)) =
      [("RX", [1], 1), ("CNOT", [1, 3], 0), ("MEASURE", [1], 0)] ∧
    c.classical = true ∧ c.physical = true := by
  refine ⟨legible_boxedProgram, ?_⟩
  obtain ⟨c, hread, hops, hclassical, hphysical, -⟩ := read_text_of_legible legible_boxedProgram
    (fun n hn => by cases hn; decide) (by decide)
  exact ⟨c, hread, hops, hclassical, hphysical⟩

def singleGate (size n : Nat) : Program where
  top := [.declare ⟨registerName, some (.qubit size), none⟩, .gate "h" [] [.index registerExpr (.int n)]]

theorem legible_singleGate (size n : Nat) : (singleGate size n).Legible (some size) where
  subroutines := rfl
  gates := fun _ h => absurd h not_mem_nil
  calibrations := fun _ h => absurd h not_mem_nil
  pending := fun _ h => absurd h not_mem_nil
  top := ⟨[], _, rfl, forall_mem_singleton.2 <|
    @Stmt.Legible.gate "h" [] _ (by decide) (cons_ne_nil _ _) (forall_mem_singleton.2 rfl)⟩

/-- One gate, after the definition of another whose name holds a line break. -/
def brokenProgram : Program :=
  { singleGate 1 0 with gates := [⟨"a\nb", [], [⟨"q", some (Ty.qubit 0), none⟩], []⟩] }

/-- No condition can be left out: the table of wires up to a far index cannot be made, and the second line
of a broken header reads as the start of control flow. -/
theorem read_beyond_bounds :
    ((singleGate 9223372036854775807 9223372036854775806).Legible (some 9223372036854775807) ∧
      read (singleGate 9223372036854775807 9223372036854775806).text = .error .lengthOverflow) ∧
    ({ brokenProgram with gates := [] }.Legible (some 1) ∧ Stmt.anyControl brokenProgram.body = false ∧
      ∃ c, read brokenProgram.text = .ok c ∧ c.classical = true) :=
  ⟨⟨legible_singleGate 9223372036854775807 9223372036854775806, rfl⟩, legible_singleGate 1 0, rfl, _, rfl, rfl⟩

end Circuit

end QasmStudio

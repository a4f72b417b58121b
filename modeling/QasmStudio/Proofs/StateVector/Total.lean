import QasmStudio.Proofs.Circuit.Extent
import QasmStudio.StateVector.Simulate

/-!
# Simulation is total

A circuit that is read from a text has its operands among its wires, so no kernel leaves the vector of
amplitudes: `Circuit.simulate` gives a state or says why not. There is one exception, gates on two qubits
that are called with one operand.
-/

namespace QasmStudio

open List

/-! ### Kernels -/

namespace Kernel
variable {α : Type} {n : Nat} {v : Array α}

/-- The kernel gives a vector of the same size. -/
def Keeps (size : Nat) (r : Except Fault (Array α)) : Prop := ∃ w, r = .ok w ∧ w.size = size

theorem keeps_update (f g : α → α → α) {i j : Nat} (hi : i < v.size) (hj : j < v.size) :
    Keeps v.size (update f g v i j) := by
  unfold update
  rw [Array.getElem?_eq_getElem hi, Array.getElem?_eq_getElem hj]
  exact ⟨_, rfl, by simp⟩

theorem keeps_foldlM {f : Array α → Nat → Except Fault (Array α)} {is : List Nat}
    (hf : ∀ v : Array α, v.size = n → ∀ i ∈ is, Keeps n (f v i)) (hv : v.size = n) :
    Keeps n (is.foldlM f v) := by
  induction is generalizing v with
  | nil => exact ⟨v, rfl, hv⟩
  | cons i is ih =>
    obtain ⟨w, hw, hsize⟩ := hf v hv i (mem_cons_self ..)
    rw [foldlM_cons, hw]
    exact ih (fun v hv j hj => hf v hv j (mem_cons_of_mem _ hj)) hsize

/-- Every index is left alone or updated with another index of the vector. -/
theorem keeps_sweep {f : Array α → Nat → Except Fault (Array α)} {j : Nat → Nat} (hj : ∀ i < n, j i < n)
    (hf : ∀ v i, f v i = .ok v ∨ ∃ g h, f v i = update g h v i (j i)) (hv : v.size = n) :
    Keeps n (sweep f v) := by
  refine keeps_foldlM (fun v hv' i hi => ?_) hv
  rw [mem_range, hv] at hi
  rcases hf v i with hid | ⟨g, h, hup⟩
  · exact ⟨v, hid, hv'⟩
  · subst hv'
    exact hup ▸ keeps_update g h hi (hj i hi)

variable [Add α] [Mul α] {b₁ b₂ : Nat}

theorem keeps_apply (u : Matrix2 α) (controls : Nat) (ht : b₁ < 2 ^ n) (hv : v.size = 2 ^ n) :
    Keeps (2 ^ n) (apply u b₁ controls v) := by
  refine keeps_sweep (fun i hi => Nat.or_lt_two_pow hi ht) (fun v i => ?_) hv
  split
  · exact .inl rfl
  · exact .inr ⟨_, _, rfl⟩

omit [Add α] [Mul α] in
theorem keeps_swap (b₁ : Nat) (h₂ : b₂ < 2 ^ n) (hv : v.size = 2 ^ n) : Keeps (2 ^ n) (swap b₁ b₂ v) := by
  have hclear : ∀ i < 2 ^ n, i ^^^ (i &&& b₁) < 2 ^ n := fun i hi =>
    Nat.xor_lt_two_pow hi (Nat.lt_of_le_of_lt Nat.and_le_left hi)
  refine keeps_sweep (fun i hi => Nat.or_lt_two_pow (hclear i hi) h₂) (fun v i => ?_) hv
  split
  · exact .inr ⟨_, _, rfl⟩
  · exact .inl rfl

theorem keeps_couple (c : α) (k : Nat → α) (h₁ : b₁ < 2 ^ n) (h₂ : b₂ < 2 ^ n) (hv : v.size = 2 ^ n) :
    Keeps (2 ^ n) (couple c k b₁ b₂ v) := by
  refine keeps_sweep (fun i hi => Nat.xor_lt_two_pow (Nat.xor_lt_two_pow hi h₁) h₂) (fun v i => ?_) hv
  split
  · exact .inl rfl
  · exact .inr ⟨_, _, rfl⟩

end Kernel

theorem qubitBit_of_lt {q n : Nat} (hq : q < n) (hn : n ≤ 64) : ∃ b, qubitBit q = .ok b ∧ b < 2 ^ n := by
  unfold qubitBit
  rw [if_neg (by omega), if_pos (by omega)]
  exact ⟨_, rfl, by rw [Nat.one_shiftLeft]; exact Nat.pow_lt_pow_right (by omega) (by simpa using hq)⟩

theorem exists_mapM_qubitBit : ∀ qs : List Nat, ∃ bits, (qs.map Int.ofNat).mapM qubitBit = .ok bits
  | [] => ⟨[], rfl⟩
  | q :: qs => by
    obtain ⟨bits, hbits⟩ := exists_mapM_qubitBit qs
    have hbit : ∃ b, qubitBit (Int.ofNat q) = .ok b := by
      unfold qubitBit
      rw [if_neg (by simp)]
      split <;> exact ⟨_, rfl⟩
    obtain ⟨b, hb⟩ := hbit
    exact ⟨b :: bits, by rw [map_cons, mapM_cons, hb, hbits]; rfl⟩

theorem exists_qubitMask (qs : List Nat) : ∃ m, qubitMask (qs.map Int.ofNat) = .ok m := by
  obtain ⟨bits, hbits⟩ := exists_mapM_qubitBit qs
  exact ⟨_, by rw [qubitMask, hbits]; rfl⟩

/-! ### Operations -/

namespace StateVector
variable {s : StateVector} {n q q' : Nat}

/-- A state of `n` qubits, with an amplitude for each basis state. -/
structure Sized (n : Nat) (s : StateVector) : Prop where
  numQubits : s.numQubits = n
  size : s.amplitudes.size = 2 ^ n

theorem sized_zero (hn : n < 45) : ∃ s, zero n = .ok s ∧ s.Sized n := by
  unfold zero
  rw [if_neg (by omega), if_neg (by omega)]
  exact ⟨_, rfl, rfl, by simp [Nat.one_shiftLeft]⟩

theorem Sized.lift {f : Array Amplitude → Except Fault (Array Amplitude)} (h : Sized n s)
    (hf : ∀ v, v.size = 2 ^ n → Kernel.Keeps (2 ^ n) (f v)) : ∃ t, s.lift f = .ok t ∧ t.Sized n := by
  obtain ⟨w, hw, hsize⟩ := hf _ h.size
  exact ⟨{ s with amplitudes := w }, by rw [StateVector.lift, hw]; rfl, h.numQubits, hsize⟩

theorem Sized.applyMatrix (h : Sized n s) (hn : n ≤ 64) (u : Matrix2 Amplitude) (hq : q < n) (controls : List Nat) :
    ∃ t, s.applyMatrix u q (controls.map Int.ofNat) = .ok t ∧ t.Sized n := by
  obtain ⟨b, hb, hlt⟩ := qubitBit_of_lt hq hn
  obtain ⟨m, hm⟩ := exists_qubitMask controls
  obtain ⟨t, ht, hsized⟩ := h.lift fun v hv => Kernel.keeps_apply u m hlt hv
  exact ⟨t, by rw [StateVector.applyMatrix, hb, hm]; exact ht, hsized⟩

theorem Sized.applySwap (h : Sized n s) (hn : n ≤ 64) (hq : q < n) (hq' : q' < n) :
    ∃ t, s.applySwap q q' = .ok t ∧ t.Sized n := by
  obtain ⟨b, hb, -⟩ := qubitBit_of_lt hq hn
  obtain ⟨b', hb', hlt'⟩ := qubitBit_of_lt hq' hn
  obtain ⟨t, ht, hsized⟩ := h.lift fun v hv => Kernel.keeps_swap b hlt' hv
  exact ⟨t, by rw [StateVector.applySwap, hb, hb']; exact ht, hsized⟩

theorem Sized.applyCoupling (h : Sized n s) (hn : n ≤ 64) (c : Coupling) (hq : q < n) (hq' : q' < n)
    (theta : Float) : ∃ t, s.applyCoupling c q q' theta = .ok t ∧ t.Sized n := by
  obtain ⟨b, hb, hlt⟩ := qubitBit_of_lt hq hn
  obtain ⟨b', hb', hlt'⟩ := qubitBit_of_lt hq' hn
  unfold StateVector.applyCoupling
  rw [hb, hb']
  cases c with
  | xx => exact h.lift fun v hv => Kernel.keeps_couple _ _ hlt hlt' hv
  | yy => exact h.lift fun v hv => Kernel.keeps_couple _ _ hlt hlt' hv
  | zz => exact ⟨_, rfl, h.numQubits, by simp [Kernel.scale, h.size]⟩

theorem Sized.applyReset (h : Sized n s) (hn : n ≤ 64) (hq : q < n) : ∃ t, s.applyReset q = .ok t ∧ t.Sized n := by
  obtain ⟨b, hb, hlt⟩ := qubitBit_of_lt hq hn
  unfold StateVector.applyReset
  simp only [hb, bind, Except.bind]
  split
  · exact h.lift fun v hv => Kernel.keeps_apply _ _ hlt hv
  · exact ⟨_, rfl, h.numQubits, by simp [h.size]⟩

end StateVector

/-- Gates on two qubits that look for their operands without asking how many there are. -/
def pairGates : List String := ["SWAP", "XX", "YY", "ZZ", "CY", "CZ", "CPHASESHIFT"]

namespace Op

/-- The operation is one that is simulated: a gate on one qubit needs one operand, the others take what
they get. -/
def IsSimulated (op : Op) : Prop :=
  op.name ∈ ["BARRIER", "MEASURE", "RESET", "CNOT", "CCNOT"] ∨ op.name ∈ pairGates ∨
    (Matrix2.named? op.name op.params).isSome ∧ op.qubits.length = 1

theorem not_isSimulated {op : Op} (hname : (Matrix2.named? op.name op.params).isSome)
    (hlen : op.qubits.length ≠ 1) : ¬ op.IsSimulated := by
  have hother : ∀ name ∈ ["BARRIER", "MEASURE", "RESET", "CNOT", "CCNOT"] ++ pairGates,
      Matrix2.named? name op.params = none := by
    simp [pairGates, Matrix2.named?]
  rintro (h | h | h)
  · rw [hother _ (mem_append_left _ h)] at hname
    cases hname
  · rw [hother _ (mem_append_right _ h)] at hname
    cases hname
  · exact hlen h.2

end Op

namespace StateVector

variable {s : StateVector} {n : Nat} {qubits : List Nat}

theorem exists_operand {i : Nat} (h : i < qubits.length) (hlt : ∀ q ∈ qubits, q < n) :
    ∃ q : Nat, operand (qubits.map Int.ofNat) i = .ok q ∧ q < n :=
  ⟨qubits.get ⟨i, h⟩, by simp [operand, h], hlt _ (get_mem ..)⟩

/-- An operation on the first two operands, which are qubits of the state. -/
theorem sized_paired {f : Int → Int → Except Fault StateVector} (hlt : ∀ q ∈ qubits, q < n)
    (hf : ∀ {a b : Nat}, a < n → b < n → ∃ t, f a b = .ok t ∧ t.Sized n) (hlen : 2 ≤ qubits.length) :
    ∃ t, (do
      return some (← f (← operand (qubits.map Int.ofNat) 0) (← operand (qubits.map Int.ofNat) 1)) :
        Except Fault (Option StateVector)) = .ok (some t) ∧ t.Sized n := by
  obtain ⟨a, ha, hlta⟩ := exists_operand (i := 0) (by omega) hlt
  obtain ⟨b, hb, hltb⟩ := exists_operand (i := 1) (by omega) hlt
  obtain ⟨t, ht, hsized⟩ := hf hlta hltb
  exact ⟨t, by simp only [ha, hb, bind, Except.bind, ht]; rfl, hsized⟩

theorem Sized.controlled (h : Sized n s) (hn : n ≤ 64) (hlt : ∀ q ∈ qubits, q < n)
    (u : Matrix2 Amplitude) (hlen : 2 ≤ qubits.length) :
    ∃ t, apply.controlled s (qubits.map Int.ofNat) u = .ok (some t) ∧ t.Sized n := by
  obtain ⟨a, ha, -⟩ := exists_operand (i := 0) (by omega) hlt
  obtain ⟨b, hb, hltb⟩ := exists_operand (i := 1) (by omega) hlt
  obtain ⟨t, ht, hsized⟩ := h.applyMatrix hn u hltb [a]
  have ht' : s.applyMatrix u b [(a : Int)] = .ok t := ht
  exact ⟨t, by rw [apply.controlled, ha, hb]; simp only [bind, Except.bind, ht']; rfl, hsized⟩

theorem Sized.flipped (h : Sized n s) (hn : n ≤ 64) (hlt : ∀ q ∈ qubits, q < n)
    (hlen : 0 < qubits.length) : ∃ t, (do
      let target ← operand (qubits.map Int.ofNat).reverse 0
      return some (← s.applyMatrix Matrix2.pauliX target (qubits.map Int.ofNat).dropLast) :
        Except Fault (Option StateVector)) = .ok (some t) ∧ t.Sized n := by
  rw [← map_reverse, ← map_dropLast]
  have hltr : ∀ q ∈ qubits.reverse, q < n := fun q hq => hlt q (mem_reverse.1 hq)
  obtain ⟨b, hb, hltb⟩ := exists_operand (i := 0) (by simpa using hlen) hltr
  obtain ⟨t, ht, hsized⟩ := h.applyMatrix hn Matrix2.pauliX hltb qubits.dropLast
  exact ⟨t, by simp only [hb, bind, Except.bind, ht]; rfl, hsized⟩

theorem Sized.apply {op : Op} (h : Sized n s) (hn : n ≤ 64) (hlt : ∀ q ∈ op.qubits, q < n)
    (hne : op.qubits = [] → op.name = "BARRIER") (hpair : op.name ∈ pairGates → 2 ≤ op.qubits.length) :
    (op.IsSimulated ∧ ∃ t, s.apply op.name (op.qubits.map Int.ofNat) op.params = .ok (some t) ∧ t.Sized n) ∨
      ¬ op.IsSimulated ∧ s.apply op.name (op.qubits.map Int.ofNat) op.params = .ok none := by
  obtain ⟨name, qubits, params⟩ := op
  simp only at hlt hne hpair ⊢
  have hfirst : name ≠ "BARRIER" → 0 < qubits.length := fun hname =>
    length_pos_iff.2 fun hnil => hname (hne hnil)
  unfold StateVector.apply
  split
  case h_1 | h_2 => exact .inl ⟨.inl (by simp), s, rfl, h⟩
  case h_3 =>
    obtain ⟨q, hq, hltq⟩ := exists_operand (hfirst (by decide)) hlt
    obtain ⟨t, ht, hsized⟩ := h.applyReset hn hltq
    exact .inl ⟨.inl (by simp), t, by simp only [hq, bind, Except.bind, ht]; rfl, hsized⟩
  case h_4 =>
    exact .inl ⟨.inr (.inl (by simp [pairGates])), sized_paired hlt (h.applySwap hn) (hpair (by simp [pairGates]))⟩
  case h_5 | h_6 | h_7 =>
    exact .inl ⟨.inr (.inl (by simp [pairGates])),
      sized_paired hlt (fun ha hb => h.applyCoupling hn _ ha hb _) (hpair (by simp [pairGates]))⟩
  case h_8 | h_9 => exact .inl ⟨.inl (by simp), h.flipped hn hlt (hfirst (by decide))⟩
  case h_10 | h_11 | h_12 =>
    exact .inl ⟨.inr (.inl (by simp [pairGates])), h.controlled hn hlt _ (hpair (by simp [pairGates]))⟩
  case h_13 =>
    have hsim : (Op.mk name qubits params).IsSimulated ↔
        (Matrix2.named? name params).isSome ∧ qubits.length = 1 := by
      simp only [Op.IsSimulated, pairGates, mem_cons, not_mem_nil, or_false]
      tauto
    rw [hsim]
    cases hu : Matrix2.named? name params with
    | none => exact .inr ⟨by simp, rfl⟩
    | some u =>
      match qubits, hlt with
      | [], _ => exact .inr ⟨by simp, rfl⟩
      | _ :: _ :: _, _ => exact .inr ⟨by simp, rfl⟩
      | [q], hlt =>
        obtain ⟨t, ht, hsized⟩ := h.applyMatrix hn u (hlt q (mem_singleton_self q)) []
        have ht' : s.applyMatrix u (Int.ofNat q) [] = .ok t := ht
        exact .inl ⟨by simp, t, by simp only [map_cons, map_nil, bind, Except.bind, ht']; rfl, hsized⟩

end StateVector

/-! ### Circuits -/

namespace Circuit
variable {c : Circuit}

theorem runOps_spec {n : Nat} {ops : List Op} {s : StateVector} (hn : n ≤ 64) (h : s.Sized n)
    (hlt : ∀ op ∈ ops, ∀ q ∈ op.qubits, q < n) (hne : ∀ op ∈ ops, op.qubits = [] → op.name = "BARRIER")
    (hpair : ∀ op ∈ ops, op.name ∈ pairGates → 2 ≤ op.qubits.length) :
    ((∀ op ∈ ops, op.IsSimulated) ∧ ∃ t, runOps s ops = .ok (.ok t) ∧ t.Sized n) ∨
      ∃ op ∈ ops, ¬ op.IsSimulated ∧ runOps s ops = .ok (.error (.unknownGate op.name)) := by
  induction ops generalizing s with
  | nil => exact .inl ⟨nofun, s, rfl, h⟩
  | cons op ops ih =>
    rw [forall_mem_cons] at hlt hne hpair
    rw [runOps]
    rcases h.apply hn hlt.1 hne.1 hpair.1 with ⟨hop, t, ht, hsized⟩ | ⟨hop, hnone⟩
    · simp only [ht, bind, Except.bind]
      rcases ih hsized hlt.2 hne.2 hpair.2 with ⟨hall, hr⟩ | ⟨op', hmem, hr⟩
      · exact .inl ⟨forall_mem_cons.2 ⟨hop, hall⟩, hr⟩
      · exact .inr ⟨op', mem_cons_of_mem _ hmem, hr⟩
    · exact .inr ⟨op, mem_cons_self .., hop, by simp only [hnone, bind, Except.bind]; rfl⟩

theorem forall_mem_byStep {P : Op → Prop} : (∀ op ∈ c.byStep.map (·.toOp), P op) ↔ ∀ p ∈ c.ops, P p.toOp := by
  simp [byStep]

/-- Is the circuit one that is simulated? -/
structure IsSimulated (c : Circuit) : Prop where
  classical : c.classical = false
  small : c.numQubits ≤ maxSimulated
  ops : ∀ p ∈ c.ops, p.toOp.IsSimulated

theorem simulate_spec (h : c.WellFormed) (hpair : ∀ p ∈ c.ops, p.name ∈ pairGates → 2 ≤ p.qubits.length) :
    (c.IsSimulated ∧ ∃ t, c.simulate = .ok (.ok t) ∧ t.Sized c.numQubits) ∨
      ¬ c.IsSimulated ∧ ∃ e, c.simulate = .ok (.error e) := by
  unfold simulate
  split
  · rename_i hc
    exact .inr ⟨fun hs => Bool.false_ne_true (hs.classical.symm.trans hc), _, rfl⟩
  rename_i hc
  rw [Bool.not_eq_true] at hc
  split
  · rename_i hbig
    exact .inr ⟨fun hs => absurd hs.small (Nat.not_le.2 hbig), _, rfl⟩
  rename_i hsmall
  have hle : c.numQubits ≤ 12 := Nat.not_lt.1 hsmall
  obtain ⟨s, hs, hsized⟩ := StateVector.sized_zero (n := c.numQubits) (by omega)
  simp only [hs, bind, Except.bind]
  have hlt : ∀ op ∈ c.byStep.map (·.toOp), ∀ q ∈ op.qubits, q < c.numQubits := forall_mem_byStep.2 h.operands
  rcases runOps_spec (by omega) hsized hlt (forall_mem_byStep.2 h.nonempty) (forall_mem_byStep.2 hpair) with
    ⟨hall, hr⟩ | ⟨op, hop, hnot, hr⟩
  · exact .inl ⟨⟨hc, hle, forall_mem_byStep.1 hall⟩, hr⟩
  · exact .inr ⟨fun hsim => hnot (forall_mem_byStep.2 hsim.ops op hop), _, hr⟩

/-- Any text whose numbers are not beyond what can be allocated can be previewed. It has a circuit, and
unless a gate on two qubits is called with one operand, the circuit has a state or an error says why not:
control flow, too many qubits, or an operation that is not simulated. Among those is every gate on one
qubit that is called with another number of operands. -/
theorem previewed {cs : List Char} (hb : Text.NumbersBelow Fault.longest cs) :
    ∃ c, read cs = .ok c ∧
      ((∀ p ∈ c.ops, p.name ∈ pairGates → 2 ≤ p.qubits.length) →
        ∃ r, c.simulate = .ok r ∧
          (∀ t, r = .ok t → t.numQubits = c.numQubits ∧ t.amplitudes.size = 2 ^ c.numQubits) ∧
          ((∃ t, r = .ok t) ↔ c.IsSimulated) ∧
          ((∃ p ∈ c.ops, (Matrix2.named? p.name p.params).isSome ∧ p.qubits.length ≠ 1) →
            ∃ e, r = .error e)) := by
  obtain ⟨c, hc, hwell⟩ := exists_read hb
  refine ⟨c, hc, fun hpair => ?_⟩
  rcases simulate_spec hwell hpair with ⟨hsim, t, ht, hsized⟩ | ⟨hsim, e, he⟩
  · refine ⟨.ok t, ht, ?_, ⟨fun _ => hsim, fun _ => ⟨t, rfl⟩⟩, ?_⟩
    · rintro _ ⟨⟩
      exact ⟨hsized.numQubits, hsized.size⟩
    · rintro ⟨p, hp, hname, hlen⟩
      exact absurd (hsim.ops p hp) (Op.not_isSimulated hname hlen)
  · exact ⟨.error e, he, nofun, ⟨nofun, fun h => absurd h hsim⟩, fun _ => ⟨e, rfl⟩⟩

/-- What decides how a circuit is simulated. -/
def outline (c : Circuit) : Bool × Nat × List (String × List Nat) :=
  (c.classical, c.numQubits, c.ops.map fun p => (p.name, p.qubits))

theorem outline_of_read {cs : List Char} (hc : read cs = .ok c) (b : Bool) (n : Nat)
    (ops : List (String × List Nat)) (h : (read cs).toOption.map outline = some (b, n, ops)) :
    c.classical = b ∧ c.numQubits = n ∧ c.ops.map (fun p => (p.name, p.qubits)) = ops := by
  rw [hc] at h
  cases h
  exact ⟨rfl, rfl, rfl⟩

/-- A statement about all operations is one about their outline. -/
theorem forall_of_outline {ops : List (String × List Nat)} {P : String → List Nat → Prop}
    (hops : c.ops.map (fun p => (p.name, p.qubits)) = ops) (h : ∀ x ∈ ops, P x.1 x.2) :
    ∀ p ∈ c.ops, P p.name p.qubits := fun _ hp => h _ (hops ▸ mem_map_of_mem hp)

theorem pairs_of_outline {ops : List (String × List Nat)} (hops : c.ops.map (fun p => (p.name, p.qubits)) = ops)
    (h : ∀ x ∈ ops, x.1 ∈ pairGates → 2 ≤ x.2.length) :
    ∀ p ∈ c.ops, p.name ∈ pairGates → 2 ≤ p.qubits.length :=
  forall_of_outline (P := fun name qubits => name ∈ pairGates → 2 ≤ qubits.length) hops h

def bellText : List Char :=
  "qubit[2] __qubits__;\nh __qubits__[0];\ncnot __qubits__[0], __qubits__[1];\n".toList

/-- The last gate has an operand too many. -/
def overloadedText : List Char :=
  "qubit[2] __qubits__;\nswap __qubits__[1], __qubits__[0];\nh __qubits__[0], __qubits__[1];\n".toList

theorem previewed_texts :
    Text.NumbersBelow Fault.longest bellText ∧ Text.NumbersBelow Fault.longest overloadedText ∧
    (∃ c t, read bellText = .ok c ∧ c.simulate = .ok (.ok t) ∧ t.amplitudes.size = 4) ∧
    ∃ c e, read overloadedText = .ok c ∧ c.simulate = .ok (.error e) := by
  have hbell : Text.NumbersBelow Fault.longest bellText := by decide +kernel
  have hover : Text.NumbersBelow Fault.longest overloadedText := by decide +kernel
  refine ⟨hbell, hover, ?_, ?_⟩
  · obtain ⟨c, hc, h⟩ := previewed hbell
    obtain ⟨hclassical, hn, hops⟩ :=
      outline_of_read hc false 2 [("H", [0]), ("CNOT", [0, 1])] (by decide +kernel)
    have hsim : c.IsSimulated := by
      refine ⟨hclassical, by rw [hn]; decide, fun p hp => ?_⟩
      have hcases : p.name = "H" ∧ p.qubits.length = 1 ∨ p.name = "CNOT" :=
        forall_of_outline (P := fun name qs => name = "H" ∧ qs.length = 1 ∨ name = "CNOT") hops
          (by decide) p hp
      rcases hcases with ⟨hname, hlen⟩ | hname
      · exact .inr (.inr ⟨by rw [hname]; rfl, hlen⟩)
      · exact .inl (by rw [hname]; decide)
    obtain ⟨r, hr, hsize, hiff, -⟩ := h (pairs_of_outline hops (by decide))
    obtain ⟨t, rfl⟩ := hiff.2 hsim
    exact ⟨c, t, hc, hr, by rw [(hsize t rfl).2, hn]; rfl⟩
  · obtain ⟨c, hc, h⟩ := previewed hover
    obtain ⟨-, -, hops⟩ :=
      outline_of_read hc false 2 [("SWAP", [1, 0]), ("H", [0, 1])] (by decide +kernel)
    obtain ⟨r, hr, -, -, herror⟩ := h (pairs_of_outline hops (by decide))
    have hlast : ("H", [0, 1]) ∈ c.ops.map fun p => (p.name, p.qubits) := by
      rw [hops]
      decide
    obtain ⟨p, hp, heq⟩ := List.mem_map.1 hlast
    obtain ⟨hname, hqubits⟩ := Prod.mk.inj heq
    obtain ⟨e, rfl⟩ := herror ⟨p, hp, by rw [hname]; rfl, by rw [hqubits]; decide⟩
    exact ⟨c, e, hc, hr⟩

def halfSwapText : List Char := "qubit[2] __qubits__;\nswap __qubits__[0];\n".toList

def wideCnotText : List Char :=
  "qubit[3] __qubits__;\ncnot __qubits__[0], __qubits__[1], __qubits__[2];\n".toList

/-- A gate on two qubits with one operand stops the simulation for good, a gate with a control too many
is simulated, and no table is as long as the largest register. -/
theorem unpreviewed :
    (∃ c, read halfSwapText = .ok c ∧ c.simulate = .error .indexOutOfRange) ∧
    (∃ c t, read wideCnotText = .ok c ∧ c.simulate = .ok (.ok t)) ∧
    read "qubit[9223372036854775807] __qubits__;\n".toList = .error .lengthOverflow := by
  have hhalf : Text.NumbersBelow Fault.longest halfSwapText := by decide +kernel
  have hwide : Text.NumbersBelow Fault.longest wideCnotText := by decide +kernel
  refine ⟨?_, ?_, rfl⟩
  · obtain ⟨c, hc, -⟩ := exists_read hhalf
    obtain ⟨hclassical, hn, hops⟩ := outline_of_read hc false 2 [("SWAP", [0])] (by decide +kernel)
    obtain ⟨p, hp, heq⟩ := List.map_eq_singleton_iff.1 hops
    obtain ⟨hname, hqubits⟩ := Prod.mk.inj heq
    have hstep : c.byStep = [p] := by rw [byStep, hp, List.mergeSort_singleton]
    refine ⟨c, hc, ?_⟩
    unfold simulate
    rw [hclassical, hn, hstep]
    simp only [List.map_cons, List.map_nil, runOps, hname, hqubits]
    rfl
  · obtain ⟨c, hc, hwell⟩ := exists_read hwide
    obtain ⟨hclassical, hn, hops⟩ := outline_of_read hc false 3 [("CNOT", [0, 1, 2])] (by decide +kernel)
    have hcnot : ∀ p ∈ c.ops, p.name = "CNOT" :=
      forall_of_outline (P := fun name _ => name = "CNOT") hops (by decide)
    have hsim : c.IsSimulated :=
      ⟨hclassical, by rw [hn]; decide, fun p hp => .inl (by rw [hcnot p hp]; decide)⟩
    rcases simulate_spec hwell (pairs_of_outline hops (by decide)) with ⟨-, t, ht, -⟩ | ⟨hnot, -⟩
    · exact ⟨c, t, hc, ht⟩
    · exact absurd hsim hnot

end Circuit

end QasmStudio

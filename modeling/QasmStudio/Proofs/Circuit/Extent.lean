import QasmStudio.Proofs.Circuit.ReadBack
import Mathlib.Data.List.Infix

/-!
# How far a circuit extends

Every number that the reader of circuits takes from a text is written in it as a run of digits. So if the
numbers written in a text are below a bound, the register and all operands are (`Sketch.Within`), whatever
the text is, and if the bound is the longest list that can be asked for, the text has a circuit.
-/

namespace QasmStudio

open List Option

namespace Text

variable {cs ds : List Char}

/-- Every number written in the text is below `bound`. -/
def NumbersBelow (bound : Int) (cs : List Char) : Prop :=
  ∀ ds, ds <:+: cs → ds.all Char.isDigit = true → (Word.ofDigits ds : Int) < bound

instance (bound : Int) (cs : List Char) : Decidable (NumbersBelow bound cs) :=
  decidable_of_iff (∀ tail ∈ cs.tails, ∀ ds ∈ tail.inits, ds.all Char.isDigit = true →
      (Word.ofDigits ds : Int) < bound) <| by
    constructor
    · intro h ds hds
      obtain ⟨tail, hpre, hsuf⟩ := infix_iff_prefix_suffix.1 hds
      exact h tail ((mem_tails ..).2 hsuf) ds ((mem_inits ..).2 hpre)
    · intro h tail htail ds hds
      exact h ds (((mem_inits ..).1 hds).isInfix.trans ((mem_tails ..).1 htail).isInfix)

theorem NumbersBelow.of_isInfix {bound : Int} (h : NumbersBelow bound cs) (hds : ds <:+: cs) :
    NumbersBelow bound ds := fun _ h' => h _ (h'.trans hds)

/-! ### Parts of a text -/

theorem after?_isSuffix {start : String} {rest : List Char} (h : after? start cs = some rest) : rest <:+ cs := by
  unfold after? at h
  split at h
  · cases h
    exact drop_suffix ..
  · cases h

theorem before?_isPrefix {c : Char} {rest : List Char} (h : before? c cs = some rest) : rest <+: cs := by
  unfold before? at h
  split at h
  · cases h
    exact dropLast_prefix _
  · cases h

theorem trim_isInfix (cs : List Char) : trim cs <:+: cs := by
  have hright : ∀ ds : List Char, trimRight ds <+: ds := fun ds => by
    rw [← reverse_suffix, trimRight, reverse_reverse]
    exact dropWhile_suffix _
  exact (hright _).isInfix.trans (dropWhile_suffix _).isInfix

theorem split_ne_nil (sep : Char) : ∀ cs, split sep cs ≠ []
  | [] => cons_ne_nil _ _
  | c :: cs => by
    unfold split
    split
    · exact cons_ne_nil _ _
    · split <;> exact cons_ne_nil _ _

/-- The first part is where the text starts; the others lie further on. -/
theorem split_spec {sep : Char} : ∀ {cs first : List Char} {others : List (List Char)},
    split sep cs = first :: others → first <+: cs ∧ ∀ part ∈ others, part <:+: cs
  | [], first, others, h => by
    cases h
    simp
  | c :: cs, first, others, h => by
    obtain ⟨f, os, hs⟩ := exists_cons_of_ne_nil (split_ne_nil sep cs)
    obtain ⟨hf, hos⟩ := split_spec hs
    have hcs : cs <:+: c :: cs := (suffix_cons c cs).isInfix
    unfold split at h
    split at h
    · cases h
      refine ⟨ nil_prefix, fun part hp => ?_⟩
      rw [hs] at hp
      rcases mem_cons.1 hp with rfl | hp
      · exact hf.isInfix.trans hcs
      · exact (hos part hp).trans hcs
    · rw [hs] at h
      cases h
      exact ⟨cons_prefix_cons.2 ⟨rfl, hf⟩, fun part hp => (hos part hp).trans hcs⟩

theorem infix_of_mem_split {sep : Char} {part : List Char} (h : part ∈ split sep cs) : part <:+: cs := by
  obtain ⟨f, os, hs⟩ := exists_cons_of_ne_nil (split_ne_nil sep cs)
  obtain ⟨hf, hos⟩ := split_spec hs
  rw [hs] at h
  rcases mem_cons.1 h with rfl | h
  · exact hf.isInfix
  · exact hos part h

end Text

/-! ### Numbers -/

open Text (NumbersBelow)

variable {bound : Int} {cs rest : List Char}

theorem Word.readClamped_toNat_lt (h : (ofDigits cs : Int) < bound) : ((readClamped cs).toNat : Int) < bound := by
  unfold readClamped
  omega

/-- The number is where the text starts, and what follows is where it ends. -/
theorem digitsUntil?_spec {close : Char} {n : Nat} (h : digitsUntil? close cs = some (n, rest)) :
    (∃ ds, ds <+: cs ∧ ds.all Char.isDigit = true ∧ n = (Word.readClamped ds).toNat) ∧ rest <:+ cs := by
  unfold digitsUntil? at h
  rw [span_eq_takeWhile_dropWhile] at h
  split at h
  · cases h
  · rename_i ds c tail _ heq
    split at h
    · cases h
      obtain ⟨rfl, hdrop⟩ := Prod.mk.inj heq
      exact ⟨⟨_, takeWhile_prefix _, all_takeWhile .., rfl⟩,
        (suffix_cons c rest).trans (hdrop ▸ dropWhile_suffix _)⟩
    · cases h
  · cases h

theorem digitsUntil?_lt {close : Char} {n : Nat} (hb : NumbersBelow bound cs)
    (h : digitsUntil? close cs = some (n, rest)) : (n : Int) < bound := by
  obtain ⟨⟨ds, hpre, hds, rfl⟩, -⟩ := digitsUntil?_spec h
  exact Word.readClamped_toNat_lt (hb ds hpre.isInfix hds)

theorem Wire.index_lt {w : Wire} (hb : NumbersBelow bound cs) (h : read? cs = some w) :
    (w.index : Int) < bound := by
  unfold read? at h
  split at h
  · rename_i ds
    split at h
    · rename_i hds
      cases h
      exact Word.readClamped_toNat_lt (hb ds (suffix_cons _ _).isInfix hds.2)
    · cases h
  · obtain ⟨rest, hrest, h⟩ := bind_eq_some_iff.1 h
    split at h
    · rename_i rest'
      obtain ⟨⟨i, tail⟩, hi, h⟩ := bind_eq_some_iff.1 h
      have hsuffix : rest' <:+ cs := (suffix_cons _ _).trans (Text.after?_isSuffix hrest)
      have hlt := digitsUntil?_lt (hb.of_isInfix hsuffix.isInfix) hi
      simp only at h
      split at h
      · cases h
        exact hlt
      · cases h
    · cases h

/-- The operands that are read, and that there is one. -/
theorem Operands.ofParts_spec : ∀ {parts : List (List Char)} {qubits : List Nat},
    (∀ part ∈ parts, NumbersBelow bound part) → (ofParts parts).qubits = some qubits →
    qubits.length = parts.length ∧ ∀ q ∈ qubits, (q : Int) < bound
  | [], qubits, _, h => by
    cases h
    simp
  | part :: parts, qubits, hb, h => by
    unfold ofParts at h
    split at h
    · cases h
    · rename_i w hw
      obtain ⟨qs, hqs, rfl⟩ := map_eq_some_iff.1 h
      obtain ⟨hlen, hlt⟩ := ofParts_spec (fun p hp => hb p (mem_cons_of_mem _ hp)) hqs
      refine ⟨by simp [hlen], forall_mem_cons.2 ⟨?_, hlt⟩⟩
      exact Wire.index_lt ((hb part (mem_cons_self ..)).of_isInfix (Text.trim_isInfix part)) hw

theorem Operands.read_spec {qubits : List Nat} (hb : NumbersBelow bound cs)
    (h : (read cs).qubits = some qubits) : qubits ≠ [] ∧ ∀ q ∈ qubits, (q : Int) < bound := by
  obtain ⟨hlen, hlt⟩ := ofParts_spec (fun part hp => hb.of_isInfix (Text.infix_of_mem_split hp)) h
  refine ⟨fun hnil => ?_, hlt⟩
  rw [hnil, length_nil, eq_comm, length_eq_zero_iff] at hlen
  exact Text.split_ne_nil _ _ hlen

/-! ### Statements -/

namespace Statement

theorem afterSpaces?_isSuffix (h : afterSpaces? cs = some rest) : rest <:+ cs := by
  unfold afterSpaces? at h
  split at h
  · cases h
  · split at h
    · cases h
      exact (dropWhile_suffix _).trans (suffix_cons ..)
    · cases h

theorem solid?_isPrefix (h : solid? cs = some rest) : rest <+: cs := by
  obtain ⟨part, hpart, h⟩ := bind_eq_some_iff.1 h
  split at h
  · cases h
    exact Text.before?_isPrefix hpart
  · cases h

theorem register?_lt {n : Nat} (hb : NumbersBelow bound cs) (h : register? cs = some n) : (n : Int) < bound := by
  obtain ⟨part, hpart, h⟩ := bind_eq_some_iff.1 h
  obtain ⟨⟨i, tail⟩, hi, h⟩ := bind_eq_some_iff.1 h
  obtain ⟨_, _, h⟩ := bind_eq_some_iff.1 h
  have hlt := digitsUntil?_lt (hb.of_isInfix (Text.after?_isSuffix hpart).isInfix) hi
  split at h
  · cases h
    exact hlt
  · cases h

theorem assignedMeasure?_isInfix (h : assignedMeasure? cs = some rest) : rest <:+: cs := by
  unfold assignedMeasure? at h
  rw [span_eq_takeWhile_dropWhile] at h
  simp only at h
  split at h
  · cases h
  · split at h
    · rename_i tail heq
      obtain ⟨a, ha, h⟩ := bind_eq_some_iff.1 h
      obtain ⟨b, hb, h⟩ := bind_eq_some_iff.1 h
      have htail : tail <:+ cs := (suffix_cons '=' tail).trans
        (heq ▸ (dropWhile_suffix _).trans (dropWhile_suffix _))
      have hb : b <:+ cs := (afterSpaces?_isSuffix hb).trans
        ((Text.after?_isSuffix ha).trans ((dropWhile_suffix _).trans htail))
      exact (solid?_isPrefix h).isInfix.trans hb.isInfix
    · cases h

theorem afterBitType?_isSuffix (h : afterBitType? cs = some rest) : rest <:+ cs := by
  obtain ⟨a, ha, h⟩ := bind_eq_some_iff.1 h
  refine List.IsSuffix.trans ?_ (Text.after?_isSuffix ha)
  split at h
  · obtain ⟨⟨i, b⟩, hb, h⟩ := bind_eq_some_iff.1 h
    exact (afterSpaces?_isSuffix h).trans ((digitsUntil?_spec hb).2.trans (suffix_cons ..))
  · exact afterSpaces?_isSuffix h

theorem measure?_isInfix (h : measure? cs = some rest) : rest <:+: cs := by
  unfold measure? at h
  rcases hm : afterBitType? cs >>= assignedMeasure? with _ | operands
  · rw [hm] at h
    exact assignedMeasure?_isInfix h
  · rw [hm] at h
    cases h
    obtain ⟨a, ha, h⟩ := bind_eq_some_iff.1 hm
    exact (assignedMeasure?_isInfix h).trans (afterBitType?_isSuffix ha).isInfix

theorem reset?_isInfix (h : reset? cs = some rest) : rest <:+: cs := by
  obtain ⟨a, ha, h⟩ := bind_eq_some_iff.1 h
  obtain ⟨b, hb, h⟩ := bind_eq_some_iff.1 h
  exact (solid?_isPrefix h).isInfix.trans ((afterSpaces?_isSuffix hb).trans (Text.after?_isSuffix ha)).isInfix

theorem barrier?_isInfix (h : barrier? cs = some (some rest)) : rest <:+: cs := by
  obtain ⟨a, ha, h⟩ := bind_eq_some_iff.1 h
  split at h
  · cases h
  · obtain ⟨b, hb, h⟩ := bind_eq_some_iff.1 h
    obtain ⟨c, hc, h⟩ := bind_eq_some_iff.1 h
    split at h
    · cases h
    · cases h
      exact (afterSpaces?_isSuffix hc).isInfix.trans
        ((Text.before?_isPrefix hb).isInfix.trans (Text.after?_isSuffix ha).isInfix)

theorem params?_isSuffix {params : List Char} (h : params? cs = some (params, rest)) : rest <:+ cs := by
  unfold params? at h
  split at h
  · rename_i tail
    rw [span_eq_takeWhile_dropWhile] at h
    split at h
    · rename_i heq
      cases h
      obtain ⟨-, hdrop⟩ := Prod.mk.inj heq
      exact (suffix_cons _ rest).trans (hdrop ▸ (dropWhile_suffix _).trans (suffix_cons _ tail))
    · cases h
  · cases h
    exact suffix_rfl

theorem callOperands?_isInfix (h : callOperands? cs = some rest) : rest <:+: cs := by
  obtain ⟨a, ha, h⟩ := bind_eq_some_iff.1 h
  obtain ⟨b, hb, h⟩ := bind_eq_some_iff.1 h
  split at h
  · cases h
  · split at h
    · cases h
    · cases h
      exact (afterSpaces?_isSuffix hb).isInfix.trans (Text.before?_isPrefix ha).isInfix

theorem gate?_isInfix {name params : List Char} (h : gate? cs = some (name, params, rest)) : rest <:+: cs := by
  unfold gate? at h
  rw [span_eq_takeWhile_dropWhile] at h
  obtain ⟨first, -, h⟩ := bind_eq_some_iff.1 h
  split at h
  · obtain ⟨⟨ps, a⟩, ha, h⟩ := bind_eq_some_iff.1 h
    obtain ⟨b, hb, h⟩ := bind_eq_some_iff.1 h
    split at h
    · cases h
    · cases h
      exact (callOperands?_isInfix hb).trans ((params?_isSuffix ha).trans (dropWhile_suffix _)).isInfix
  · cases h

/-- The numbers in a statement, its operands still being text. -/
def Within (bound : Int) : Statement → Prop
  | .register n => (n : Int) < bound
  | .measure operands | .reset operands | .barrier (some operands) | .gate _ _ operands =>
    NumbersBelow bound operands
  | .barrier none | .other => True

theorem within_read (hb : NumbersBelow bound cs) : (read cs).Within bound := by
  unfold read
  split
  · rename_i h
    exact register?_lt hb h
  split
  · rename_i h
    exact hb.of_isInfix (measure?_isInfix h)
  split
  · rename_i h
    exact hb.of_isInfix (reset?_isInfix h)
  split
  · rename_i operands h
    cases operands with
    | none => trivial
    | some operands => exact hb.of_isInfix (barrier?_isInfix h)
  split
  · rename_i h
    exact hb.of_isInfix (gate?_isInfix h)
  · trivial

end Statement

/-! ### Sketches -/

namespace Sketch
variable {s : Sketch}

/-- The register and the operands are below the bound, and only a barrier has no operands. -/
structure Within (bound : Int) (s : Sketch) : Prop where
  register : (s.numQubits : Int) < bound
  operands : ∀ op ∈ s.ops, ∀ q ∈ op.qubits, (q : Int) < bound
  nonempty : ∀ op ∈ s.ops, op.qubits = [] → op.name = "BARRIER"

namespace Within

theorem of_eq {t : Sketch} (h : Within bound s) (hn : t.numQubits = s.numQubits) (ho : t.ops = s.ops) :
    Within bound t :=
  ⟨hn ▸ h.register, ho ▸ h.operands, ho ▸ h.nonempty⟩

theorem addOp (h : Within bound s) (name : String) (params : List Float) {operands : List Char}
    (hb : NumbersBelow bound operands) : Within bound (s.addOp name params (Operands.read operands)) := by
  unfold Sketch.addOp
  simp only
  split
  · rename_i qubits hq
    obtain ⟨hne, hlt⟩ := Operands.read_spec hb hq
    exact ⟨h.register, forall_mem_cons.2 ⟨hlt, h.operands⟩,
      forall_mem_cons.2 ⟨fun hnil => absurd hnil hne, h.nonempty⟩⟩
  · exact h.of_eq rfl rfl

theorem addGate (h : Within bound s) (name params : List Char) {operands : List Char}
    (hb : NumbersBelow bound operands) : Within bound (s.addGate name params operands) := by
  have hop := h.addOp (String.ofList (name.map Text.upperAscii)) (angles params) hb
  unfold Sketch.addGate
  simp only
  split
  · exact hop.of_eq rfl rfl
  · exact hop

theorem statement (h : Within bound s) (hb : NumbersBelow bound cs) : Within bound (s.statement cs) := by
  have hread := Statement.within_read hb
  unfold Sketch.statement
  generalize Statement.read cs = st at hread
  cases st with
  | register n => exact ⟨hread, h.operands, h.nonempty⟩
  | other =>
    simp only
    split <;> exact h.of_eq rfl rfl
  | measure operands | reset operands =>
    simp only
    split
    · exact h.of_eq rfl rfl
    · exact h.addOp _ _ hread
  | barrier operands =>
    simp only
    split
    · exact h.of_eq rfl rfl
    · cases operands with
      | none => exact ⟨h.register, forall_mem_cons.2 ⟨nofun, h.operands⟩,
          forall_mem_cons.2 ⟨fun _ => rfl, h.nonempty⟩⟩
      | some operands => exact h.addOp _ _ hread
  | gate name params operands =>
    simp only
    split
    · exact h.of_eq rfl rfl
    · exact h.addGate name params hread

theorem openBlock (h : Within bound s) (cs : List Char) : Within bound (s.openBlock cs) := by
  unfold Sketch.openBlock
  simp only
  split <;> exact h.of_eq rfl rfl

theorem line (h : Within bound s) {raw : List Char} (hb : NumbersBelow bound raw) : Within bound (s.line raw) := by
  have hcs := hb.of_isInfix (Text.trim_isInfix raw)
  unfold Sketch.line
  simp only
  split
  · exact h
  split
  · exact h.of_eq rfl rfl
  split
  · split
    · exact h
    · exact h.openBlock _
  split
  · exact h
  · exact h.statement hcs

theorem lines {raws : List (List Char)} (hb : ∀ raw ∈ raws, NumbersBelow bound raw)
    (h : Within bound s) : Within bound (raws.foldl Sketch.line s) := by
  induction raws generalizing s with
  | nil => exact h
  | cons raw raws ih =>
    rw [forall_mem_cons] at hb
    exact ih hb.2 (h.line hb.1)

theorem of_text (hpos : 0 < bound) (hb : NumbersBelow bound cs) :
    Within bound ((Text.split '\n' cs).foldl Sketch.line {}) :=
  lines (fun _ hr => hb.of_isInfix (Text.infix_of_mem_split hr)) ⟨hpos, nofun, nofun⟩

end Within

end Sketch

/-! ### Circuits -/

namespace Circuit

/-- Operands are wires of the circuit, and only a barrier has none. -/
structure WellFormed (c : Circuit) : Prop where
  operands : ∀ p ∈ c.ops, ∀ q ∈ p.qubits, q < c.numQubits
  nonempty : ∀ p ∈ c.ops, p.qubits = [] → p.name = "BARRIER"

theorem exists_read (hb : NumbersBelow Fault.longest cs) : ∃ c, read cs = .ok c ∧ c.WellFormed := by
  have h := Sketch.Within.of_text (by decide) hb
  generalize hs : (Text.split '\n' cs).foldl Sketch.line {} = s at h
  have hle : ∀ {b : Nat}, s.wires ≤ b ↔ s.numQubits ≤ b ∧ ∀ op ∈ s.ops, ∀ q ∈ op.qubits, q < b :=
    Sketch.wires_le_iff fun op hop q hq => (h.operands op hop q hq).trans (by decide)
  have hpos : 0 < Fault.longest := by decide
  have hwires : s.wires ≤ Fault.longest.toNat :=
    hle.2 ⟨by have := h.register; omega, fun op hop q hq => by have := h.operands op hop q hq; omega⟩
  refine ⟨_, read_of_lines hs (by omega), ?_⟩
  have hmem : ∀ p ∈ schedule s.wires s.ops.reverse, p.toOp ∈ s.ops := fun p hp => by
    have := mem_map_of_mem (f := (·.toOp)) hp
    rwa [schedule, toOp_placeFrom, mem_reverse] at this
  exact ⟨fun p hp => (hle.1 le_rfl).2 _ (hmem p hp), fun p hp => h.nonempty _ (hmem p hp)⟩

end Circuit

end QasmStudio

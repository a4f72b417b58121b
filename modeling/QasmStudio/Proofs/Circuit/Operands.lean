import QasmStudio.Proofs.Lang.Texts

/-!
# Reading operands

Fixed qubits are read from their texts, one by one and in lists, and the angles of a call from theirs.
-/

namespace QasmStudio

open Text List

/-! ### Fixed qubits -/

namespace Wire

def text : Wire → List Char
  | register n => registerName.toList ++ '[' :: (Word.digits n ++ [']'])
  | physical n => '$' :: Word.digits n

def isWireChar (c : Char) : Bool := Text.isWord c || "$[]".toList.contains c

theorem isWireChar_text (w : Wire) : ∀ c ∈ w.text, isWireChar c = true := by
  have hdigits : ∀ n : Nat, ∀ c ∈ Word.digits n, isWireChar c = true := fun n c hc => by
    rw [isWireChar, isWord_of_isDigit (Word.isDigit_of_mem_digits hc)]
    rfl
  cases w with
  | register n =>
    refine forall_mem_append.2 ⟨forall_mem_of_all (by decide), forall_mem_cons.2 ⟨by decide, ?_⟩⟩
    exact forall_mem_append.2 ⟨hdigits n, forall_mem_of_all (by decide)⟩
  | physical n => exact forall_mem_cons.2 ⟨by decide, hdigits n⟩

theorem isBlank_of_isWireChar {c : Char} (h : isWireChar c = true) : isBlank c = false := by
  rcases Bool.or_eq_true_iff.1 h with hw | hc
  · exact isBlank_of_isWord hw
  · have hall : ∀ c ∈ "$[]".toList, isBlank c = false := forall_mem_of_all (by decide)
    exact hall c (contains_iff_mem.1 hc)

theorem exists_text_cons (w : Wire) : ∃ c cs, w.text = c :: cs ∧ (c = '_' ∨ c = '$') := by
  cases w with
  | register n => exact ⟨'_', _, rfl, .inl rfl⟩
  | physical n => exact ⟨'$', _, rfl, .inr rfl⟩

theorem firm_text (w : Wire) : Firm w.text := by
  obtain ⟨c, cs, htext, -⟩ := w.exists_text_cons
  refine .of_forall ?_ fun c hc => isBlank_of_isWireChar (w.isWireChar_text c hc)
  rw [htext]
  exact cons_ne_nil _ _

theorem readClamped_digits {n : Nat} (h : (n : Int) ≤ Word.largest) :
    (Word.readClamped (Word.digits n)).toNat = n := by
  rw [Word.readClamped, Word.ofDigits_digits, Int.min_eq_left h]
  rfl

theorem digitsUntil?_append (n : Nat) (rest : List Char) : digitsUntil? ']' (Word.digits n ++ ']' :: rest) =
      some ((Word.readClamped (Word.digits n)).toNat, rest) := by
  have hspan : (Word.digits n ++ ']' :: rest).span Char.isDigit = (Word.digits n, ']' :: rest) :=
    span_append (fun c hc => Word.isDigit_of_mem_digits hc) (stops_cons.2 (by decide))
  unfold digitsUntil?
  rw [hspan]
  obtain ⟨d, ds, hds⟩ := exists_cons_of_ne_nil (Word.digits_ne_nil n)
  rw [hds]
  dsimp only
  rw [if_pos rfl]

theorem read?_text {w : Wire} (h : (w.index : Int) ≤ Word.largest) : read? w.text = some w := by
  cases w with
  | register n =>
    have hafter := after?_append registerName ('[' :: (Word.digits n ++ [']']))
    have hdigits := digitsUntil?_append n []
    rw [readClamped_digits (show (n : Int) ≤ Word.largest from h)] at hdigits
    unfold read?
    split
    case h_1 ds heq => exact absurd (List.cons.inj heq).1 (by decide)
    case h_2 =>
      show (after? registerName (registerName.toList ++ '[' :: (Word.digits n ++ [']'])) >>= _) = _
      rw [hafter]
      show (digitsUntil? ']' (Word.digits n ++ [']'])).bind _ = _
      rw [hdigits]
      rfl
  | physical n =>
    have hdigits : Word.digits n ≠ [] ∧ (Word.digits n).all Char.isDigit :=
      ⟨Word.digits_ne_nil n, all_eq_true.2 fun c hc => Word.isDigit_of_mem_digits hc⟩
    show (if Word.digits n ≠ [] ∧ (Word.digits n).all Char.isDigit then
      some (Wire.physical (Word.readClamped (Word.digits n)).toNat) else none) = _
    rw [if_pos hdigits, readClamped_digits (show (n : Int) ≤ Word.largest from h)]

theorem text_of_wire? {e : Expr} {w : Wire} (h : e.wire? = some w) : e.text = w.text := by
  unfold Expr.wire? at h
  split at h
  · rename_i base n
    split at h
    · rename_i hbase
      cases h
      have htext : base.text = registerName.toList := by
        unfold Expr.isRegister at hbase
        split at hbase
        · rw [← beq_iff_eq.1 hbase]
          rfl
        · rw [← beq_iff_eq.1 hbase]
          rfl
        · cases hbase
      show base.text ++ '[' :: (Word.digits n ++ [']']) = _
      rw [htext]
      rfl
    · cases h
  · cases h
    rfl
  · cases h

theorem texts_of_wires {qubits : List Expr} (h : ∀ q ∈ qubits, q.wire?.isSome) :
    Expr.texts qubits = (qubits.filterMap Expr.wire?).map Wire.text := by
  rw [texts_eq_map]
  induction qubits with
  | nil => rfl
  | cons q qs ih =>
    obtain ⟨w, hw⟩ := Option.isSome_iff_exists.1 (h q mem_cons_self)
    rw [map_cons, filterMap_cons_some hw, map_cons, text_of_wire? hw, ih fun q hq => h q (mem_cons_of_mem _ hq)]

end Wire

namespace Operands

theorem ofParts_eq {parts : List (List Char)} {ws : List Wire}
    (h : Forall₂ (fun part w => Wire.read? (trim part) = some w) parts ws) :
    ofParts parts = ⟨some (ws.map Wire.index), ws.any Wire.isPhysical⟩ := by
  induction h with
  | nil => rfl
  | cons hw _ ih =>
    rw [ofParts, hw]
    dsimp only
    rw [ih]
    rfl

theorem read_commaSep {ws : List Wire} (hne : ws ≠ []) (h : ∀ w ∈ ws, (w.index : Int) ≤ Word.largest) :
    read (commaSep (ws.map Wire.text)) = ⟨some (ws.map Wire.index), ws.any Wire.isPhysical⟩ := by
  obtain ⟨w, ws, rfl⟩ := exists_cons_of_ne_nil hne
  have hcomma : ∀ cs ∈ w.text :: ws.map Wire.text, ',' ∉ cs := by
    intro cs hcs hin
    obtain ⟨v, -, rfl⟩ : ∃ v ∈ w :: ws, v.text = cs := mem_map.1 hcs
    exact absurd (v.isWireChar_text _ hin) (by decide)
  have hread : ∀ v ∈ w :: ws, Wire.read? (trim v.text) = some v := fun v hv => by
    rw [v.firm_text.trim]
    exact Wire.read?_text (h v hv)
  have hblank : ∀ v ∈ ws, Wire.read? (trim (' ' :: v.text)) = some v := fun v hv => by
    have htrim : trim ([' '] ++ v.text) = trim v.text := trim_append (forall_mem_of_all (by decide))
    rw [← singleton_append, htrim]
    exact hread v (mem_cons_of_mem _ hv)
  rw [read, map_cons, split_commaSep hcomma]
  refine ofParts_eq (.cons (hread w mem_cons_self) ?_)
  rw [map_map, forall₂_map_left_iff]
  exact forall₂_same.2 hblank

theorem read_wire {w : Wire} (h : (w.index : Int) ≤ Word.largest) :
    read w.text = ⟨some [w.index], [w].any Wire.isPhysical⟩ := by
  have hread := read_commaSep (cons_ne_nil w []) (forall_mem_singleton.2 h)
  rwa [map_singleton, commaSep, intercalate_singleton] at hread

end Operands

/-! ### Angles -/

theorem isSome_filterMap_length {α β : Type} {f : α → Option β} {xs : List α} (h : ∀ x ∈ xs, (f x).isSome) :
    (xs.filterMap f).length = xs.length := by
  induction xs with
  | nil => rfl
  | cons x xs ih =>
    obtain ⟨y, hy⟩ := Option.isSome_iff_exists.1 (h x mem_cons_self)
    rw [filterMap_cons_some hy, length_cons, length_cons, ih fun x hx => h x (mem_cons_of_mem _ hx)]

theorem angles_eq (cs : List Char) : Sketch.angles cs = (split ',' cs).filterMap Angle.read? := by
  unfold Sketch.angles
  split
  · rename_i hnil
    rw [hnil]
    rfl
  · rfl

theorem angles_commaSep {texts : List (List Char)} (h : ∀ cs ∈ texts, ',' ∉ cs) :
    Sketch.angles (commaSep texts) = texts.filterMap Angle.read? := by
  cases texts with
  | nil => rfl
  | cons first others =>
    rw [angles_eq, split_commaSep h]
    simp only [filterMap_cons, filterMap_map, Function.comp_def, Angle.read?_blank]

end QasmStudio

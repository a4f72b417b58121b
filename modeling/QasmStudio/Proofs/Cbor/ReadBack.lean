import Mathlib.Algebra.Group.Nat.Defs
import Mathlib.Data.List.Forall2
import QasmStudio.Cbor.Item

/-!
# Reading heads and items back

`IsHead m n bs`: the bytes are a head of the major type with the number, in one of its forms. The shortest
one is what is written, and each of them is read as the same, whatever follows. `ReadAs levels bs x`: where
arrays and maps may nest `levels` deep, the bytes `bs` in front of any others are read as the item `x`, and
the others are left.
-/

namespace QasmStudio.Cbor

open List

/-! ### Numbers -/

theorem length_bigEndian (count n : Nat) : (bigEndian count n).length = count := by
  induction count generalizing n with
  | zero => rfl
  | succ count ih => simp [bigEndian, ih]

theorem ofBytes_bigEndian {count n : Nat} (acc : Nat) (h : n < 256 ^ count) :
    ofBytes acc (bigEndian count n) = acc * 256 ^ count + n := by
  induction count generalizing acc n with
  | zero =>
    simp only [Nat.pow_zero] at h
    simp [bigEndian, ofBytes]
    omega
  | succ count ih =>
    have hpos : 0 < 256 ^ count := Nat.pow_pos (by decide)
    have hdigit : n / 256 ^ count < 256 := by
      rw [Nat.div_lt_iff_lt_mul hpos]
      rwa [Nat.pow_succ, Nat.mul_comm] at h
    have hrest : n % 256 ^ count < 256 ^ count := Nat.mod_lt _ hpos
    have hbyte : (UInt8.ofNat (n / 256 ^ count)).toNat = n / 256 ^ count := UInt8.toNat_ofNat_of_lt' hdigit
    simp only [bigEndian, ofBytes, Nat.pow_eq]
    rw [hbyte, ih _ hrest, Nat.add_mul, Nat.mul_assoc, ← Nat.pow_succ', Nat.add_assoc, Nat.div_add_mod']

theorem take?_append (bs rest : Bytes) : take? bs.length (bs ++ rest) = some (bs, rest) := by
  simp [take?]

theorem readNumber_append (info count : Nat) {n : Nat} (h : n < 256 ^ count) (rest : Bytes) :
    readNumber info count (bigEndian count n ++ rest) = some (.number info n, rest) := by
  have htake := take?_append (bigEndian count n) rest
  rw [length_bigEndian] at htake
  simp [readNumber, htake, ofBytes_bigEndian 0 h]

/-! ### Heads -/

theorem Major.code_lt (m : Major) : m.code < 8 := by cases m <;> decide

theorem Major.ofCode_code (m : Major) : ofCode m.code = m := by cases m <;> rfl

/-- The first byte tells the major type and the form of the number apart. -/
theorem toNat_initialByte (m : Major) {info : Nat} (h : info < 32) :
    (initialByte m info).toNat / 32 = m.code ∧ (initialByte m info).toNat % 32 = info := by
  have hcode := m.code_lt
  have hbyte : (initialByte m info).toNat = m.code * 32 + info := by
    simp only [initialByte, UInt8.toNat_ofNat']
    omega
  omega

theorem readHead_cons (m : Major) {info : Nat} (h : info < 32) (bs : Bytes) :
    readHead (initialByte m info :: bs) = (readArgument m info bs).map fun x => (m, x) := by
  obtain ⟨hmajor, hinfo⟩ := toNat_initialByte m h
  simp only [readHead, hmajor, hinfo, Major.ofCode_code]
  cases readArgument m info bs <;> rfl

/-- The forms of a number: itself in the first byte, or in one, two, four or eight bytes after it. -/
inductive IsHead (m : Major) (n : Nat) : Bytes → Prop where
  | short (h : n < 24) : IsHead m n [initialByte m n]
  | long (e : Nat) (he : e < 4) (h : n < 256 ^ 2 ^ e) : IsHead m n (initialByte m (24 + e) :: bigEndian (2 ^ e) n)

theorem isHead_writeHead (m : Major) {n : Nat} (h : n < 2 ^ 64) : IsHead m n (writeHead m n) := by
  unfold writeHead
  split_ifs with h₁ h₂ h₃ h₄
  · exact .short h₁
  · exact .long 0 (by decide) h₂
  · exact .long 1 (by decide) h₃
  · exact .long 2 (by decide) h₄
  · exact .long 3 (by decide) h

theorem IsHead.readHead {m : Major} {n : Nat} {bs : Bytes} (h : IsHead m n bs) (hm : m ≠ .simple) (rest : Bytes) :
    ∃ info, readHead (bs ++ rest) = some (m, .number info n, rest) := by
  cases h with
  | short h =>
    refine ⟨n, ?_⟩
    rw [singleton_append, readHead_cons m (by omega)]
    simp [readArgument, h]
  | long e he h =>
    have hread := readNumber_append (24 + e) (2 ^ e) h rest
    have harg : readArgument m (24 + e) (bigEndian (2 ^ e) n ++ rest) = some (.number (24 + e) n, rest) := by
      match e, he with
      | 0, _ =>
        simp only [Nat.pow_zero, Nat.add_zero] at hread
        simp [readArgument, hread, hm]
      | 1, _ | 2, _ | 3, _ => simpa [readArgument] using hread
    refine ⟨24 + e, ?_⟩
    rw [cons_append, readHead_cons m (by omega), harg]
    rfl

/-! ### Items -/

/-- In front of any other bytes, `bs` is read as `x`. -/
def ReadAs (levels : Nat) (bs : Bytes) (x : Item) : Prop :=
  ∀ rest, Item.readWithin levels (bs ++ rest) = some (x, rest)

/-- The reader of the items one level deeper. -/
def innerOf : Nat → Option (Read Item)
  | 0 => none
  | levels + 1 => some (Item.readWithin levels)

theorem readWithin_eq (levels : Nat) (bs : Bytes) : Item.readWithin levels bs = readItem (innerOf levels) bs := by
  cases levels <;> rfl

namespace ReadAs
variable {levels : Nat} {bs : Bytes} {x : Item}

theorem read? (h : ReadAs maxLevels bs x) : Item.read? bs = some x := by
  have hread := h []
  rw [append_nil] at hread
  simp [Item.read?, hread]

theorem of_head {m : Major} {n : Nat} {head content : Bytes} (hm : m ≠ .simple) (ht : m ≠ .tag) (hn : IsHead m n head)
    (h : ∀ info rest, readContent (innerOf levels) m (.number info n) (content ++ rest) = some (x, rest)) :
    ReadAs levels (head ++ content) x := by
  intro rest
  obtain ⟨info, hhead⟩ := hn.readHead hm (content ++ rest)
  rw [readWithin_eq, append_assoc]
  unfold readItem
  rw [hhead]
  cases m with
  | tag => exact absurd rfl ht
  | _ => exact h info rest

variable {n : Nat} {head : Bytes}

theorem unsigned (h : IsHead .unsigned n head) : ReadAs levels head (.unsigned n) := by
  rw [← append_nil head]
  exact of_head (by decide) (by decide) h fun _ _ => rfl

theorem negative (h : IsHead .negative n head) : ReadAs levels head (.negative n) := by
  rw [← append_nil head]
  exact of_head (by decide) (by decide) h fun _ _ => rfl

theorem text (h : IsHead .text bs.length head) : ReadAs levels (head ++ bs) (.text [bs]) := by
  refine of_head (by decide) (by decide) h fun info rest => ?_
  simp [readContent, readChunks, take?_append]

theorem bool (b : Bool) : ReadAs levels [initialByte .simple (if b then 21 else 20)] (.bool b) := by
  intro rest
  rw [readWithin_eq, singleton_append]
  unfold readItem
  rw [readHead_cons .simple (by cases b <;> decide)]
  cases b <;> rfl

end ReadAs

theorem readMany_append {α : Type} {read : Read α} {pieces : List Bytes} {xs : List α}
    (h : Forall₂ (fun bs x => ∀ rest, read (bs ++ rest) = some (x, rest)) pieces xs) (rest : Bytes) :
    readMany read xs.length (pieces.flatten ++ rest) = some (xs, rest) := by
  induction h with
  | nil => rfl
  | @cons bs x pieces xs hx _ ih => simp [readMany, hx, ih]

theorem readEntries_append {α : Type} {read : Read α} {pieces : List Bytes} {xs : List α}
    (h : Forall₂ (fun bs x => ∀ rest, read (bs ++ rest) = some (x, rest)) pieces xs)
    (hmax : xs.length ≤ maxEntries) (info : Nat) (rest : Bytes) :
    readEntries read (.number info xs.length) (pieces.flatten ++ rest) = some (xs, rest) := by
  simp only [readEntries, if_neg (Nat.not_lt.2 hmax)]
  exact readMany_append h rest

namespace ReadAs
variable {levels : Nat} {head : Bytes} {pieces : List Bytes}

theorem array {xs : List Item} (hhead : IsHead .array xs.length head) (h : Forall₂ (ReadAs levels) pieces xs)
    (hmax : xs.length ≤ maxEntries) : ReadAs (levels + 1) (head ++ pieces.flatten) (.array xs) := by
  refine of_head (by decide) (by decide) hhead fun info rest => ?_
  simp [readContent, innerOf, readEntries_append h hmax]

theorem map {xs : List (Item × Item)} (hhead : IsHead .map xs.length head)
    (h : Forall₂ (fun bs x => ∃ k v, bs = k ++ v ∧ ReadAs levels k x.1 ∧ ReadAs levels v x.2) pieces xs)
    (hmax : xs.length ≤ maxEntries) : ReadAs (levels + 1) (head ++ pieces.flatten) (.map xs) := by
  have hpairs : Forall₂ (fun bs x => ∀ rest, readPair (Item.readWithin levels) (bs ++ rest) = some (x, rest))
      pieces xs := by
    refine h.imp fun bs x hx rest => ?_
    obtain ⟨k, v, rfl, hk, hv⟩ := hx
    simp [readPair, append_assoc, hk (v ++ rest), hv rest]
  refine of_head (by decide) (by decide) hhead fun info rest => ?_
  simp [readContent, innerOf, readEntries_append hpairs hmax]

end ReadAs

end QasmStudio.Cbor

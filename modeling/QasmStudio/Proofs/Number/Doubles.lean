import Mathlib
import QasmStudio.Number.Format

/-!
# Integers as doubles

An integer of up to 64 binary digits is converted to a double by keeping its first 53 digits and
rounding, a tie to even (`holds_ofInt`). The conversion keeps the order (`nearestInt_mono`), and
doubles that hold integers compare as these do (`Holds.compare`).
-/

namespace QasmStudio.Number
variable {n m : Nat} {s : Sign} {e : Int}
open Float.Model UnpackedFloat

/-! ### Rounding a mantissa -/

theorem shift_exact (m k : Nat) : ExtendedMantissa.ofMantissaAndAccuracy m .exact >>> (k + 1) =
    ⟨m / 2 ^ (k + 1), m / 2 ^ k % 2 != 0, m % 2 ^ k != 0⟩ := by
  show (k + 1).repeat ExtendedMantissa.shiftRightOne _ = _
  induction k with
  | zero => simp [Nat.repeat, ExtendedMantissa.shiftRightOne, ExtendedMantissa.ofMantissaAndAccuracy, Nat.mod_one]
  | succ k ih =>
    have hsticky : (m / 2 ^ k % 2 != 0 || m % 2 ^ k != 0) = (m % 2 ^ (k + 1) != 0) := by
      rw [Nat.pow_succ, Nat.mod_mul]
      rcases Nat.mod_two_eq_zero_or_one (m / 2 ^ k) with h | h <;> simp [h]
    rw [Nat.repeat, ih]
    simp only [ExtendedMantissa.shiftRightOne, hsticky, Nat.div_div_eq_div_mul, ← Nat.pow_succ]

theorem roundedMantissa_eq (q : Nat) (half more : Bool) : (ExtendedMantissa.mk q half more).roundedMantissa =
    if half = false ∨ more = false ∧ q % 2 = 0 then q else q + 1 := by
  cases half <;> cases more <;>
    simp only [ExtendedMantissa.roundedMantissa, ExtendedMantissa.accuracy, Accuracy.roundToNearestEven] <;> grind

theorem nearest_one (m : Nat) : Format.nearest m (2 ^ 0) = m := by
  simp [Format.nearest, Nat.mod_one]

theorem roundedMantissa_shift (m k : Nat) :
    (ExtendedMantissa.ofMantissaAndAccuracy m .exact >>> k).roundedMantissa = Format.nearest m (2 ^ k) := by
  cases k with
  | zero => exact (nearest_one m).symm
  | succ k =>
    have hlt : m % 2 ^ k < 2 ^ k := Nat.mod_lt _ (Nat.two_pow_pos k)
    have hrest : m % 2 ^ (k + 1) = m % 2 ^ k + 2 ^ k * (m / 2 ^ k % 2) := by rw [Nat.pow_succ, Nat.mod_mul]
    rw [shift_exact, roundedMantissa_eq, Format.nearest, hrest, Nat.pow_succ]
    rcases Nat.mod_two_eq_zero_or_one (m / 2 ^ k) with ha | ha <;> rw [ha] <;> grind

theorem nearest_scaled (m k c : Nat) : Format.nearest (m * 2 ^ c) (2 ^ (k + c)) = Format.nearest m (2 ^ k) := by
  have hc := Nat.two_pow_pos c
  have hiff : ∀ x y : Nat, 2 * (x * 2 ^ c) < y * 2 ^ c ↔ 2 * x < y := fun x y => by
    rw [← Nat.mul_assoc]
    exact Nat.mul_lt_mul_right hc
  have heq : ∀ x y : Nat, 2 * (x * 2 ^ c) = y * 2 ^ c ↔ 2 * x = y := fun x y => by
    rw [← Nat.mul_assoc]
    exact Nat.mul_left_inj (by omega)
  simp only [Format.nearest, Nat.pow_add, Nat.mul_div_mul_right _ _ hc, Nat.mul_mod_mul_right, hiff, heq]

theorem log2_of_bits (hm : 2 ^ 52 ≤ m) : 52 ≤ m.log2 ∧
    2 ^ 52 * 2 ^ (m.log2 - 52) ≤ m ∧ m < 2 ^ 53 * 2 ^ (m.log2 - 52) := by
  have hlog : 52 ≤ m.log2 := (Nat.le_log2 (by omega)).2 hm
  obtain ⟨k, hk⟩ := Nat.exists_eq_add_of_le hlog
  have hlow : 2 ^ m.log2 ≤ m := Nat.log2_self_le (by omega)
  have hhigh : m < 2 ^ (m.log2 + 1) := Nat.lt_log2_self
  rw [hk, Nat.pow_add] at hlow
  rw [hk, show 52 + k + 1 = 53 + k by omega, Nat.pow_add] at hhigh
  rw [hk, Nat.add_sub_cancel_left]
  exact ⟨Nat.le_add_right _ _, hlow, hhigh⟩

theorem shiftToTargetExponent_eq (hm : 2 ^ 52 ≤ m)
    (he : -1074 ≤ e + (m.log2 - 52 : Nat)) : shiftToTargetExponent .binary64 m e .exact =
      (ExtendedMantissa.ofMantissaAndAccuracy m .exact >>> (m.log2 - 52), e + (m.log2 - 52 : Nat)) := by
  have hlog := (log2_of_bits hm).1
  have htarget : Float.Model.Format.targetExponent .binary64 (totalExponent m e) = e + (m.log2 - 52 : Nat) := by
    show max ((m.log2 : Int) + 1 + e - 53) (-1074) = _
    omega
  have hshift : (e + ((m.log2 - 52 : Nat) : Int) - e).toNat = m.log2 - 52 := by omega
  simp only [shiftToTargetExponent, shiftToExponent, htarget, hshift]

theorem nearest_bounds (hm : 2 ^ 52 ≤ m) : 2 ^ 52 ≤ Format.nearest m (2 ^ (m.log2 - 52)) ∧
      Format.nearest m (2 ^ (m.log2 - 52)) ≤ 2 ^ 53 := by
  obtain ⟨-, hlow, hhigh⟩ := log2_of_bits hm
  have hpos := Nat.two_pow_pos (m.log2 - 52)
  have hq : 2 ^ 52 ≤ m / 2 ^ (m.log2 - 52) := (Nat.le_div_iff_mul_le hpos).2 hlow
  have hq' : m / 2 ^ (m.log2 - 52) < 2 ^ 53 := (Nat.div_lt_iff_lt_mul hpos).2 hhigh
  unfold Format.nearest
  dsimp only
  split <;> omega

/-- A mantissa of at least 53 bits is rounded to 53 bits; if that makes it one bit longer, it is halved. -/
theorem roundWithAccuracy_exact (hm : 2 ^ 52 ≤ m) (he : -1074 ≤ e + (m.log2 - 52 : Nat)) :
    ∃ M, ∃ j : Nat, ∃ h, roundWithAccuracy .binary64 s m e .exact = .finite s M (e + (m.log2 - 52 : Nat) + j) h ∧
      j ≤ 1 ∧ 2 ^ 52 ≤ M ∧ M < 2 ^ 53 ∧ M * 2 ^ j = Format.nearest m (2 ^ (m.log2 - 52)) := by
  obtain ⟨hlow, hhigh⟩ := nearest_bounds hm
  rw [roundWithAccuracy, shiftToTargetExponent_eq hm he]
  dsimp only
  rw [roundedMantissa_shift, shiftToTargetExponent_eq hlow (by omega)]
  dsimp only
  generalize Format.nearest m (2 ^ (m.log2 - 52)) = q at *
  rcases Nat.lt_or_eq_of_le hhigh with hlt | rfl
  · have hlog : q.log2 - 52 = 0 := by
      have := (Nat.log2_lt (by omega)).2 hlt
      omega
    rw [hlog]
    exact ⟨q, 0, by omega, dif_neg (by show ¬ q = 0; omega), by omega, hlow, hlt, by omega⟩
  · exact ⟨2 ^ 52, 1, by omega, rfl, by omega, by omega, by omega, by omega⟩

/-- A number with a mantissa of 53 bits is not changed by packing it. -/
theorem unpack_pack {h : 0 < m} (hlow : 2 ^ 52 ≤ m) (hhigh : m < 2 ^ 53) (he : -1074 ≤ e) (he' : e ≤ 971) :
    (Float.Model.pack (.finite s m e h)).unpack = .finite s m e h := by
  have hlog : m.log2 + 1 = 53 := by rw [(Nat.log2_eq_iff (by omega)).2 ⟨hlow, hhigh⟩]
  obtain ⟨b, hb⟩ : ∃ b : Nat, e + 1075 = b := ⟨(e + 1075).toNat, by omega⟩
  have hpack : UnpackedFloat.pack .binary64 (.finite s m e h) =
      packComponents .binary64 s (BitVec.ofNat 11 b) (BitVec.ofNat 52 m) := by
    have hbias : (e + (1023 : Nat) + (52 : Nat)).toNat = b := by omega
    show (if 2 ^ 11 ≤ (e + (1023 : Nat) + (52 : Nat)).toNat + 1 then _ else if m.log2 + 1 = 53 then
      packComponents .binary64 s (BitVec.ofNat 11 (e + (1023 : Nat) + (52 : Nat)).toNat) (BitVec.ofNat 52 m) else _) = _
    rw [hbias, if_neg (by omega), if_pos hlog]
  show UnpackedFloat.unpack .binary64 (UnpackedFloat.pack .binary64 (.finite s m e h)) = _
  rw [hpack]
  have hmantissa : (1#1 ++ BitVec.ofNat 52 m).toNat = m := by
    rw [BitVec.toNat_append, BitVec.toNat_ofNat, BitVec.toNat_ofNat,
      ← Nat.shiftLeft_add_eq_or_of_lt (Nat.mod_lt _ (by decide)), Nat.shiftLeft_eq]
    omega
  have hexponent : (BitVec.ofNat 11 b).toNat = b := by
    rw [BitVec.toNat_ofNat]
    omega
  have hne : ∀ x : BitVec 11, x.toNat ≠ b → ¬ BitVec.ofNat 11 b = x := by
    rintro x hx rfl
    exact hx hexponent
  simp only [UnpackedFloat.unpack, unpackMantissa_packComponents, unpackExponent_packComponents,
    unpackSign_packComponents, Sign.ofBitVec_toBitVec]
  rw [if_neg (hne _ (by show 2047 ≠ b; omega)), if_neg (hne _ (by show 0 ≠ b; omega))]
  congr 1
  show ((BitVec.ofNat 11 b).toNat : Int) - ((1023 : Nat) + (52 : Nat)) = e
  rw [hexponent]
  omega

/-! ### Integers that doubles hold -/

/-- The float is a double, and the integer is its value, of no more than `b + 1` binary digits. -/
inductive Holds (b : Nat) : UnpackedFloat → Int → Prop
  | zero {s : Sign} : Holds b (.zero s) 0
  | finite {s : Sign} {m k v : Nat} {h : 0 < m} (hlow : 2 ^ 52 ≤ m) (hhigh : m < 2 ^ 53)
      (hk : k ≤ b) (hv : m * 2 ^ k = v * 2 ^ 52) : Holds b (.finite s m ((k : Int) - 52) h) (s.apply v)

/-- The whole number of 53 binary digits and of zeros behind them that is nearest to `n`; of two that are equally
near, the one whose digits are even. -/
def nearestNat (n : Nat) : Nat := Format.nearest n (2 ^ (n.log2 - 52)) * 2 ^ (n.log2 - 52)

theorem log2_mul_two_pow (hn : n ≠ 0) (c : Nat) : (n * 2 ^ c).log2 = n.log2 + c := by
  have hpos := Nat.two_pow_pos c
  refine (Nat.log2_eq_iff (Nat.mul_ne_zero hn (by omega))).2 ⟨?_, ?_⟩
  · rw [Nat.pow_add]
    exact Nat.mul_le_mul_right _ (Nat.log2_self_le hn)
  · rw [show n.log2 + c + 1 = n.log2 + 1 + c by omega, Nat.pow_add]
    exact Nat.mul_lt_mul_of_pos_right Nat.lt_log2_self hpos

namespace Holds
variable {b : Nat} {x y : UnpackedFloat} {v w : Int}

theorem pack (h : Holds b x v) (hb : b ≤ 1023) : Holds b (Float.Model.pack x).unpack v := by
  cases h with
  | @zero s =>
    have hzero : (Float.Model.pack (.zero s)).unpack = .zero s := by cases s <;> rfl
    rw [hzero]
    exact .zero
  | finite hlow hhigh hk hv =>
    rw [unpack_pack hlow hhigh (by omega) (by omega)]
    exact .finite hlow hhigh hk hv

theorem neg (h : Holds b x v) : Holds b x.neg (-v) := by
  cases h with
  | zero => exact .zero
  | @finite s m k v h hlow hhigh hk hv =>
    have hsign : -(s.apply v) = (-s).apply v := by cases s <;> simp [Sign.apply]
    rw [hsign]
    exact .finite hlow hhigh hk hv

theorem round {k v : Nat} (hm : 2 ^ 52 ≤ m) (hk : e + m.log2 = k)
    (hv : Format.nearest m (2 ^ (m.log2 - 52)) * 2 ^ k = v * 2 ^ 52) :
    Holds (k + 1) (roundWithAccuracy .binary64 s m e .exact) (s.apply v) := by
  have hlog := (log2_of_bits hm).1
  obtain ⟨M, j, hpos, hround, hj, hlow, hhigh, hM⟩ := roundWithAccuracy_exact (s := s) hm (e := e) (by omega)
  have hexp : e + (m.log2 - 52 : Nat) + j = ((k + j : Nat) : Int) - 52 := by omega
  rw [hround]
  simp only [hexp]
  refine .finite hlow hhigh (by omega) ?_
  rw [Nat.add_comm, Nat.pow_add, ← Nat.mul_assoc, hM, hv]

theorem mono {b' : Nat} (h : Holds b x v) (hb : b ≤ b') : Holds b' x v := by
  cases h with
  | zero => exact .zero
  | finite hlow hhigh hk hv => exact .finite hlow hhigh (Nat.le_trans hk hb) hv

theorem mul_one (h : Holds b x v) :
    Holds (b + 1) (mul .binary64 x (.finite .positive (2 ^ 52) (-52) (by decide))) v := by
  cases h with
  | zero => exact .zero
  | @finite s m k v h hlow hhigh hk hv =>
    have hlog : m.log2 = 52 := (Nat.log2_eq_iff (by omega)).2 ⟨hlow, hhigh⟩
    have hlog' : (m * 2 ^ 52).log2 = 104 := by
      have := log2_mul_two_pow (n := m) (by omega) 52
      rw [hlog] at this
      exact this
    have hnearest : Format.nearest (m * 2 ^ 52) (2 ^ (104 - 52)) = m :=
      (nearest_scaled m 0 52).trans (nearest_one m)
    have hsign : s * .positive = s := by cases s <;> rfl
    show Holds (b + 1) (roundWithAccuracy .binary64 (s * .positive) (m * 2 ^ 52) ((k : Int) - 52 + -52) .exact) _
    rw [hsign]
    refine (round (by omega) (by rw [hlog']; omega) ?_).mono (Nat.succ_le_succ hk)
    rw [hlog', hnearest, hv]

end Holds

theorem unpack_one : (Float.ofBits 0x3FF0000000000000).toModel.unpack =
    .finite .positive (2 ^ 52) (-52) (by decide) := rfl

/-- A number with at least 53 digits, zeros behind it counted, is rounded to 53 of them. -/
theorem holds_shifted {c : Nat} (hn : n ≠ 0) (hc : 2 ^ 52 ≤ n * 2 ^ c) :
    Holds (n.log2 + 1) (roundWithAccuracy .binary64 .positive (n * 2 ^ c) (-c) .exact) (nearestNat n) := by
  have hlog := log2_mul_two_pow hn c
  have hbits := (log2_of_bits hc).1
  refine Holds.round (s := .positive) hc (by omega) ?_
  rw [hlog, nearestNat]
  rcases Nat.le_total 52 n.log2 with hlarge | hsmall
  · obtain ⟨k, hk⟩ := Nat.exists_eq_add_of_le' hlarge
    rw [hk, show k + 52 + c - 52 = k + c by omega, nearest_scaled, Nat.add_sub_cancel, Nat.pow_add, Nat.mul_assoc]
  · obtain ⟨i, hi⟩ := Nat.exists_eq_add_of_le hsmall
    obtain ⟨d, rfl⟩ : ∃ d, c = i + d := Nat.exists_eq_add_of_le (by omega)
    have hnearest := (nearest_scaled (n * 2 ^ i) 0 d).trans (nearest_one _)
    rw [show n.log2 + (i + d) - 52 = 0 + d by omega, Nat.pow_add, ← Nat.mul_assoc, hnearest,
      show n.log2 - 52 = 0 by omega, nearest_one, Nat.mul_assoc, ← Nat.pow_add, Nat.add_comm, ← hi,
      Nat.pow_zero, Nat.mul_one]

/-- A number of no more than 53 digits is lengthened to 53 and not changed. -/
theorem holds_short (hn : n < 2 ^ 53) : Holds 53 (UnpackedFloat.ofNat .binary64 n) (nearestNat n) := by
  rcases Nat.eq_zero_or_pos n with rfl | hpos
  · exact .zero
  have hlog : n.log2 < 53 := (Nat.log2_lt (by omega)).2 hn
  have hshift : 2 ^ 52 ≤ n * 2 ^ (52 - n.log2) := by
    have := Nat.mul_le_mul_right (2 ^ (52 - n.log2)) (Nat.log2_self_le (n := n) (by omega))
    rwa [← Nat.pow_add, show n.log2 + (52 - n.log2) = 52 by omega] at this
  have htarget : (0 - Float.Model.Format.targetExponent .binary64 (totalExponent n 0)).toNat = 52 - n.log2 := by
    show (0 - max ((n.log2 : Int) + 1 + 0 - 53) (-1074)).toNat = _
    omega
  have hround : UnpackedFloat.ofNat .binary64 n =
      roundWithAccuracy .binary64 .positive (n * 2 ^ (52 - n.log2)) (-(52 - n.log2 : Nat)) .exact := by
    have hgt : compare (n : Int) 0 = .gt := by
      rw [Int.compare_eq_gt]
      omega
    show UnpackedFloat.normalize .binary64 n 0 .positive = _
    rw [UnpackedFloat.normalize, hgt]
    show UnpackedFloat.round .binary64 .positive n 0 = _
    simp only [UnpackedFloat.round, decreaseExponent, htarget, Nat.shiftLeft_eq]
    rw [Int.zero_sub]
  rw [hround]
  exact (holds_shifted (by omega) hshift).mono (by omega)

theorem ofScientific_zero (hn : n ≠ 0) : UnpackedFloat.ofScientific .binary64 n 0 =
    roundWithAccuracy .binary64 .positive (n * 2 ^ 53) (-53) .exact := by
  have hbits : Float.Model.Format.binary64.mantissaBits = 53 := rfl
  have hlow : ¬ (0 : Int) < -(2 ^ Float.Model.Format.binary64.exponentBits + n.log2) := by
    rw [show Float.Model.Format.binary64.exponentBits = 11 from rfl]
    omega
  rw [UnpackedFloat.ofScientific, dif_neg hn, if_neg (by decide), if_neg hlow, if_pos (by decide)]
  simp only [UnpackedFloat.mul, hbits, Nat.shiftLeft_eq, Int.toNat_zero, Nat.pow_zero, Nat.mul_one, Int.add_zero]
  rfl

theorem holds_ofNat (hn : n < 2 ^ 64) : Holds 64 (Float.ofNat n).toModel.unpack (nearestNat n) := by
  show Holds 64 (Float.ofScientific n false 0).toModel.unpack _
  rw [Float.ofScientific]
  split
  · next h =>
    have hword : (UInt64.ofNat n).toNat = n := by
      rw [UInt64.toNat_ofNat']
      omega
    have hshort := ((holds_short h.1).pack (by decide)).mul_one.pack (by decide)
    show Holds 64 (Float.Model.pack (mul .binary64 (Float.Model.pack (UnpackedFloat.ofNat .binary64
      (UInt64.ofNat n).toNat)).unpack (Float.ofBits 0x3FF0000000000000).toModel.unpack)).unpack _
    rw [hword, unpack_one]
    exact hshort.mono (by decide)
  · next h =>
    have hlong : 2 ^ 53 ≤ n := by
      have := not_and.1 h
      omega
    have hlog : n.log2 < 64 := (Nat.log2_lt (by omega)).2 hn
    have hshifted := holds_shifted (n := n) (c := 53) (by omega) (by omega)
    refine Holds.pack ?_ (by decide)
    show Holds 64 (UnpackedFloat.ofScientific .binary64 n 0) _
    rw [ofScientific_zero (by omega)]
    exact hshifted.mono (by omega)

/-- The integer that the double nearest to an integer holds. -/
def nearestInt : Int → Int
  | .ofNat n => nearestNat n
  | .negSucc n => -nearestNat (n + 1)

/-- Converting an integer keeps its first 53 binary digits, rounded. -/
theorem holds_ofInt {n : Int} (hn : n.natAbs < 2 ^ 64) : Holds 64 (Float.ofInt n).toModel.unpack (nearestInt n) := by
  cases n with
  | ofNat n => exact holds_ofNat hn
  | negSucc n => exact (holds_ofNat hn).neg.pack (by decide)

/-! ### The order of the nearest doubles -/

theorem nearest_mono {a b d : Nat} (h : a ≤ b) : Format.nearest a d ≤ Format.nearest b d := by
  have hdiv : a / d ≤ b / d := Nat.div_le_div_right h
  have hrest : a / d = b / d → a % d ≤ b % d := by
    intro heq
    have := Nat.div_add_mod a d
    have := Nat.div_add_mod b d
    rw [heq] at *
    omega
  simp only [Format.nearest, Bool.or_eq_true, Bool.and_eq_true, decide_eq_true_eq]
  generalize a / d = q at *
  generalize b / d = q' at *
  split <;> split <;> omega

theorem nearestNat_of_short (h : n.log2 ≤ 52) : nearestNat n = n := by
  rw [nearestNat, Nat.sub_eq_zero_of_le h, nearest_one, Nat.pow_zero, Nat.mul_one]

/-- Rounding may lengthen a number by one digit, and not more. -/
theorem nearestNat_bounds (hn : n ≠ 0) : 2 ^ n.log2 ≤ nearestNat n ∧ nearestNat n ≤ 2 ^ (n.log2 + 1) := by
  rcases Nat.le_total n.log2 52 with hshort | hlong
  · rw [nearestNat_of_short hshort]
    exact ⟨Nat.log2_self_le hn, Nat.le_of_lt Nat.lt_log2_self⟩
  · obtain ⟨k, hk⟩ := Nat.exists_eq_add_of_le hlong
    have hmin : 2 ^ 52 ≤ n := Nat.le_trans (Nat.pow_le_pow_right Nat.two_pos hlong) (Nat.log2_self_le hn)
    obtain ⟨hlow, hhigh⟩ := nearest_bounds hmin
    rw [nearestNat, hk, Nat.add_sub_cancel_left] at *
    rw [show 52 + k + 1 = 53 + k by omega, Nat.pow_add, Nat.pow_add]
    exact ⟨Nat.mul_le_mul_right _ hlow, Nat.mul_le_mul_right _ hhigh⟩

theorem nearestNat_mono (h : m ≤ n) : nearestNat m ≤ nearestNat n := by
  rcases Nat.eq_zero_or_pos m with rfl | hm
  · exact Nat.zero_le _
  have hlog : m.log2 ≤ n.log2 := (Nat.le_log2 (by omega)).2 (Nat.le_trans (Nat.log2_self_le (by omega)) h)
  rcases Nat.lt_or_eq_of_le hlog with hlt | heq
  · calc nearestNat m ≤ 2 ^ (m.log2 + 1) := (nearestNat_bounds (by omega)).2
      _ ≤ 2 ^ n.log2 := Nat.pow_le_pow_right (by decide) hlt
      _ ≤ nearestNat n := (nearestNat_bounds (by omega)).1
  · rw [nearestNat, nearestNat, heq]
    exact Nat.mul_le_mul_right _ (nearest_mono h)

theorem nearestInt_mono {m n : Int} (h : m ≤ n) : nearestInt m ≤ nearestInt n := by
  cases m with
  | ofNat m =>
    cases n with
    | ofNat n => exact Int.ofNat_le.2 (nearestNat_mono (Int.ofNat_le.1 h))
    | negSucc n => exact absurd h (by simp only [Int.ofNat_eq_natCast]; omega)
  | negSucc m =>
    cases n with
    | ofNat n =>
      simp only [nearestInt]
      omega
    | negSucc n => exact Int.neg_le_neg (Int.ofNat_le.2 (nearestNat_mono (by omega)))

theorem nearestInt_of_short {n : Int} (h : n.natAbs ≤ 2 ^ 53) : nearestInt n = n := by
  have hnat : ∀ k ≤ 2 ^ 53, nearestNat k = k := by
    intro k hk
    rcases Nat.lt_or_eq_of_le hk with hlt | rfl
    · rcases Nat.eq_zero_or_pos k with rfl | hpos
      · rfl
      · exact nearestNat_of_short (Nat.le_of_lt_succ ((Nat.log2_lt (by omega)).2 hlt))
    · decide
  cases n with
  | ofNat n => exact congrArg Int.ofNat (hnat n h)
  | negSucc n => exact congrArg (fun k : Nat => -(k : Int)) (hnat (n + 1) h)

/-! ### Comparisons -/

/-- A larger exponent makes a larger number, whatever the digits are. -/
theorem lt_of_exponent_lt {m' k k' v v' : Nat} (hhigh : m < 2 ^ 53) (hlow : 2 ^ 52 ≤ m')
    (hv : m * 2 ^ k = v * 2 ^ 52) (hv' : m' * 2 ^ k' = v' * 2 ^ 52) (hk : k < k') : v < v' := by
  have hpow : 2 ^ k * 2 ≤ 2 ^ k' := by
    rw [← Nat.pow_succ]
    exact Nat.pow_le_pow_right (by decide) hk
  have hpos := Nat.two_pow_pos k
  have : m * 2 ^ k < 2 ^ 53 * 2 ^ k := Nat.mul_lt_mul_of_pos_right hhigh hpos
  have : 2 ^ 52 * 2 ^ k' ≤ m' * 2 ^ k' := Nat.mul_le_mul_right _ hlow
  omega

theorem then_compare {m' k k' v v' : Nat} (hlow : 2 ^ 52 ≤ m) (hhigh : m < 2 ^ 53)
    (hv : m * 2 ^ k = v * 2 ^ 52) (hlow' : 2 ^ 52 ≤ m') (hhigh' : m' < 2 ^ 53)
    (hv' : m' * 2 ^ k' = v' * 2 ^ 52) :
    (compare ((k : Int) - 52) ((k' : Int) - 52)).then (compare m m') = compare (v : Int) v' := by
  have hlt := lt_of_exponent_lt hhigh hlow' hv hv'
  have hgt := lt_of_exponent_lt hhigh' hlow hv' hv
  have heq : k = k' → (m < m' ↔ v < v') ∧ (m' < m ↔ v' < v) := by
    rintro rfl
    have hpos := Nat.two_pow_pos k
    have := Nat.mul_lt_mul_right (b := m) (c := m') hpos
    have := Nat.mul_lt_mul_right (b := m') (c := m) hpos
    omega
  clear hv hv'
  rw [Int.compare_eq_ite_lt, Int.compare_eq_ite_lt, Nat.compare_eq_ite_lt]
  grind [Ordering.then]

theorem compare_neg_neg (v w : Int) : compare (-v) (-w) = (compare v w).swap := by
  rw [Int.compare_swap, Int.compare_eq_ite_lt, Int.compare_eq_ite_lt]
  grind

theorem pos_of_digits {k v : Nat} (hlow : 2 ^ 52 ≤ m) (hv : m * 2 ^ k = v * 2 ^ 52) : 0 < v := by
  have := Nat.mul_le_mul hlow (Nat.two_pow_pos k)
  omega

/-- Doubles that hold integers compare as the integers do. -/
theorem Holds.compare {b : Nat} {x y : UnpackedFloat} {v w : Int} (hx : Holds b x v) (hy : Holds b y w) :
    x.compare y = some (Ord.compare v w) := by
  cases hx with
  | zero =>
    cases hy with
    | zero => rfl
    | @finite s _ _ w _ hlow _ _ hw =>
      have hpos := pos_of_digits hlow hw
      rw [Int.compare_eq_ite_lt]
      cases s <;> simp only [UnpackedFloat.compare, Sign.apply] <;> grind
  | @finite s _ _ v _ hlow hhigh _ hv =>
    have hpos := pos_of_digits hlow hv
    cases hy with
    | zero =>
      rw [Int.compare_eq_ite_lt]
      cases s <;> simp only [UnpackedFloat.compare, Sign.apply] <;> grind
    | @finite s' _ _ w _ hlow' hhigh' _ hw =>
      have hpos' := pos_of_digits hlow' hw
      have hthen := then_compare hlow hhigh hv hlow' hhigh' hw
      cases s <;> cases s'
      · exact congrArg some ((congrArg Ordering.swap hthen).trans (compare_neg_neg _ _).symm)
      · exact congrArg some (Int.compare_eq_lt.2 (by simp [Sign.apply]; omega)).symm
      · exact congrArg some (Int.compare_eq_gt.2 (by simp [Sign.apply]; omega)).symm
      · exact congrArg some hthen

namespace Holds
variable {b : Nat} {x y : Float} {v w : Int}

theorem beq (hx : Holds b x.toModel.unpack v) (hy : Holds b y.toModel.unpack w) : (x == y) = decide (v = w) := by
  show (x.toModel.unpack.compare y.toModel.unpack == some .eq) = _
  rw [hx.compare hy]
  exact Bool.eq_iff_iff.2 (by simp)

theorem lt_iff (hx : Holds b x.toModel.unpack v) (hy : Holds b y.toModel.unpack w) : x < y ↔ v < w := by
  show x.lt y = true ↔ _
  rw [Float.lt, decide_eq_true_iff]
  show (x.toModel.unpack.compare y.toModel.unpack == some .lt) = true ↔ _
  rw [hx.compare hy, beq_iff_eq, Option.some_inj, Int.compare_eq_lt]

theorem le_iff (hx : Holds b x.toModel.unpack v) (hy : Holds b y.toModel.unpack w) : x ≤ y ↔ v ≤ w := by
  show x.le y = true ↔ _
  rw [Float.le, decide_eq_true_iff]
  show (x.toModel.unpack.compare y.toModel.unpack).any (·.isLE) = true ↔ _
  rw [hx.compare hy]
  exact Int.isLE_compare

end Holds

end QasmStudio.Number

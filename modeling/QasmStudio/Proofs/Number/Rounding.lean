import Mathlib.Algebra.Order.Field.Power
import Mathlib.Data.Rat.Cast.Order
import Mathlib.Tactic.FieldSimp
import Mathlib.Tactic.Linarith
import Mathlib.Tactic.NormNum
import Mathlib.Tactic.Positivity
import Mathlib.Tactic.Ring
import QasmStudio.Number.Reader

/-!
# The range of a binary format

`Format.round` has a result for every fraction below `Format.limit`, which lies half a unit above the
largest finite number: no fraction below it is rounded past that number.
-/

namespace QasmStudio.Number

namespace Format

theorem nearest_le {num den k : Nat} (hden : 0 < den) (h : 2 * num < (2 * k + 1) * den) : nearest num den ≤ k := by
  have hdiv := Nat.div_add_mod num den
  have hq : num / den ≤ k := Nat.lt_succ_iff.1 ((Nat.div_lt_iff_lt_mul hden).2 (by nlinarith))
  unfold nearest
  dsimp only
  split
  · exact hq
  · -- the fraction is nearer to the number above, which is no further than `k`
    rename_i hfar
    rcases Nat.lt_or_eq_of_le hq with hlt | heq
    · exact hlt
    · rw [heq] at hdiv hfar
      have hrest : 2 * (num % den) < den := by nlinarith
      simp [hrest] at hfar

theorem zpow_eq_div (b : ℚ) (e : Int) : b ^ e = b ^ e.toNat / b ^ (-e).toNat := by
  cases e with
  | ofNat n =>
    have hneg : (-Int.ofNat n).toNat = 0 := by simp
    rw [hneg]
    simp
  | negSucc n =>
    have hneg : (-Int.negSucc n).toNat = n + 1 := by simp
    rw [hneg, zpow_negSucc]
    simp

/-- The leading bit of a fraction bounds it from both sides. -/
theorem leading_bounds {num den : Nat} (hnum : 0 < num) (hden : 0 < den) :
    (2 : ℚ) ^ leading num den ≤ (num : ℚ) / den ∧ (num : ℚ) / den < 2 ^ (leading num den + 1) := by
  have hden' : (0 : ℚ) < den := by exact_mod_cast hden
  let e : Int := num.log2 - den.log2
  have hupper : (num : ℚ) / den < 2 ^ (e + 1) := by
    have hn : (num : ℚ) < 2 ^ (num.log2 + 1) := by exact_mod_cast Nat.lt_log2_self
    have hd : (2 : ℚ) ^ den.log2 ≤ den := by exact_mod_cast Nat.log2_self_le (by omega)
    have hpow : (2 : ℚ) ^ (e + 1) * 2 ^ den.log2 = 2 ^ (num.log2 + 1) := by
      rw [← zpow_natCast, ← zpow_natCast, ← zpow_add₀ (by norm_num)]
      congr 1
      push_cast
      omega
    rw [div_lt_iff₀ hden']
    have hpos : (0 : ℚ) < 2 ^ (e + 1) := by positivity
    nlinarith
  have hlower : (2 : ℚ) ^ (e - 1) ≤ (num : ℚ) / den := by
    have hn : (2 : ℚ) ^ num.log2 ≤ num := by exact_mod_cast Nat.log2_self_le (by omega)
    have hd : (den : ℚ) < 2 ^ (den.log2 + 1) := by exact_mod_cast Nat.lt_log2_self
    have hpow : (2 : ℚ) ^ (e - 1) * 2 ^ (den.log2 + 1) = 2 ^ num.log2 := by
      rw [← zpow_natCast, ← zpow_natCast, ← zpow_add₀ (by norm_num)]
      congr 1
      push_cast
      omega
    rw [le_div_iff₀ hden']
    have hpos : (0 : ℚ) < 2 ^ (e - 1) := by positivity
    nlinarith
  -- the exponents of numerator and denominator leave two candidates; a comparison picks one
  have htest : den * Nat.pow 2 e.toNat ≤ num * Nat.pow 2 (-e).toNat ↔ (2 : ℚ) ^ e ≤ (num : ℚ) / den := by
    rw [zpow_eq_div, div_le_div_iff₀ (by positivity) hden', ← Nat.cast_le (α := ℚ), Nat.pow_eq, Nat.pow_eq]
    push_cast
    rw [mul_comm (den : ℚ)]
  unfold leading
  dsimp only
  split
  · rename_i hle
    exact ⟨htest.1 hle, hupper⟩
  · rename_i hlt
    refine ⟨hlower, ?_⟩
    rw [Int.sub_add_cancel]
    exact not_le.1 fun hle => hlt (htest.2 hle)

/-- Half a unit above the largest finite number. -/
def limit (f : Format) : ℚ := (2 ^ (f.mantBits + 1) - 1 / 2) * 2 ^ (f.least + f.top - 2)

theorem limit_lt (f : Format) : f.limit < 2 ^ (f.mantBits + f.least + f.top - 1) := by
  have hpow : (2 : ℚ) ^ (f.mantBits + f.least + f.top - 1 : Int) =
      2 ^ (f.mantBits + 1) * 2 ^ (f.least + f.top - 2) := by
    rw [← zpow_natCast, ← zpow_add₀ (by norm_num)]
    congr 1
    push_cast
    ring
  have hpos : (0 : ℚ) < 2 ^ (f.least + f.top - 2) := by positivity
  rw [hpow, limit]
  nlinarith

/-- A fraction of units rounds to at most `k` if it is below `k` and a half. -/
theorem nearest_scaled_le {num den k : Nat} {unit : Int} (hden : 0 < den)
    (h : (num : ℚ) / den < (k + 1 / 2) * 2 ^ unit) :
    nearest (num * Nat.pow 2 (-unit).toNat) (den * Nat.pow 2 unit.toNat) ≤ k := by
  have hden' : (0 : ℚ) < den := by exact_mod_cast hden
  refine nearest_le (Nat.mul_pos hden (Nat.pow_pos (by norm_num))) ?_
  rw [zpow_eq_div, ← mul_div_assoc, div_lt_div_iff₀ hden' (by positivity)] at h
  rw [← Nat.cast_lt (α := ℚ), Nat.pow_eq, Nat.pow_eq]
  push_cast
  linarith

theorem isSome_round {f : Format} (htop : 3 ≤ f.top) {num den : Nat} (hden : 0 < den)
    (h : (num : ℚ) / den < f.limit) : (f.round num den).isSome := by
  unfold round
  split
  · rfl
  rename_i hnum
  obtain ⟨hlow, hhigh⟩ := leading_bounds (Nat.pos_of_ne_zero hnum) hden
  have hle : leading num den ≤ f.mantBits + f.least + f.top - 2 := by
    have hlt := lt_of_le_of_lt hlow (h.trans f.limit_lt)
    rw [zpow_lt_zpow_iff_right₀ (by norm_num)] at hlt
    omega
  dsimp only
  generalize hunit : max (leading num den - f.mantBits) f.least = unit
  have hpow : Nat.pow 2 (f.mantBits + 1) = 2 * Nat.pow 2 f.mantBits := Nat.pow_succ'
  have hpos : 0 < Nat.pow 2 f.mantBits := Nat.pow_pos (by norm_num)
  suffices hbits : (unit - f.least).toNat * Nat.pow 2 f.mantBits +
      nearest (num * Nat.pow 2 (-unit).toNat) (den * Nat.pow 2 unit.toNat) < f.infinity by
    rw [if_pos hbits]
    rfl
  rcases Int.lt_or_eq_of_le (show unit ≤ f.least + f.top - 2 by omega) with hlt | heq
  · -- a mantissa that is rounded up to the next power of two still has a number above it
    have hmant : nearest (num * Nat.pow 2 (-unit).toNat) (den * Nat.pow 2 unit.toNat) ≤
        Nat.pow 2 (f.mantBits + 1) := by
      refine nearest_scaled_le hden (hhigh.trans_le ?_)
      calc (2 : ℚ) ^ (leading num den + 1) ≤ 2 ^ ((f.mantBits + 1 : Nat) + unit : Int) :=
            zpow_le_zpow_right₀ (by norm_num) (by push_cast; omega)
        _ = 2 ^ (f.mantBits + 1) * 2 ^ unit := by rw [zpow_add₀ (by norm_num), zpow_natCast]
        _ ≤ ((Nat.pow 2 (f.mantBits + 1) : Nat) + 1 / 2) * 2 ^ unit := by
            rw [Nat.pow_eq]
            push_cast
            gcongr
            norm_num
    have hfield : (unit - f.least).toNat ≤ f.top - 3 := by omega
    have hmul := Nat.mul_le_mul_right (Nat.pow 2 f.mantBits) hfield
    have htop' : f.infinity = (f.top - 3) * Nat.pow 2 f.mantBits + 3 * Nat.pow 2 f.mantBits := by
      rw [infinity, ← Nat.add_mul, Nat.sub_add_cancel htop]
    omega
  · have hmant : nearest (num * Nat.pow 2 (-unit).toNat) (den * Nat.pow 2 unit.toNat) ≤
        Nat.pow 2 (f.mantBits + 1) - 1 := by
      refine nearest_scaled_le hden (h.trans_eq ?_)
      rw [limit, heq, Nat.cast_sub (by omega), Nat.pow_eq]
      push_cast
      ring
    have hfield : (unit - f.least).toNat = f.top - 2 := by omega
    have htop' : f.infinity = (f.top - 2) * Nat.pow 2 f.mantBits + 2 * Nat.pow 2 f.mantBits := by
      rw [infinity, ← Nat.add_mul, Nat.sub_add_cancel (by omega)]
    rw [hfield]
    omega

end Format

theorem limit_binary64_lt : Format.binary64.limit < 10 ^ (400 : Int) := by
  have hexp : (Format.binary64.mantBits + Format.binary64.least + Format.binary64.top - 1 : Int) =
      (128 * 8 : Nat) := by decide
  have hlimit := Format.binary64.limit_lt
  rw [hexp, zpow_natCast, pow_mul] at hlimit
  have hten : (10 : ℚ) ^ (400 : Int) = (10 ^ 50) ^ 8 := by
    rw [← pow_mul, ← zpow_natCast]
    norm_num
  rw [hten]
  exact hlimit.trans (by gcongr; norm_num)

/-- The first digit of a positive number counts. -/
theorem pow_le_of_length_digits {m : Nat} (hm : m ≠ 0) : 10 ^ ((Word.digits m).length - 1) ≤ m := by
  by_contra hlt
  have hpos : 0 < (Word.digits m).length := List.length_pos_of_ne_nil Nat.toDigits_ne_nil
  rcases Nat.eq_zero_or_pos ((Word.digits m).length - 1) with hzero | hpos'
  · rw [hzero] at hlt
    omega
  · have hle := (Nat.length_toDigits_le_iff (b := 10) (by norm_num) hpos').2 (not_le.1 hlt)
    unfold Word.digits at hpos hle
    omega

theorem isSome_ofDecimal {m : Nat} {e : Int} (h : (m : ℚ) * 10 ^ e < Format.binary64.limit) :
    (ofDecimal .binary64 m e).isSome := by
  unfold ofDecimal
  dsimp only
  split
  · rfl
  split
  · rename_i hbig
    exfalso
    have hlen : (10 : ℚ) ^ ((Word.digits m).length - 1) ≤ m := by
      exact_mod_cast pow_le_of_length_digits hbig.1
    have hpos : 0 < (Word.digits m).length := List.length_pos_of_ne_nil Nat.toDigits_ne_nil
    have hle : (10 : ℚ) ^ (400 : Int) ≤ m * 10 ^ e :=
      calc (10 : ℚ) ^ (400 : Int) ≤ 10 ^ (((Word.digits m).length - 1 : Nat) + e) :=
            zpow_le_zpow_right₀ (by norm_num) (by omega)
        _ = 10 ^ ((Word.digits m).length - 1) * 10 ^ e := by
            rw [zpow_add₀ (by norm_num), zpow_natCast]
        _ ≤ m * 10 ^ e := by gcongr
    exact absurd (hle.trans_lt (h.trans limit_binary64_lt)) (lt_irrefl _)
  · refine Format.isSome_round (by decide) (Nat.pow_pos (by norm_num)) ?_
    rw [Format.zpow_eq_div] at h
    rw [Nat.pow_eq, Nat.pow_eq]
    push_cast
    rwa [mul_div_assoc]

end QasmStudio.Number

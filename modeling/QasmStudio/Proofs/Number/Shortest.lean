import QasmStudio.Number.Shortest
import QasmStudio.Proofs.Number.Rounding

/-!
# The range of shortest decimals

The shortest decimal of a number does not pass the middle between the number and the next one. So
the decimal of a finite number lies below the limit of its format.
-/

namespace QasmStudio.Number

def Decimal.value (d : Decimal) : ℚ := d.coeff * 10 ^ d.exp

theorem Decimal.value_strip (d : Decimal) (fuel : Nat) : (d.strip fuel).value = d.value := by
  induction fuel generalizing d with
  | zero => rfl
  | succ fuel ih =>
    rw [strip]
    split
    · rename_i hzero
      have hcoeff : (d.coeff : ℚ) = (d.coeff / 10 : Nat) * 10 := by
        exact_mod_cast (Nat.div_mul_cancel (Nat.dvd_of_mod_eq_zero hzero)).symm
      rw [ih, value, value, hcoeff, zpow_add_one₀ (by norm_num)]
      ring
    · rfl

theorem Decimal.exp_strip (d : Decimal) (fuel : Nat) :
    d.exp ≤ (d.strip fuel).exp ∧ (d.strip fuel).exp ≤ d.exp + fuel := by
  induction fuel generalizing d with
  | zero =>
    rw [strip]
    simp
  | succ fuel ih =>
    rw [strip]
    split
    · have h := ih ⟨d.coeff / 10, d.exp + 1⟩
      dsimp only at h
      omega
    · omega

namespace Binary

variable {b : Binary} {j : Int} {c : Nat}

/-- Grid points and multiples of a quarter of the number's unit on one scale of whole numbers. -/
theorem exists_scale (b : Binary) (j : Int) : ∃ t : ℚ, 0 < t ∧
    (∀ c : Nat, (c : ℚ) * 10 ^ j = (c * (b.scale j).2 : Nat) * t) ∧
    ∀ k : Nat, (k : ℚ) * 2 ^ (b.exp - 2) = (k * (b.scale j).1 : Nat) * t := by
  have hten := Format.zpow_eq_div 10 j
  have htwo := Format.zpow_eq_div 2 (b.exp - 2)
  have hneg : -(b.exp - 2) = 2 - b.exp := by ring
  rw [hneg] at htwo
  refine ⟨1 / (10 ^ (-j).toNat * 2 ^ (2 - b.exp).toNat), by positivity, fun c => ?_, fun k => ?_⟩
  · simp only [hten, scale, Nat.pow_eq]
    push_cast
    field_simp
  · simp only [htwo, scale, Nat.pow_eq]
    push_cast
    field_simp

/-- The value does not pass the middle to the next number, and does not reach it if that middle is
rounded up. -/
def Covers (b : Binary) (v : ℚ) : Prop :=
  v ≤ (4 * b.mant + 2 : Nat) * 2 ^ (b.exp - 2) ∧
    (b.mant % 2 ≠ 0 → v < (4 * b.mant + 2 : Nat) * 2 ^ (b.exp - 2))

theorem covers_of_rounds (h : b.rounds j c = true) : b.Covers (c * 10 ^ j) := by
  obtain ⟨t, ht, hc, hk⟩ := b.exists_scale j
  rw [Covers, hc, hk]
  unfold rounds at h
  dsimp only at h
  split at h
  · rename_i heven
    simp only [Bool.and_eq_true, decide_eq_true_eq] at h
    refine ⟨?_, fun hodd => absurd heven hodd⟩
    have hle : ((c * (b.scale j).2 : Nat) : ℚ) ≤ ((4 * b.mant + 2) * (b.scale j).1 : Nat) := by
      exact_mod_cast h.2
    exact mul_le_mul_of_nonneg_right hle ht.le
  · simp only [Bool.and_eq_true, decide_eq_true_eq] at h
    have hlt : ((c * (b.scale j).2 : Nat) : ℚ) < ((4 * b.mant + 2) * (b.scale j).1 : Nat) := by
      exact_mod_cast h.2
    have hlt' := mul_lt_mul_of_pos_right hlt ht
    exact ⟨hlt'.le, fun _ => hlt'⟩

theorem covers_below : b.Covers ((b.below j).1 * 10 ^ j) := by
  obtain ⟨t, ht, hc, hk⟩ := b.exists_scale j
  have hpos : 0 < (b.scale j).1 := Nat.mul_pos (Nat.pow_pos (by norm_num)) (Nat.pow_pos (by norm_num))
  have hle : (b.below j).1 * (b.scale j).2 ≤ 4 * b.mant * (b.scale j).1 := Nat.div_mul_le_self _ _
  have hlt : (((b.below j).1 * (b.scale j).2 : Nat) : ℚ) < ((4 * b.mant + 2) * (b.scale j).1 : Nat) := by
    exact_mod_cast hle.trans_lt (Nat.mul_lt_mul_of_pos_right (by omega) hpos)
  have hlt' := mul_lt_mul_of_pos_right hlt ht
  rw [Covers, hc, hk]
  exact ⟨hlt'.le, fun _ => hlt'⟩

theorem rounds_of_onGrid? (h : b.onGrid? j = some c) : b.rounds j c = true := by
  unfold onGrid? at h
  dsimp only at h
  split at h
  · rename_i hlow hhigh
    split at h
    · cases h
      exact hlow
    · cases h
      exact hhigh
  · rename_i hlow _
    cases h
    exact hlow
  · rename_i _ hhigh
    cases h
    exact hhigh
  · cases h

theorem covers_search (e : Int) (n fuel : Nat) : b.Covers (b.search e n fuel).value := by
  induction fuel generalizing n with
  | zero => exact covers_below
  | succ fuel ih =>
    rw [search]
    split
    · rename_i hgrid
      exact covers_of_rounds (rounds_of_onGrid? hgrid)
    · exact ih (n + 1)

theorem exp_search (e : Int) (n fuel : Nat) :
    e - n - fuel ≤ (b.search e n fuel).exp ∧ (b.search e n fuel).exp ≤ e - n := by
  induction fuel generalizing n with
  | zero =>
    rw [search]
    simp
  | succ fuel ih =>
    rw [search]
    split
    · dsimp only
      omega
    · have h := ih (n + 1)
      omega

theorem value_shortest_lt (hm : b.mant < 2 ^ 53) (he : b.exp ≤ 971) : b.shortest.value < Format.binary64.limit := by
  have hcovers : b.Covers b.shortest.value := by
    rw [shortest, Decimal.value_strip]
    exact covers_search _ _ _
  have hlimit : Format.binary64.limit = ((2 ^ 55 - 2 : Nat) : ℚ) * 2 ^ (969 : Int) := by
    have hmant : Format.binary64.mantBits = 52 := rfl
    have hexp : (Format.binary64.least + Format.binary64.top - 2 : Int) = 2 + 969 := by decide
    rw [Format.limit, hmant, hexp, zpow_add₀ (by norm_num)]
    generalize (2 : ℚ) ^ (969 : Int) = t
    norm_num
    ring
  have hscale : (2 : ℚ) ^ (b.exp - 2) ≤ 2 ^ (969 : Int) := zpow_le_zpow_right₀ (by norm_num) (by omega)
  rw [hlimit]
  by_cases hodd : b.mant % 2 = 0
  · have hmant : ((4 * b.mant + 2 : Nat) : ℚ) < (2 ^ 55 - 2 : Nat) := by
      exact_mod_cast (by omega : 4 * b.mant + 2 < 2 ^ 55 - 2)
    calc b.shortest.value ≤ (4 * b.mant + 2 : Nat) * 2 ^ (b.exp - 2) := hcovers.1
      _ ≤ (4 * b.mant + 2 : Nat) * 2 ^ (969 : Int) := by gcongr
      _ < (2 ^ 55 - 2 : Nat) * 2 ^ (969 : Int) := by gcongr
  · have hmant : ((4 * b.mant + 2 : Nat) : ℚ) ≤ (2 ^ 55 - 2 : Nat) := by
      exact_mod_cast (by omega : 4 * b.mant + 2 ≤ 2 ^ 55 - 2)
    calc b.shortest.value < (4 * b.mant + 2 : Nat) * 2 ^ (b.exp - 2) := hcovers.2 hodd
      _ ≤ (2 ^ 55 - 2 : Nat) * 2 ^ (969 : Int) := by gcongr

theorem exp_shortest (hm : b.mant < 2 ^ 53) (he : b.exp ≤ 971) : -417 ≤ b.shortest.exp ∧ b.shortest.exp ≤ 417 := by
  have hmag : -400 ≤ b.magnitude ∧ b.magnitude ≤ 399 := by
    unfold magnitude
    dsimp only
    generalize hn : b.mant * Nat.pow 2 b.exp.toNat * Nat.pow 10 400 / Nat.pow 2 (-b.exp).toNat = n
    have hpos : 0 < (Nat.toDigits 10 n).length := Nat.length_toDigits_pos
    have hle : (Nat.toDigits 10 n).length ≤ 800 := by
      have hlt : b.mant * 2 ^ b.exp.toNat < 10 ^ 400 :=
        calc b.mant * 2 ^ b.exp.toNat < 2 ^ 53 * 2 ^ 971 :=
              Nat.mul_lt_mul_of_lt_of_le hm (Nat.pow_le_pow_right (by norm_num) (by omega))
                (Nat.pow_pos (by norm_num))
          _ = (2 ^ 128) ^ 8 := by rw [← pow_add, ← pow_mul]
          _ ≤ (10 ^ 50) ^ 8 := Nat.pow_le_pow_left (by norm_num) 8
          _ = 10 ^ 400 := by rw [← pow_mul]
      rw [Nat.length_toDigits_le_iff (by norm_num) (by norm_num), ← hn]
      calc b.mant * Nat.pow 2 b.exp.toNat * Nat.pow 10 400 / Nat.pow 2 (-b.exp).toNat
          ≤ b.mant * 2 ^ b.exp.toNat * 10 ^ 400 := Nat.div_le_self _ _
        _ < 10 ^ 400 * 10 ^ 400 := Nat.mul_lt_mul_of_pos_right hlt (by positivity)
        _ = 10 ^ 800 := by rw [← pow_add]
    omega
  have hsearch := b.exp_search b.magnitude 0 17
  have hstrip := (b.search b.magnitude 0 17).exp_strip 18
  rw [shortest]
  omega

end Binary

end QasmStudio.Number

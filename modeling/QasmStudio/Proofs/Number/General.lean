import QasmStudio.Proofs.Number.Shortest
import QasmStudio.Proofs.Number.Spelling

/-!
# Numbers in the general format

Every text of the general format is a spelling of the same value, or one of the words for what is no
finite number. So it can be read again.
-/

namespace QasmStudio.Number

open List

namespace Spelling

variable {ds : List Char} (hne : ds ≠ []) (hd : ∀ c ∈ ds, c.isDigit = true)

/-- One digit before the point, the others after it. -/
def scientific (e : Int) : Spelling where
  whole := ds.take 1
  frac := ds.drop 1
  exponent := some e
  whole_ne := by
    cases ds with
    | nil => exact absurd rfl hne
    | cons d ds => exact cons_ne_nil _ _
  digits := by
    rw [take_append_drop]
    exact hd

def small (k : Nat) : Spelling where
  whole := ['0']
  frac := List.replicate k '0' ++ ds
  exponent := none
  whole_ne := cons_ne_nil _ _
  digits := by
    intro c hc
    rcases mem_append.1 hc with hc | hc
    · rw [mem_singleton.1 hc]
      decide
    rcases mem_append.1 hc with hc | hc
    · rw [eq_of_mem_replicate hc]
      decide
    · exact hd c hc

/-- `w` digits before the point, with zeros for those that are missing. -/
def large (w : Nat) : Spelling where
  whole := ds.take (w + 1) ++ List.replicate (w + 1 - ds.length) '0'
  frac := ds.drop (w + 1)
  exponent := none
  whole_ne := by
    cases ds with
    | nil => exact absurd rfl hne
    | cons d ds => exact cons_ne_nil _ _
  digits := by
    intro c hc
    rcases mem_append.1 hc with hc | hc
    · rcases mem_append.1 hc with hc | hc
      · exact hd c (mem_of_mem_take hc)
      · rw [eq_of_mem_replicate hc]
        decide
    · exact hd c (mem_of_mem_drop hc)

theorem value_scientific (e : Int) : (scientific hne hd e).value = Word.ofDigits ds * 10 ^ (e - ds.length + 1) := by
  have hpos : 0 < ds.length := length_pos_of_ne_nil hne
  have hexp : (scientific hne hd e).exp = e - ds.length + 1 := by
    simp only [exp, scientific, length_drop, Option.getD_some]
    omega
  rw [value, hexp, coeff]
  simp only [scientific, take_append_drop]

theorem value_small (k : Nat) : (small hd k).value = Word.ofDigits ds * 10 ^ (-k - ds.length : Int) := by
  have hexp : (small hd k).exp = -k - ds.length := by
    simp only [exp, small, length_append, length_replicate, Option.getD_none]
    push_cast
    ring
  have hcoeff : (small hd k).coeff = Word.ofDigits ds := by
    simp only [coeff, small, Word.ofDigits, singleton_append, Nat.ofDigitChars_cons,
      Nat.ofDigitChars_append, Nat.ofDigitChars_replicate_zero]
    simp
  rw [value, hexp, hcoeff]

theorem value_large (w : Nat) : (large hne hd w).value = Word.ofDigits ds * 10 ^ (w + 1 - ds.length : Int) := by
  rcases Nat.le_total ds.length (w + 1) with hle | hle
  · have hexp : (large hne hd w).exp = 0 := by
      simp only [exp, large, drop_eq_nil_of_le hle, Option.getD_none, length_nil]
      rfl
    have hcoeff : (large hne hd w).coeff = 10 ^ (w + 1 - ds.length) * Word.ofDigits ds := by
      simp only [coeff, large, Word.ofDigits, take_of_length_le hle, drop_eq_nil_of_le hle,
        append_nil, Nat.ofDigitChars_append, Nat.ofDigitChars_replicate_zero]
    have hpow : (10 : ℚ) ^ (w + 1 - ds.length : Int) = 10 ^ (w + 1 - ds.length) := by
      rw [← zpow_natCast, Nat.cast_sub hle]
      push_cast
      rfl
    rw [value, hexp, hcoeff, hpow]
    push_cast
    ring
  · have hexp : (large hne hd w).exp = w + 1 - ds.length := by
      simp only [exp, large, length_drop, Option.getD_none]
      omega
    have hcoeff : (large hne hd w).coeff = Word.ofDigits ds := by
      simp only [coeff, large, Nat.sub_eq_zero_of_le hle, replicate_zero, append_nil, take_append_drop]
    rw [value, hexp, hcoeff]

end Spelling

theorem exists_spelling_decimal (d : Decimal) : ∃ n : Spelling, Layout.general.decimal d = n.text ∧
    n.value = d.value ∧ ∀ e, n.exponent = some e → e = d.exp + (Word.digits d.coeff).length - 1 := by
  have hne : Word.digits d.coeff ≠ [] := Word.digits_ne_nil _
  have hd : ∀ c ∈ Word.digits d.coeff, c.isDigit = true := fun c hc => Word.isDigit_of_mem_digits hc
  have hpos : 0 < (Word.digits d.coeff).length := length_pos_of_ne_nil hne
  unfold Layout.decimal Decimal.value
  dsimp only
  generalize he : d.exp + (Word.digits d.coeff).length - 1 = e
  split
  · refine ⟨.scientific hne hd e, ?_, ?_, fun e' h => ?_⟩
    · simp [scientific, Spelling.scientific, Spelling.text, exponentPart]
    · rw [Spelling.value_scientific, Word.ofDigits_digits]
      congr 2
      omega
    · cases h
      rfl
  · unfold positional
    split
    · rename_i hneg
      refine ⟨.small hd (-e - 1).toNat, ?_, ?_, fun e' h => by cases h⟩
      · have hfrac : List.replicate (-e - 1).toNat '0' ++ Word.digits d.coeff ≠ [] :=
          append_ne_nil_of_right_ne_nil _ hne
        have hpoint : fraction (List.replicate (-e - 1).toNat '0' ++ Word.digits d.coeff) =
            '.' :: (List.replicate (-e - 1).toNat '0' ++ Word.digits d.coeff) := if_neg hfrac
        simp only [Spelling.small, Spelling.text, exponentPart, hpoint, append_nil]
        rfl
      · rw [Spelling.value_small, Word.ofDigits_digits]
        congr 2
        omega
    · rename_i hneg
      refine ⟨.large hne hd e.toNat, ?_, ?_, fun e' h => by cases h⟩
      · simp [Spelling.large, Spelling.text, exponentPart]
      · rw [Spelling.value_large, Word.ofDigits_digits]
        congr 2
        omega

theorem parts64_finite {x : Float} {negative : Bool} {b : Binary} (h : parts64 x = .finite negative b) :
    b.mant < 2 ^ 53 ∧ b.exp ≤ 971 := by
  have hfield : x.toBits.toNat / 4503599627370496 % 2048 < 2048 := Nat.mod_lt _ (by norm_num)
  have hfrac : x.toBits.toNat % 4503599627370496 < 4503599627370496 := Nat.mod_lt _ (by norm_num)
  unfold parts64 Parts.ofFields at h
  dsimp only at h
  split at h
  · split at h
    · cases h
    · cases h
  split at h
  · split at h
    · cases h
    · cases h
      refine ⟨?_, by norm_num⟩
      dsimp only
      omega
  · rename_i htop hzero
    cases h
    refine ⟨?_, ?_⟩
    · dsimp only
      rw [Nat.pow_eq]
      omega
    · dsimp only
      omega

/-- The text of a finite number is a spelling of a value below the limit. -/
theorem exists_spelling_finite {b : Binary} (hm : b.mant < 2 ^ 53) (he : b.exp ≤ 971) :
    ∃ n : Spelling, Layout.general.decimal b.shortest = n.text ∧ n.value < Format.binary64.limit ∧
      ∀ e, n.exponent = some e → e.natAbs < 10000 := by
  obtain ⟨n, htext, hvalue, hexp⟩ := exists_spelling_decimal b.shortest
  have hlimit := Binary.value_shortest_lt hm he
  refine ⟨n, htext, hvalue ▸ hlimit, fun e h => ?_⟩
  have hbounds := Binary.exp_shortest hm he
  have hpos : 0 < (Word.digits b.shortest.coeff).length := length_pos_of_ne_nil (Word.digits_ne_nil _)
  rw [hexp e h]
  by_cases hzero : b.shortest.coeff = 0
  · rw [hzero]
    have hlen : (Word.digits 0).length = 1 := by decide
    omega
  · -- the first digit counts, so its exponent is below that of the limit
    have hlen : (10 : ℚ) ^ ((Word.digits b.shortest.coeff).length - 1) ≤ b.shortest.coeff := by
      exact_mod_cast pow_le_of_length_digits hzero
    have hle : (10 : ℚ) ^ (((Word.digits b.shortest.coeff).length - 1 : Nat) + b.shortest.exp) ≤
        b.shortest.value := by
      rw [zpow_add₀ (by norm_num), zpow_natCast, Decimal.value]
      gcongr
    have hlt := hle.trans_lt (hlimit.trans limit_binary64_lt)
    rw [zpow_lt_zpow_iff_right₀ (by norm_num)] at hlt
    omega

end QasmStudio.Number

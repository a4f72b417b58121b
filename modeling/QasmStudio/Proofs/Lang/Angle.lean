import QasmStudio.Lang.Angle
import QasmStudio.Proofs.Number.General

/-!
# Texts of angles

Every floating-point literal and every angle is written as a text that reads as a number again, with
none of the characters that separate texts.
-/

namespace QasmStudio

open Number List

variable {cs : List Char}

/-! ### Floating-point literals -/

def Number.Spelling.pointed (n : Spelling) : Spelling where
  whole := n.whole
  frac := ['0']
  exponent := none
  whole_ne := n.whole_ne
  digits := by
    intro c hc
    rcases mem_append.1 hc with hc | hc
    · exact n.isDigit_whole c hc
    · rw [mem_singleton.1 hc]
      decide

/-- The zero after the point does not change the value of a whole number. -/
theorem Number.Spelling.value_pointed {n : Spelling} (hf : n.frac = []) (he : n.exponent = none) :
    n.pointed.value = n.value := by
  have hcoeff : n.pointed.coeff = 10 * n.coeff := by
    simp only [coeff, pointed, hf, append_nil, Word.ofDigits, Nat.ofDigitChars_append,
      Nat.ofDigitChars_cons, Nat.ofDigitChars_nil]
    rfl
  have hexp : n.pointed.exp = -1 := rfl
  have hexp' : n.exp = 0 := by
    rw [exp, he, hf]
    rfl
  rw [value, value, hcoeff, hexp, hexp']
  push_cast
  norm_num
  ring

/-- A literal is one of the words, or a spelling below the limit with its sign. -/
inductive IsNumberText : List Char → Prop
  | word {cs : List Char} : cs ∈ [['N', 'a', 'N'], ['+', 'I', 'n', 'f'], ['-', 'I', 'n', 'f']] → IsNumberText cs
  | spelled (negative : Bool) (n : Spelling) : n.value < Format.binary64.limit →
      (∀ e, n.exponent = some e → e.natAbs < 10000) → IsNumberText (signed negative n.text)

def wordSpelling (k : Nat) : Spelling where
  whole := Word.digits k
  frac := []
  exponent := none
  whole_ne := Word.digits_ne_nil k
  digits := by
    rw [append_nil]
    exact fun _ hc => Word.isDigit_of_mem_digits hc

theorem isNumberText_digits (negative : Bool) {k : Nat} (hk : k ≤ 2 ^ 63) :
    IsNumberText (signed negative (Word.digits k)) := by
  have htext : (wordSpelling k).text = Word.digits k := append_nil _
  have hvalue : (wordSpelling k).value = k := by
    have hcoeff : (wordSpelling k).coeff = k := by
      rw [Spelling.coeff, wordSpelling, append_nil, Word.ofDigits_digits]
    rw [Spelling.value, hcoeff, show (wordSpelling k).exp = 0 from rfl, zpow_zero, mul_one]
  have hlimit : (2 : ℚ) ^ 63 < Format.binary64.limit := by
    have hscale : (2 : ℚ) ^ (20 : Int) ≤ 2 ^ (971 : Int) := zpow_le_zpow_right₀ (by norm_num) (by norm_num)
    have hexp : Format.binary64.least + Format.binary64.top - 2 = 971 := by
      norm_num [Format.least, Format.binary64]
    rw [Format.limit, hexp]
    refine lt_of_lt_of_le ?_ (mul_le_mul_of_nonneg_left hscale (by norm_num [Format.binary64]))
    norm_num [Format.binary64]
  rw [← htext]
  refine .spelled negative _ ?_ fun e he => by cases he
  rw [hvalue]
  exact lt_of_le_of_lt (by exact_mod_cast hk) hlimit

theorem isNumberText_general (x : Float) : IsNumberText (general x) := by
  unfold general
  cases hx : parts64 x with
  | nan => exact .word (by decide)
  | infinite negative =>
    refine .word ?_
    cases negative with
    | true => decide
    | false => decide
  | zero negative =>
    have hzero := isNumberText_digits negative (Nat.zero_le (2 ^ 63))
    rw [show Word.digits 0 = ['0'] from by decide] at hzero
    exact hzero
  | finite negative b =>
    obtain ⟨hm, he⟩ := parts64_finite hx
    obtain ⟨n, htext, hlimit, hexp⟩ := exists_spelling_finite hm he
    have hgeneral : Layout.general.parts (.finite negative b) = signed negative n.text := by
      rw [← htext]
      rfl
    rw [hgeneral]
    exact .spelled negative n hlimit hexp

theorem isNumberText_floatText (x : Float) : IsNumberText (floatText x) := by
  have hgeneral := isNumberText_general x
  unfold floatText
  dsimp only
  split
  · exact hgeneral
  · rename_i hplain
    generalize general x = cs at hgeneral hplain
    cases hgeneral with
    | word hword =>
      refine absurd ?_ hplain
      clear hplain
      revert cs
      decide
    | spelled negative n hlimit hexp =>
      have hmem : ∀ c ∈ ['.', 'e'], c ∉ n.text := by
        intro c hc hin
        refine hplain (any_eq_true.2 ⟨c, ?_, ?_⟩)
        · unfold signed
          split
          · exact mem_cons_of_mem _ hin
          · exact hin
        · rcases mem_pair.1 hc with rfl | rfl
          · rfl
          · rfl
      have hfrac : n.frac = [] := by
        by_contra hne
        refine hmem '.' (by decide) ?_
        rw [Spelling.text, fraction, if_neg hne]
        simp
      have hnone : n.exponent = none := by
        cases he : n.exponent with
        | none => rfl
        | some e =>
          refine absurd ?_ (hmem 'e' (by decide))
          rw [Spelling.text, he, exponentPart]
          simp
      have htext : signed negative n.text ++ ['.', '0'] = signed negative n.pointed.text := by
        have hpointed : n.pointed.text = n.text ++ ['.', '0'] := by
          rw [Spelling.text, Spelling.text, hfrac, hnone]
          simp [Spelling.pointed, fraction, exponentPart]
        rw [hpointed]
        cases negative with
        | true => rfl
        | false => rfl
      rw [htext]
      refine .spelled negative n.pointed ?_ fun e h => by cases h
      rw [Spelling.value_pointed hfrac hnone]
      exact hlimit

theorem isNumberText_wordText {n : Int} (h : Word.InRange n) : IsNumberText (Word.text n) := by
  obtain ⟨hlow, hhigh⟩ := h
  cases n with
  | ofNat k =>
    have hk : (k : Int) ≤ 9223372036854775807 := hhigh
    exact isNumberText_digits false (by omega)
  | negSucc k =>
    have hk : -9223372036854775808 ≤ Int.negSucc k := hlow
    exact isNumberText_digits true (k := k + 1) (by omega)

theorem IsNumberText.isSome_read? (h : IsNumberText cs) : (Number.read? cs).isSome := by
  cases h with
  | word hword =>
    revert cs
    decide
  | spelled negative n hlimit hexp => exact n.isSome_read? negative hexp hlimit

theorem IsNumberText.ne_nil (h : IsNumberText cs) : cs ≠ [] := by
  cases h with
  | word hword =>
    revert cs
    decide
  | spelled negative n _ _ =>
    have htext : n.text ≠ [] := append_ne_nil_of_left_ne_nil n.whole_ne _
    unfold signed
    split
    · exact cons_ne_nil _ _
    · exact htext

/-! ### Characters of numbers and angles -/

def isAngleChar (c : Char) : Bool := c.isDigit || ".e+-NaInfpi*/".toList.contains c

theorem isBlank_of_isAngleChar {c : Char} (h : isAngleChar c = true) : Text.isBlank c = false := by
  rcases Bool.or_eq_true_iff.1 h with hd | hc
  · exact Text.isBlank_of_isDigit hd
  · have hall : ∀ c ∈ ".e+-NaInfpi*/".toList, Text.isBlank c = false := Text.forall_mem_of_all (by decide)
    exact hall c (contains_iff_mem.1 hc)

theorem IsNumberText.isAngleChar (h : IsNumberText cs) : ∀ c ∈ cs, isAngleChar c = true := by
  cases h with
  | word hword =>
    have hall : cs.all QasmStudio.isAngleChar = true := by
      revert cs
      decide
    exact all_eq_true.1 hall
  | spelled negative n _ _ =>
    have htext : ∀ c ∈ n.text, QasmStudio.isAngleChar c = true := by
      intro c hc
      rcases n.mem_text hc with hd | hmem
      · rw [QasmStudio.isAngleChar, hd]
        rfl
      · have hall : ∀ c ∈ ['.', 'e', '+', '-'], QasmStudio.isAngleChar c = true :=
          Text.forall_mem_of_all (by decide)
        exact hall c hmem
    intro c hc
    unfold signed at hc
    split at hc
    · rcases mem_cons.1 hc with rfl | hc
      · decide
      · exact htext c hc
    · exact htext c hc

/-! ### Angles -/

namespace Angle

theorem form?_eq_some {x : Float} {fs : List (Float × String)}
    (h : form? x fs = some cs) : ∃ name ∈ fs.map (·.2), cs = name.toList ∨ cs = '-' :: name.toList := by
  induction fs with
  | nil => cases h
  | cons p fs ih =>
    obtain ⟨v, name⟩ := p
    rw [form?] at h
    split at h
    · cases h
      exact ⟨name, mem_cons_self, .inl rfl⟩
    split at h
    · cases h
      exact ⟨name, mem_cons_self, .inr rfl⟩
    · obtain ⟨name', hmem, hcs⟩ := ih h
      exact ⟨name', mem_cons_of_mem _ hmem, hcs⟩

theorem names_forms : forms.map (·.2) =
    ["2*pi", "pi", "pi/2", "pi/3", "pi/4", "pi/6", "pi/8", "3*pi/4", "3*pi/2", "2*pi/3"] := rfl

theorem isSome_read?_form : ∀ name ∈ forms.map (·.2),
    (read? name.toList).isSome ∧ (read? ('-' :: name.toList)).isSome := by
  rw [names_forms]
  decide +kernel

theorem isAngleChar_form : ∀ name ∈ forms.map (·.2), ∀ c ∈ name.toList, isAngleChar c = true := by
  have hall : ∀ name ∈ forms.map (·.2), name.toList.all isAngleChar = true := by
    rw [names_forms]
    decide
  exact fun name hname => all_eq_true.1 (hall name hname)

theorem isAngleChar_of_mem_text {x : Float} {c : Char} (h : c ∈ text x) : isAngleChar c = true := by
  unfold text at h
  split at h
  · rename_i cs hform
    obtain ⟨name, hname, rfl | rfl⟩ := form?_eq_some hform
    · exact isAngleChar_form name hname c h
    · rcases mem_cons.1 h with rfl | h
      · decide
      · exact isAngleChar_form name hname c h
  · exact (isNumberText_floatText x).isAngleChar c h

theorem text_ne_nil (x : Float) : text x ≠ [] := by
  unfold text
  split
  · rename_i cs hform
    obtain ⟨name, hname, rfl | rfl⟩ := form?_eq_some hform
    · clear hform
      revert name
      rw [names_forms]
      decide
    · exact cons_ne_nil _ _
  · exact (isNumberText_floatText x).ne_nil

theorem isSome_read?_number (h : IsNumberText cs) : (read? cs).isSome := by
  have hfirm : Text.Firm cs := .of_forall h.ne_nil fun c hc => isBlank_of_isAngleChar (h.isAngleChar c hc)
  obtain ⟨y, hy⟩ := Option.isSome_iff_exists.1 h.isSome_read?
  unfold read?
  dsimp only
  rw [hfirm.trim, if_neg h.ne_nil, hy]
  rfl

theorem isSome_read?_text (x : Float) : (read? (text x)).isSome := by
  unfold text
  split
  · rename_i cs hform
    obtain ⟨name, hname, rfl | rfl⟩ := form?_eq_some hform
    · exact (isSome_read?_form name hname).1
    · exact (isSome_read?_form name hname).2
  · exact isSome_read?_number (isNumberText_floatText x)

theorem read?_blank (cs : List Char) : read? (' ' :: cs) = read? cs := by
  have htrim : Text.trim ([' '] ++ cs) = Text.trim cs := Text.trim_append (Text.forall_mem_of_all (by decide))
  unfold read?
  rw [← singleton_append, htrim]

end Angle

end QasmStudio

import QasmStudio.Number.General
import QasmStudio.Proofs.Number.Rounding
import QasmStudio.Proofs.Number.Word
import QasmStudio.Proofs.Text.Cut

/-!
# Spelled numbers

A spelling is an unsigned decimal numeral by its parts. Its text is read as these parts, and as a
number if its value is below the limit of the format.
-/

namespace QasmStudio.Number

open List

variable {c : Char}

/-- The digits before and after the point, and the exponent if one is written. -/
structure Spelling where
  whole : List Char
  frac : List Char
  exponent : Option Int
  whole_ne : whole ≠ []
  digits : ∀ c ∈ whole ++ frac, c.isDigit = true

def exponentPart : Option Int → List Char
  | none => []
  | some e => 'e' :: (if e < 0 then '-' else '+') :: exponentDigits e.natAbs

namespace Spelling

def text (n : Spelling) : List Char := n.whole ++ (fraction n.frac ++ exponentPart n.exponent)

def coeff (n : Spelling) : Nat := Word.ofDigits (n.whole ++ n.frac)

def exp (n : Spelling) : Int := n.exponent.getD 0 - n.frac.length

def value (n : Spelling) : ℚ := n.coeff * 10 ^ n.exp

end Spelling

/-! ### Digits -/

theorem digitsValue_eq {cs : List Char} (h : ∀ c ∈ cs, c.isDigit = true) (acc : Nat) :
    digitsValue 10 acc cs = Nat.ofDigitChars 10 cs acc := by
  induction cs generalizing acc with
  | nil => rw [digitsValue, Nat.ofDigitChars_nil]
  | cons c cs ih =>
    have hc := h c mem_cons_self
    have hval : hexValue c = c.toNat - '0'.toNat := if_pos hc
    rw [digitsValue, Nat.ofDigitChars_cons, ih (fun c hc => h c (mem_cons_of_mem _ hc)),
      if_neg (Text.ne_of_class hc (by decide)), hval, Nat.mul_comm]

theorem le_ofDigitChars (cs : List Char) (acc : Nat) : acc ≤ Nat.ofDigitChars 10 cs acc := by
  rw [Nat.ofDigitChars_eq_ofDigitChars_zero]
  have hpow : 0 < 10 ^ cs.length := Nat.pow_pos (by norm_num)
  nlinarith

/-- An exponent of up to four digits is read as it stands. -/
theorem exponentValue_eq {cs : List Char} (h : ∀ c ∈ cs, c.isDigit = true) {acc : Nat}
    (hlt : Nat.ofDigitChars 10 cs acc < 10000) : exponentValue acc cs = Nat.ofDigitChars 10 cs acc := by
  induction cs generalizing acc with
  | nil => rw [exponentValue, Nat.ofDigitChars_nil]
  | cons c cs ih =>
    have hc := h c mem_cons_self
    have hval : hexValue c = c.toNat - '0'.toNat := if_pos hc
    have hacc : acc < 10000 := (le_ofDigitChars _ _).trans_lt hlt
    have hgo : ¬ (decide (c = '_') || decide (10000 ≤ acc)) = true := by
      simp [Text.ne_of_class hc (by decide : ('_').isDigit = false), hacc]
    rw [Nat.ofDigitChars_cons] at hlt ⊢
    rw [exponentValue, if_neg hgo, hval, Nat.mul_comm, ih (fun c hc => h c (mem_cons_of_mem _ hc)) hlt]

/-! ### Reading the parts -/

theorem takeDigits_append {ds rest : List Char} (hd : ∀ c ∈ ds, c.isDigit = true)
    (hstops : Text.Stops (fun c => c = '_' || c.isDigit) rest) :
    takeDigits false (ds ++ rest) = (ds, rest) := by
  refine Text.span_append (fun c hc => ?_) hstops
  simp [hd c hc]

theorem isDigit_of_mem_exponentDigits {n : Nat} (h : c ∈ exponentDigits n) : c.isDigit = true := by
  unfold exponentDigits at h
  split at h
  · rcases mem_cons.1 h with rfl | h
    · decide
    · exact Word.isDigit_of_mem_digits h
  · exact Word.isDigit_of_mem_digits h

theorem exponentDigits_ne_nil (n : Nat) : exponentDigits n ≠ [] := by
  unfold exponentDigits
  split
  · exact cons_ne_nil _ _
  · exact Word.digits_ne_nil n

theorem ofDigits_exponentDigits (n : Nat) : Nat.ofDigitChars 10 (exponentDigits n) 0 = n := by
  unfold exponentDigits
  split
  · rw [Nat.ofDigitChars_cons]
    exact Word.ofDigits_digits n
  · exact Word.ofDigits_digits n

theorem exponent?_part {e : Int} (he : e.natAbs < 10000) :
    exponent? ((if e < 0 then '-' else '+') :: exponentDigits e.natAbs) = some e := by
  have hdigits : takeDigits false (exponentDigits e.natAbs ++ []) = (exponentDigits e.natAbs, []) :=
    takeDigits_append (fun c hc => isDigit_of_mem_exponentDigits hc) Text.stops_nil
  rw [append_nil] at hdigits
  have hvalue : exponentValue 0 (exponentDigits e.natAbs) = e.natAbs := by
    have h := ofDigits_exponentDigits e.natAbs
    rw [exponentValue_eq (fun c hc => isDigit_of_mem_exponentDigits hc) (h.trans_lt he), h]
  have hhead : ((exponentDigits e.natAbs).headD '_').isDigit = true := by
    obtain ⟨c, cs, hcs⟩ := exists_cons_of_ne_nil (exponentDigits_ne_nil e.natAbs)
    rw [hcs]
    exact isDigit_of_mem_exponentDigits (hcs ▸ mem_cons_self)
  rcases lt_or_ge e 0 with hneg | hpos
  · simp only [if_pos hneg, exponent?, hdigits, hvalue, hhead]
    rw [if_neg (by decide), if_pos trivial]
    congr 1
    omega
  · simp only [if_neg (not_lt.2 hpos), exponent?, hdigits, hvalue, hhead]
    rw [if_neg (by decide), if_neg (by decide)]
    congr 1
    omega

namespace Spelling

variable (n : Spelling)

theorem isDigit_whole : ∀ c ∈ n.whole, c.isDigit = true := fun c hc => n.digits c (mem_append_left _ hc)

theorem isDigit_frac : ∀ c ∈ n.frac, c.isDigit = true := fun c hc => n.digits c (mem_append_right _ hc)

theorem stops_exponentPart (e : Option Int) : Text.Stops (fun c => c = '_' || c.isDigit) (exponentPart e) := by
  cases e with
  | none => exact Text.stops_nil
  | some e => exact Text.stops_cons.2 (by decide)

theorem not_all_underscore : (n.whole ++ n.frac).all (· = '_') = false := by
  obtain ⟨c, cs, hcs⟩ := exists_cons_of_ne_nil n.whole_ne
  have hc := Text.ne_of_class (n.isDigit_whole c (hcs ▸ mem_cons_self)) (by decide : ('_').isDigit = false)
  simp [hcs, hc]

theorem takeDigits_text : takeDigits false n.text = (n.whole, fraction n.frac ++ exponentPart n.exponent) := by
  refine takeDigits_append n.isDigit_whole ?_
  unfold fraction
  split
  · exact stops_exponentPart _
  · exact Text.stops_cons.2 (by decide)

theorem numeral?_text (he : ∀ e, n.exponent = some e → e.natAbs < 10000) :
    numeral? false n.text = some ⟨n.whole, n.frac, n.exponent.getD 0⟩ := by
  have hall : ¬ (n.whole ++ n.frac).all (· = '_') = true := by
    rw [n.not_all_underscore]
    decide
  unfold numeral?
  rw [n.takeDigits_text]
  by_cases hnil : n.frac = []
  · rw [hnil] at hall ⊢
    cases hexp : n.exponent with
    | none => exact if_neg hall
    | some e =>
      refine (if_neg hall).trans ((if_pos (by decide)).trans ?_)
      rw [exponent?_part (he e hexp)]
      rfl
  · have hfrac := takeDigits_append n.isDigit_frac (stops_exponentPart n.exponent)
    simp only [fraction, if_neg hnil, cons_append, hfrac]
    cases hexp : n.exponent with
    | none => exact if_neg hall
    | some e =>
      refine (if_neg hall).trans ((if_pos (by decide)).trans ?_)
      rw [exponent?_part (he e hexp)]
      rfl

theorem mem_text (h : c ∈ n.text) : c.isDigit = true ∨ c ∈ ['.', 'e', '+', '-'] := by
  rcases mem_append.1 h with h | h
  · exact .inl (n.isDigit_whole c h)
  rcases mem_append.1 h with h | h
  · unfold fraction at h
    split at h
    · cases h
    · rcases mem_cons.1 h with rfl | h
      · exact .inr (by decide)
      · exact .inl (n.isDigit_frac c h)
  · cases hexp : n.exponent with
    | none =>
      rw [hexp] at h
      cases h
    | some e =>
      rw [hexp] at h
      rcases mem_cons.1 h with rfl | h
      · exact .inr (by decide)
      rcases mem_cons.1 h with rfl | h
      · split
        · exact .inr (by decide)
        · exact .inr (by decide)
      · exact .inl (isDigit_of_mem_exponentDigits h)

theorem exists_text_eq_cons : ∃ d cs, n.text = d :: cs ∧ d.isDigit = true := by
  obtain ⟨d, ds, hds⟩ := exists_cons_of_ne_nil n.whole_ne
  refine ⟨d, ds ++ (fraction n.frac ++ exponentPart n.exponent), ?_, ?_⟩
  · rw [text, hds, cons_append]
  · exact n.isDigit_whole d (hds ▸ mem_cons_self)

end Spelling

theorem lowerAscii_of_isDigit (h : c.isDigit = true) : lowerAscii c = c := by
  refine if_neg fun hcap => ?_
  have hle : c ≤ '9' := by
    simp only [Char.isDigit, Bool.and_eq_true, decide_eq_true_eq] at h
    exact h.2
  exact absurd (Char.le_trans hcap.1 hle) (by decide)

namespace Spelling

variable (n : Spelling) {f : Format}

theorem lowerAscii_ne (h : c ∈ n.text) : lowerAscii c ≠ 'x' := by
  rcases n.mem_text h with hd | hmem
  · rw [lowerAscii_of_isDigit hd]
    exact Text.ne_of_class hd (by decide)
  · have hall : ∀ c ∈ ['.', 'e', '+', '-'], lowerAscii c ≠ 'x' := Text.forall_mem_of_all (by decide)
    exact hall c hmem

theorem not_mem_underscore : '_' ∉ n.text := by
  intro h
  rcases n.mem_text h with hd | hmem
  · exact absurd hd (by decide)
  · exact absurd hmem (by decide)

theorem value_numeral : Numeral.value f false ⟨n.whole, n.frac, n.exponent.getD 0⟩ = ofDecimal f n.coeff n.exp := by
  have hfilter : n.frac.filter (· ≠ '_') = n.frac := filter_eq_self.2 fun c hc => by
      simpa using Text.ne_of_class (n.isDigit_frac c hc) (by decide : ('_').isDigit = false)
  unfold Numeral.value
  dsimp only
  rw [if_neg (by decide), hfilter, digitsValue_eq n.digits]
  rfl

/-- A spelling is read as the decimal it writes: it announces no other base. -/
theorem readUnsigned_text (negative : Bool) (he : ∀ e, n.exponent = some e → e.natAbs < 10000) :
    readUnsigned f negative n.text = (ofDecimal f n.coeff n.exp).elim (.overflow negative)
      fun bits => .value (f.sign negative + bits) := by
  have hunder : n.text.contains '_' = false := by
    simpa using n.not_mem_underscore
  unfold readUnsigned
  split
  rename_i hex body hbase
  have hbase' : hex = false ∧ body = n.text := by
    split at hbase
    · rename_i x c rest htext
      rw [if_neg (n.lowerAscii_ne (by rw [htext]; simp))] at hbase
      cases hbase
      exact ⟨rfl, rfl⟩
    · cases hbase
      exact ⟨rfl, rfl⟩
  obtain ⟨rfl, rfl⟩ := hbase'
  rw [hunder, if_neg (by simp), n.numeral?_text he]
  dsimp only
  rw [n.value_numeral]
  cases ofDecimal f n.coeff n.exp with
  | none => rfl
  | some bits => rfl

/-- A spelling with its sign is neither of the words that are numbers. -/
theorem read_signed (negative : Bool) : read f (signed negative n.text) = readUnsigned f negative n.text := by
  obtain ⟨d, cs, htext, hd⟩ := n.exists_text_eq_cons
  have hword : isInfinityWord n.text = false := by
    have hi := Text.ne_of_class hd (by decide : ('i').isDigit = false)
    simp [isInfinityWord, htext, lowerAscii_of_isDigit hd, hi]
  have hsigned : ∀ b, readSigned f b n.text = readUnsigned f b n.text := fun b => by
    rw [readSigned, hword, if_neg (by decide)]
  cases negative with
  | true => exact hsigned true
  | false =>
    have hplus := Text.ne_of_class hd (by decide : ('+').isDigit = false)
    have hminus := Text.ne_of_class hd (by decide : ('-').isDigit = false)
    have hn := Text.ne_of_class hd (by decide : ('n').isDigit = false)
    rw [← hsigned false]
    show read f n.text = _
    unfold read
    split
    · rename_i heq
      rw [htext] at heq
      cases heq
      exact absurd rfl hplus
    · rename_i heq
      rw [htext] at heq
      cases heq
      exact absurd rfl hminus
    · refine if_neg ?_
      simp [htext, lowerAscii_of_isDigit hd, hn]

/-- A spelling below the limit is a number, with either sign. -/
theorem isSome_read? (negative : Bool) (he : ∀ e, n.exponent = some e → e.natAbs < 10000)
    (hlimit : n.value < Format.binary64.limit) : (read? (signed negative n.text)).isSome := by
  obtain ⟨bits, hbits⟩ := Option.isSome_iff_exists.1 (isSome_ofDecimal hlimit)
  rw [read?, n.read_signed, n.readUnsigned_text negative he, hbits]
  rfl

end Spelling

end QasmStudio.Number

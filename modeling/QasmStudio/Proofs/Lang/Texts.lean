import QasmStudio.Proofs.Lang.Angle
import QasmStudio.Proofs.Lang.Legible

/-!
# Texts of legible programs

Names, types and data are written without line breaks. What a legible statement says about data
starts with neither a blank nor the first letter of a measurement, and a generated name is one word
that starts with an underscore.
-/

namespace QasmStudio

open Text List

variable {c : Char}

/-! ### Numbers, lists and quoted texts -/

theorem not_mem_wordText (hdigit : c.isDigit = false) (hsign : c ≠ '-') (n : Int) : c ∉ Word.text n := by
  have hdigits : ∀ n : Nat, c ∉ Word.digits n := fun n h => by
    rw [Word.isDigit_of_mem_digits h] at hdigit
    cases hdigit
  cases n with
  | ofNat n => exact hdigits n
  | negSucc n => exact fun h => (mem_cons.1 h).elim hsign (hdigits (n + 1))

theorem newline_not_mem_text (n : Int) : '\n' ∉ Word.text n := not_mem_wordText (by decide) (by decide) n

theorem not_mem_commaSep {parts : List (List Char)} (h : ∀ cs ∈ parts, c ∉ cs)
    (hc : c ∉ [',', ' ']) : c ∉ commaSep parts := by
  induction parts with
  | nil => exact not_mem_nil
  | cons first others ih =>
    have hfirst := h first mem_cons_self
    have hothers := ih fun cs hcs => h cs (mem_cons_of_mem _ hcs)
    cases others with
    | nil =>
      rw [commaSep, intercalate_singleton]
      exact hfirst
    | cons second others =>
      unfold commaSep at hothers ⊢
      rw [intercalate_cons_cons]
      simp only [mem_append, not_or]
      exact ⟨⟨hfirst, hc⟩, hothers⟩

theorem mem_toDigits {b n : Nat} (hb : 1 < b) (h : c ∈ Nat.toDigits b n) : ∃ d < b, c = Nat.digitChar d := by
  induction n using Nat.strongRecOn with
  | _ n ih =>
    rw [Nat.toDigits_eq_if hb] at h
    split at h
    · rename_i hlt
      exact ⟨n, hlt, mem_singleton.1 h⟩
    · rename_i hge
      rcases mem_append.1 h with h | h
      · exact ih (n / b) (Nat.div_lt_self (by omega) hb) h
      · exact ⟨n % b, Nat.mod_lt _ (by omega), mem_singleton.1 h⟩

theorem newline_not_mem_hex (width n : Nat) : '\n' ∉ Text.hex width n := by
  intro h
  rcases mem_append.1 h with h | h
  · exact absurd (eq_of_mem_replicate h) (by decide)
  · obtain ⟨d, hlt, hd⟩ := mem_toDigits (by decide) h
    clear h
    revert d
    decide

theorem newline_not_mem_quoteChar (c : Char) : '\n' ∉ quoteChar c := by
  unfold quoteChar
  split
  · rename_i hc
    rcases Bool.or_eq_true_iff.1 hc with hc | hc
    · rw [of_decide_eq_true hc]
      decide
    · rw [of_decide_eq_true hc]
      decide
  split
  · rename_i hc
    intro h
    rw [← mem_singleton.1 h] at hc
    revert hc
    decide
  split
  · rename_i l hl
    intro h
    have hmem : l ∈ ['a', 'b', 't', 'n', 'v', 'f', 'r'] := by
      unfold controlLetter? at hl
      split at hl <;> cases hl <;> decide
    rcases mem_cons.1 h with h | h
    · exact absurd h (by decide)
    · rw [← mem_singleton.1 h] at hmem
      exact absurd hmem (by decide)
  · rename_i hnone
    have hescape : ∀ (l : Char) (width : Nat), l ∈ ['x', 'u', 'U'] →
        '\n' ∉ '\\' :: l :: Text.hex width c.toNat := by
      intro l width hl h
      rcases mem_cons.1 h with h | h
      · exact absurd h (by decide)
      rcases mem_cons.1 h with h | h
      · rw [← h] at hl
        exact absurd hl (by decide)
      · exact newline_not_mem_hex width c.toNat h
    split
    · intro h
      rw [← mem_singleton.1 h] at hnone
      exact absurd hnone (by decide)
    split
    · exact hescape 'x' 2 (by decide)
    split
    · exact hescape 'u' 4 (by decide)
    · exact hescape 'U' 8 (by decide)

theorem newline_not_mem_quoteChars (cs : List Char) : '\n' ∉ quoteChars cs := by
  intro h
  rcases mem_cons.1 h with h | h
  · exact absurd h (by decide)
  rcases mem_append.1 h with h | h
  · obtain ⟨c, -, hc⟩ := mem_flatMap.1 h
    exact newline_not_mem_quoteChar c hc
  · exact absurd h (by decide)

/-! ### Types -/

def isTypeChar (c : Char) : Bool := Text.isWord c || "[],-() ".toList.contains c

theorem isWord_of_isDigit (h : c.isDigit = true) : Text.isWord c = true := by
  simp [Text.isWord, Char.isAlphanum, h]

theorem isBlank_of_isWord (h : Text.isWord c = true) : isBlank c = false := by
  have hc : (65 ≤ c.toNat ∧ c.toNat ≤ 90) ∨ (97 ≤ c.toNat ∧ c.toNat ≤ 122) ∨
      (48 ≤ c.toNat ∧ c.toNat ≤ 57) ∨ c.toNat = 95 := by
    unfold Text.isWord Char.isAlphanum Char.isAlpha Char.isUpper Char.isLower Char.isDigit at h
    simp only [Bool.or_eq_true, Bool.and_eq_true, decide_eq_true_eq] at h
    rcases h with ((h | h) | h) | rfl
    · exact .inl h
    · exact .inr (.inl h)
    · exact .inr (.inr (.inl h))
    · exact .inr (.inr (.inr rfl))
  unfold isBlank
  dsimp only
  simp only [Bool.or_eq_false_iff, Bool.and_eq_false_iff, decide_eq_false_iff_not]
  omega

theorem wordText_typeChars (n : Int) : ∀ c ∈ Word.text n, isTypeChar c = true := by
  have hdigits : ∀ n : Nat, ∀ c ∈ Word.digits n, isTypeChar c = true := fun n c hc => by
    rw [isTypeChar, isWord_of_isDigit (Word.isDigit_of_mem_digits hc)]
    rfl
  cases n with
  | ofNat n => exact hdigits n
  | negSucc n => exact forall_mem_cons.2 ⟨by decide, hdigits (n + 1)⟩

theorem kindText_typeChars (k : Kind) : ∀ c ∈ k.text, isTypeChar c = true := by
  cases k with
  | other n =>
    refine forall_mem_append.2 ⟨forall_mem_append.2 ⟨?_, wordText_typeChars n⟩, ?_⟩
    · exact Text.forall_mem_of_all (by decide)
    · exact Text.forall_mem_of_all (by decide)
  | _ => exact Text.forall_mem_of_all (by decide)

theorem sized_typeChars (k : Kind) (n : Int) : ∀ c ∈ Ty.sized k n, isTypeChar c = true := by
  refine forall_mem_append.2 ⟨kindText_typeChars k, forall_mem_cons.2 ⟨by decide, ?_⟩⟩
  exact forall_mem_append.2 ⟨wordText_typeChars n, Text.forall_mem_of_all (by decide)⟩

theorem commaSep_chars {p : Char → Prop} {parts : List (List Char)} (h : ∀ cs ∈ parts, ∀ c ∈ cs, p c)
    (hsep : p ',' ∧ p ' ') : ∀ c ∈ commaSep parts, p c := by
  intro c hc
  by_contra hno
  refine not_mem_commaSep (fun cs hcs hin => hno (h cs hcs c hin)) (fun hin => ?_) hc
  rcases mem_cons.1 hin with rfl | hin
  · exact hno hsep.1
  · rw [mem_singleton.1 hin] at hno
    exact hno hsep.2

theorem tyText_typeChars : ∀ (t : Ty), ∀ c ∈ t.text, isTypeChar c = true
  | ⟨kind, size, elem, dims⟩ => by
    have hdims : ∀ c ∈ commaSep (dims.map Word.text), isTypeChar c = true := by
      refine commaSep_chars (fun cs hcs => ?_) ⟨by decide, by decide⟩
      obtain ⟨n, -, rfl⟩ := mem_map.1 hcs
      exact wordText_typeChars n
    unfold Ty.text
    cases kind with
    | bit | qubit =>
      dsimp only
      split
      · exact sized_typeChars _ _
      · exact kindText_typeChars _
    | int | float | angle => exact sized_typeChars _ _
    | array =>
      refine forall_mem_append.2 ⟨forall_mem_append.2 ⟨Text.forall_mem_of_all (by decide), ?_⟩,
        forall_mem_cons.2 ⟨by decide, forall_mem_cons.2 ⟨by decide,
          forall_mem_append.2 ⟨hdims, Text.forall_mem_of_all (by decide)⟩⟩⟩⟩
      cases elem with
      | none => exact Text.forall_mem_of_all (by decide)
      | some t => exact tyText_typeChars t
    | bool | duration | other n => exact kindText_typeChars _

theorem newline_not_mem_tyText (t : Option Ty) : '\n' ∉ tyText t := by
  cases t with
  | none => decide
  | some t => exact fun h => absurd (tyText_typeChars t _ h) (by decide)

/-! ### Generated names -/

namespace IsGenerated

variable {name : String}

theorem isWord (h : IsGenerated name) : ∀ c ∈ name.toList, Text.isWord c = true := by
  obtain ⟨stem, hstem, n, hname⟩ := h.toList_eq
  have hall : stem.toList.all Text.isWord = true := by
    clear hname
    revert stem
    decide
  rw [hname]
  refine forall_mem_append.2 ⟨forall_mem_append.2 ⟨all_eq_true.1 hall, fun c hc => ?_⟩, ?_⟩
  · exact isWord_of_isDigit (Word.isDigit_of_mem_digits hc)
  · exact Text.forall_mem_of_all (by decide)

theorem exists_cons (h : IsGenerated name) : ∃ cs, name.toList = '_' :: cs := by
  obtain ⟨stem, hstem, n, hname⟩ := h.toList_eq
  have hhead : stem.toList.head? = some '_' := by
    clear hname
    revert stem
    decide
  obtain ⟨cs, hcs⟩ := head?_eq_some_iff.1 hhead
  refine ⟨cs ++ Word.digits n ++ ['_', '_'], ?_⟩
  rw [hname, hcs]
  rfl

theorem newline_not_mem (h : IsGenerated name) : '\n' ∉ name.toList :=
  fun hc => absurd (h.isWord _ hc) (by decide)

end IsGenerated

/-! ### Data -/

/-- A text on one line that does not start as a measurement does. -/
structure IsDataText (cs : List Char) : Prop where
  newline : '\n' ∉ cs
  head : ∃ c, cs.head? = some c ∧ c ≠ 'm' ∧ isBlank c = false

namespace IsDataText

variable {cs ds : List Char}

theorem append (h : IsDataText cs) (hd : '\n' ∉ ds) : IsDataText (cs ++ ds) := by
  obtain ⟨c, hc, hok⟩ := h.head
  refine ⟨fun hmem => ?_, c, ?_, hok⟩
  · exact (mem_append.1 hmem).elim h.newline hd
  · rw [head?_append, hc]
    rfl

theorem cons (hc : c ≠ 'm' ∧ isBlank c = false) (hd : '\n' ∉ ds) : IsDataText (c :: ds) := by
  refine ⟨fun hmem => ?_, c, rfl, hc⟩
  rcases mem_cons.1 hmem with rfl | hmem
  · exact absurd hc.2 (by decide)
  · exact hd hmem

theorem enclose {e : Expr} (h : IsDataText cs) : IsDataText (e.enclose cs) := by
  unfold Expr.enclose
  split
  · refine cons ⟨by decide, by decide⟩ fun hmem => ?_
    rcases mem_append.1 hmem with hmem | hmem
    · exact h.newline hmem
    · exact absurd hmem (by decide)
  · exact h

theorem wordText (n : Int) : IsDataText (Word.text n) := by
  refine ⟨newline_not_mem_text n, ?_⟩
  cases n with
  | ofNat n =>
    obtain ⟨c, cs, hcs⟩ := exists_cons_of_ne_nil (Word.digits_ne_nil n)
    have hd : c.isDigit = true := Word.isDigit_of_mem_digits (hcs ▸ mem_cons_self)
    refine ⟨c, ?_, ne_of_class hd (by decide), isBlank_of_isDigit hd⟩
    show (Word.digits n).head? = some c
    rw [hcs]
    rfl
  | negSucc n => exact ⟨'-', rfl, by decide, by decide⟩

theorem of_angleChars (hne : cs ≠ []) (h : ∀ c ∈ cs, isAngleChar c = true) : IsDataText cs := by
  obtain ⟨c, rest, rfl⟩ := exists_cons_of_ne_nil hne
  have hc := h c mem_cons_self
  refine ⟨fun hmem => absurd (h _ hmem) (by decide), c, rfl, ?_, isBlank_of_isAngleChar hc⟩
  rintro rfl
  exact absurd hc (by decide)

theorem sign {op : String} (h : op ∈ ["!", "-", "~"]) : IsDataText op.toList := by
  have hop : '\n' ∉ op.toList ∧ op.toList.head? ∈ [some '!', some '-', some '~'] := by
    revert op
    decide
  have hhead : ∀ o ∈ [some '!', some '-', some '~'], ∃ c, o = some c ∧ c ≠ 'm' ∧ isBlank c = false := by
    intro o ho
    simp only [mem_cons, not_mem_nil, or_false] at ho
    rcases ho with rfl | rfl | rfl
    · exact ⟨_, rfl, by decide⟩
    · exact ⟨_, rfl, by decide⟩
    · exact ⟨_, rfl, by decide⟩
  exact ⟨hop.1, hhead _ hop.2⟩

theorem durationText (ns : Int) : IsDataText (QasmStudio.durationText ns) := by
  unfold QasmStudio.durationText
  split
  · exact ⟨by decide, '0', by decide, by decide, by decide⟩
  split
  · exact (wordText _).append (by decide)
  split
  · exact (wordText _).append (by decide)
  split
  · exact (wordText _).append (by decide)
  · exact (wordText _).append (by decide)

end IsDataText

theorem texts_eq_map (es : List Expr) : Expr.texts es = es.map Expr.text := by
  induction es with
  | nil => rfl
  | cons e es ih => exact congrArg (e.text :: ·) ih

theorem not_mem_listText {es : List Expr} (hc : c ∉ [',', ' ']) (h : ∀ e ∈ es, c ∉ e.text) :
    c ∉ Expr.listText es := by
  refine not_mem_commaSep (fun cs hcs => ?_) hc
  rw [texts_eq_map] at hcs
  obtain ⟨e, he, rfl⟩ := mem_map.1 hcs
  exact h e he

theorem newline_not_mem_listText {es : List Expr} (h : ∀ e ∈ es, '\n' ∉ e.text) :
    '\n' ∉ Expr.listText es := not_mem_listText (by decide) h

theorem Expr.IsData.isDataText {e : Expr} (h : e.IsData) : IsDataText e.text := by
  induction h with
  | int n => exact .wordText n
  | float x =>
    exact .of_angleChars (isNumberText_floatText x).ne_nil (isNumberText_floatText x).isAngleChar
  | angle x =>
    exact .of_angleChars (Angle.text_ne_nil x) fun _ hc => Angle.isAngleChar_of_mem_text hc
  | bool b =>
    cases b with
    | true => exact ⟨by decide, 't', by decide, by decide, by decide⟩
    | false => exact ⟨by decide, 'f', by decide, by decide, by decide⟩
  | bits s => exact ⟨newline_not_mem_quoteChars _, '"', rfl, by decide, by decide⟩
  | duration ns => exact .durationText ns
  | @array elems _ _ ih =>
    have helems := newline_not_mem_listText fun e he => (ih e he).newline
    show IsDataText ('\x7b' :: (Expr.listText elems ++ ['\x7d']))
    refine .cons (by decide) ?_
    simp [helems]
  | @var name _ _ hname =>
    obtain ⟨cs, hcs⟩ := hname.exists_cons
    refine ⟨hname.newline_not_mem, '_', ?_, by decide, by decide⟩
    show name.toList.head? = some '_'
    rw [hcs]
    rfl
  | @index base idx _ _ ihb ihi =>
    have hidx := ihi.newline
    show IsDataText (base.text ++ '[' :: (idx.text ++ [']']))
    refine ihb.append ?_
    simp [hidx]
  | @binary op l r hop _ _ ihl ihr =>
    have hr : '\n' ∉ r.enclose r.text := ihr.enclose.newline
    show IsDataText (l.enclose l.text ++ ' ' :: (op.toList ++ ' ' :: r.enclose r.text))
    refine ihl.enclose.append ?_
    simp [hop, hr]
  | @unary op x hop _ ih =>
    have hx : '\n' ∉ x.enclose x.text := ih.enclose.newline
    show IsDataText (op.toList ++ x.enclose x.text)
    exact (IsDataText.sign hop).append hx
  | @range start stop _ _ ihs iht =>
    have hs := ihs.newline
    have ht := iht.newline
    show IsDataText ('[' :: (start.text ++ ':' :: (stop.text ++ [']'])))
    refine .cons (by decide) ?_
    simp [hs, ht]
  | @steps start stop step _ _ _ ihs iht ihp =>
    have hs := ihs.newline
    have ht := iht.newline
    have hp := ihp.newline
    show IsDataText ('[' :: (start.text ++ ':' :: (step.text ++ ':' :: (stop.text ++ [']']))))
    refine .cons (by decide) ?_
    simp [hs, ht, hp]

end QasmStudio

import Mathlib.Data.List.TakeDrop
import QasmStudio.Lang.Type
import QasmStudio.Text.Blank
import QasmStudio.Text.Split

/-!
# Where texts are cut

What splitting, trimming and taking runs of characters give on a text that was put together from
parts: the parts come back if no part holds what the text is cut at.
-/

namespace QasmStudio.Text

open List

variable {p : Char → Bool} {cs xs rest : List Char} {c sep : Char}

/-- What holds of each element of a concrete list can be computed along the list. -/
theorem forall_mem_of_all {α : Type} {p : α → Prop} [DecidablePred p] {l : List α}
    (h : (l.all fun x => decide (p x)) = true) : ∀ x ∈ l, p x :=
  fun x hx => of_decide_eq_true (all_eq_true.1 h x hx)

/-! ### Runs of characters -/

/-- The text does not go on with a character of `p`. -/
def Stops (p : Char → Bool) (cs : List Char) : Prop := ∀ c ∈ cs.head?, p c = false

@[simp] theorem stops_nil : Stops p [] := fun _ h => by cases h

@[simp] theorem stops_cons : Stops p (c :: cs) ↔ p c = false := by simp [Stops]

theorem Stops.dropWhile (h : Stops p cs) : cs.dropWhile p = cs := by
  cases cs with
  | nil => rfl
  | cons c cs => rw [dropWhile_cons, stops_cons.1 h, if_neg (by decide)]

theorem Stops.takeWhile (h : Stops p cs) : cs.takeWhile p = [] := by
  cases cs with
  | nil => rfl
  | cons c cs => rw [takeWhile_cons, stops_cons.1 h, if_neg (by decide)]

theorem span_append (hx : ∀ c ∈ xs, p c = true) (h : Stops p rest) : (xs ++ rest).span p = (xs, rest) := by
  rw [span_eq_takeWhile_dropWhile, takeWhile_append_of_pos hx, dropWhile_append_of_pos hx,
    h.takeWhile, h.dropWhile, append_nil]

/-! ### Splitting -/

theorem split_append (h : sep ∉ cs) : split sep (cs ++ sep :: rest) = cs :: split sep rest := by
  induction cs with
  | nil => simp [split]
  | cons c cs ih =>
    have hc : c ≠ sep := fun heq => h (heq ▸ mem_cons_self)
    have ih := ih fun hm => h (mem_cons_of_mem _ hm)
    rw [cons_append, split, if_neg hc, ih]

theorem split_of_not_mem (h : sep ∉ cs) : split sep cs = [cs] := by
  induction cs with
  | nil => rfl
  | cons c cs ih =>
    have hc : c ≠ sep := fun heq => h (heq ▸ mem_cons_self)
    rw [split, if_neg hc, ih fun hm => h (mem_cons_of_mem _ hm)]

theorem exists_commaSep_cons (first : List Char) (others : List (List Char)) :
    ∃ more, commaSep (first :: others) = first ++ more := by
  cases others with
  | nil => exact ⟨[], by rw [commaSep, intercalate_singleton, append_nil]⟩
  | cons second others =>
    exact ⟨_, by rw [commaSep, intercalate_cons_cons, append_assoc]⟩

/-- A list of texts comes back from its text, each after the first with the blank before it. -/
theorem split_commaSep {first : List Char} {others : List (List Char)} (h : ∀ cs ∈ first :: others, ',' ∉ cs) :
    split ',' (commaSep (first :: others)) = first :: others.map (' ' :: ·) := by
  induction others generalizing first with
  | nil =>
    rw [commaSep, intercalate_singleton]
    exact split_of_not_mem (h first mem_cons_self)
  | cons second others ih =>
    have htext : commaSep (first :: second :: others) = first ++ ',' :: commaSep ((' ' :: second) :: others) := by
      rw [commaSep, commaSep, intercalate_cons_cons, intercalate_cons_cons_left, append_assoc]
      rfl
    have hrest : ∀ cs ∈ (' ' :: second) :: others, ',' ∉ cs := by
      intro cs hcs
      rcases mem_cons.1 hcs with rfl | hcs
      · have hsecond := h second (mem_cons_of_mem _ mem_cons_self)
        simpa using hsecond
      · exact h cs (mem_cons_of_mem _ (mem_cons_of_mem _ hcs))
    rw [htext, split_append (h first mem_cons_self), ih hrest]
    rfl

/-! ### Trimming -/

/-- The text starts and ends with something that is no blank. -/
structure Firm (cs : List Char) : Prop where
  head : ∃ c, cs.head? = some c ∧ isBlank c = false
  last : ∃ c, cs.getLast? = some c ∧ isBlank c = false

theorem Firm.of_forall (hne : cs ≠ []) (h : ∀ c ∈ cs, isBlank c = false) : Firm cs := by
  obtain ⟨c, rest, rfl⟩ := exists_cons_of_ne_nil hne
  exact ⟨⟨c, rfl, h c mem_cons_self⟩, ⟨_, getLast?_eq_some_getLast hne, h _ (getLast_mem hne)⟩⟩

theorem isBlank_of_isDigit (h : c.isDigit = true) : isBlank c = false := by
  have hc : 48 ≤ c.toNat ∧ c.toNat ≤ 57 := by
    simp only [Char.isDigit, Bool.and_eq_true, decide_eq_true_eq] at h
    exact h
  have h1 : ¬ (c.toNat ≤ 13) := by omega
  unfold isBlank
  dsimp only
  simp only [Bool.or_eq_false_iff, Bool.and_eq_false_iff, decide_eq_false_iff_not]
  omega

theorem isSpace_of_isBlank (h : isBlank c = false) : isSpace c = false := by
  by_contra hno
  have hspace : isSpace c = true := by simpa using hno
  have hblank : isBlank c = true := by
    simp only [isSpace, Bool.or_eq_true, decide_eq_true_eq] at hspace
    rcases hspace with (((rfl | rfl) | rfl) | rfl) | hc
    · decide
    · decide
    · decide
    · decide
    · rw [isBlank, hc]
      decide
  rw [h] at hblank
  cases hblank

theorem ne_of_class {x : Char} (h : p c = true) (hx : p x = false) : c ≠ x := by
  rintro rfl
  exact absurd (h.symm.trans hx) (by decide)

theorem trimLeft_append (h : ∀ c ∈ xs, isBlank c = true) : trimLeft (xs ++ cs) = trimLeft cs :=
  dropWhile_append_of_pos h

theorem trimRight_append (h : isBlank c = false) : trimRight (cs ++ [c]) = cs ++ [c] := by
  have hstops : Stops isBlank (c :: cs.reverse) := stops_cons.2 h
  rw [trimRight, reverse_append, reverse_singleton, singleton_append, hstops.dropWhile]
  simp

theorem trimRight_cons (h : isBlank c = false) : trimRight (c :: cs) = c :: trimRight cs := by
  have hcut : ((cs.reverse ++ [c]).dropWhile isBlank) = cs.reverse.dropWhile isBlank ++ [c] := by
    rw [dropWhile_append]
    split
    · rename_i hnil
      rw [List.isEmpty_iff.1 hnil, (stops_cons.2 h).dropWhile]
      rfl
    · rfl
  rw [trimRight, reverse_cons, hcut]
  simp [trimRight]

theorem trimLeft_cons (h : isBlank c = false) : trimLeft (c :: cs) = c :: cs := Stops.dropWhile (stops_cons.2 h)

theorem Firm.trim (h : Firm cs) : trim cs = cs := by
  obtain ⟨⟨a, ha, hblank⟩, ⟨b, hb, hblank'⟩⟩ := h
  obtain ⟨front, rfl⟩ := getLast?_eq_some_iff.1 hb
  have hleft : trimLeft (front ++ [b]) = front ++ [b] := Stops.dropWhile fun c hc => by
      rw [ha] at hc
      cases hc
      exact hblank
  rw [Text.trim, hleft, trimRight_append hblank']

theorem trim_append (h : ∀ c ∈ xs, isBlank c = true) : trim (xs ++ cs) = trim cs := by
  rw [trim, trim, trimLeft_append h]

theorem exists_trimLeft_concat (h : isBlank c = false) (cs : List Char) : ∃ ys, trimLeft (cs ++ [c]) = ys ++ [c] := by
  rw [trimLeft, dropWhile_append]
  split
  · exact ⟨[], (stops_cons.2 h).dropWhile⟩
  · exact ⟨_, rfl⟩

theorem trim_concat (h : isBlank c = false) (cs : List Char) : trim (cs ++ [c]) = trimLeft (cs ++ [c]) := by
  obtain ⟨ys, hys⟩ := exists_trimLeft_concat h cs
  rw [trim, hys, trimRight_append h]

theorem getLast?_trim (h : isBlank c = false) : (trim (cs ++ [c])).getLast? = some c := by
  obtain ⟨ys, hys⟩ := exists_trimLeft_concat h cs
  rw [trim_concat h, hys, getLast?_concat]

/-! ### Beginnings, endings and words -/

theorem after?_append (start : String) (rest : List Char) : after? start (start.toList ++ rest) = some rest := by
  have hprefix : start.toList.isPrefixOf (start.toList ++ rest) = true :=
    isPrefixOf_iff_prefix.2 (prefix_append _ _)
  rw [after?, if_pos hprefix, ← String.length_toList, drop_left]

theorem after?_eq_none {start : String} (h : ¬ start.toList <+: cs) : after? start cs = none :=
  if_neg fun hp => h ( isPrefixOf_iff_prefix.1 hp)

theorem before?_append (c : Char) (cs : List Char) : before? c (cs ++ [c]) = some cs := by
  rw [before?, if_pos getLast?_concat, dropLast_concat]

/-- A text of `p` at the beginning of a longer one lies in the run of `p` there. -/
theorem prefix_of_prefix_append {ys : List Char} (hp : ∀ c ∈ ys, p c = true) (hstops : Stops p rest)
    (h : ys <+: xs ++ rest) : ys <+: xs := by
  rcases prefix_or_prefix_of_prefix h (prefix_append xs rest) with hle | ⟨zs, rfl⟩
  · exact hle
  have hzs : zs <+: rest := (prefix_append_right_inj xs).1 h
  cases zs with
  | nil => simp
  | cons c zs =>
    obtain ⟨more, rfl⟩ := hzs
    have hfalse : p c = false := stops_cons.1 hstops
    have htrue := hp c (by simp)
    rw [hfalse] at htrue
    cases htrue

theorem words_append {w : List Char} (hne : w ≠ []) (hw : ∀ c ∈ w, isBlank c = false)
    (rest : List Char) : (words (w ++ ' ' :: rest)).headD [] = w := by
  have hgo : ∀ acc, words.go acc (w ++ ' ' :: rest) = (acc.reverse ++ w) :: words.go [] rest := by
    clear hne
    induction w with
    | nil =>
      intro acc
      have hblank : isBlank ' ' = true := by decide
      rw [nil_append, words.go, if_pos hblank, append_nil]
    | cons c w ih =>
      intro acc
      have hc := hw c mem_cons_self
      rw [cons_append, words.go, hc, if_neg (by decide),
        ih (fun c hc => hw c (mem_cons_of_mem _ hc)), reverse_cons, append_assoc]
      rfl
  rw [words, hgo, reverse_nil, nil_append, filter_cons, if_pos (by simpa using hne)]
  rfl

end QasmStudio.Text

import QasmStudio.Proofs.Lang.Texts
import QasmStudio.Proofs.Lang.Unambiguous

/-!
# Types and their texts

Two types are equal exactly if declarations write them alike. The kind of a type is the word its text starts
with; what follows in brackets is read up to the bracket that closes it. Inside of an array the element type
is followed by a comma, so the induction, on the first of two types with one text, is over texts that agree
up to what follows them.
-/

namespace QasmStudio

open Text List

namespace Ty

/-- The kinds of declarations. -/
def kinds : List Kind := [.bit, .qubit, .int, .float, .angle, .bool, .duration, .array]

/-- A type that can be declared. The element type of what is no array is never looked at. -/
inductive WellFormed : Ty → Prop
  | mk {kind : Kind} {size : Int} {elem : Option Ty} {dims : List Int} (known : kind ∈ kinds)
      (register : kind ∈ [.bit, .qubit] → 0 ≤ size) (plain : kind ∈ [.bool, .duration, .array] → size = 0)
      (flat : kind ≠ .array → dims = []) (inner : kind = .array → ∀ t ∈ elem, WellFormed t) :
      WellFormed ⟨kind, size, elem, dims⟩

variable {a b : Ty} {x y : List Char}

theorem equal_iff : a.equal b = true ↔ a.kind = b.kind ∧ a.size = b.size ∧ a.dims = b.dims ∧
    (a.kind = .array → tyEqual a.elem b.elem = true) := by
  obtain ⟨kind, size, elem, dims⟩ := a
  obtain ⟨kind', size', elem', dims'⟩ := b
  cases elem <;> cases elem' <;>
    simp [equal, tyEqual, and_assoc, imp_iff_not_or]

/-! ### Kinds -/

theorem WellFormed.kind_mem (h : a.WellFormed) : a.kind ∈ kinds := by
  cases h with
  | mk known => exact known

theorem kindText_inj : ∀ k ∈ kinds, ∀ k' ∈ kinds, k.text = k'.text → k = k' := by decide

theorem isAlpha_kindText : ∀ k ∈ kinds, ∀ c ∈ k.text, c.isAlpha = true := by
  have hall : ∀ k ∈ kinds, k.text.all Char.isAlpha = true := by decide
  exact fun k hk => all_eq_true.1 (hall k hk)

/-- What follows the kind. -/
def bracket : Ty → List Char
  | ⟨kind, size, elem, dims⟩ =>
    match kind with
    | .bit | .qubit => if 0 < size then '[' :: (Word.text size ++ [']']) else []
    | .int | .float | .angle => '[' :: (Word.text size ++ [']'])
    | .array => '[' :: (tyText elem ++ ',' :: ' ' :: (commaSep (dims.map Word.text) ++ [']']))
    | .bool | .duration | .other _ => []

theorem text_eq (t : Ty) : t.text = t.kind.text ++ t.bracket := by
  obtain ⟨kind, size, elem, dims⟩ := t
  cases kind with
  | bit | qubit =>
    unfold text bracket
    dsimp only
    split
    · rfl
    · rw [append_nil]
  | int | float | angle => rfl
  | array =>
    cases elem with
    | none => rfl
    | some t =>
      show "array[".toList ++ t.text ++ _ = _
      rw [append_assoc]
      rfl
  | bool | duration | other => exact (append_nil _).symm

def goesOn (c : Char) : Bool := c.isAlpha || c = '['

theorem stops_alpha (h : Stops goesOn x) : Stops Char.isAlpha x :=
  fun c hc => ((Bool.or_eq_false_iff ..).mp (h c hc)).1

theorem stops_bracket (t : Ty) (h : Stops goesOn x) : Stops Char.isAlpha (t.bracket ++ x) := by
  obtain ⟨kind, size, elem, dims⟩ := t
  cases kind with
  | bit | qubit =>
    unfold bracket
    dsimp only
    split
    · exact stops_cons.2 rfl
    · exact stops_alpha h
  | int | float | angle | array => exact stops_cons.2 rfl
  | bool | duration | other => exact stops_alpha h

/-- Texts that start alike are of one kind. -/
theorem kind_eq (ha : a.WellFormed) (hb : b.WellFormed) (hx : Stops goesOn x) (hy : Stops goesOn y)
    (h : a.text ++ x = b.text ++ y) : a.kind = b.kind ∧ a.bracket ++ x = b.bracket ++ y := by
  rw [text_eq, text_eq, append_assoc, append_assoc] at h
  obtain ⟨hkind, hrest⟩ := Expr.append_inj_of_stops (isAlpha_kindText _ ha.kind_mem)
    (isAlpha_kindText _ hb.kind_mem) (stops_bracket a hx) (stops_bracket b hy) h
  exact ⟨kindText_inj _ ha.kind_mem _ hb.kind_mem hkind, hrest⟩

theorem text_append_ne_void (ha : a.WellFormed) (hx : Stops goesOn x) (hy : Stops goesOn y) :
    a.text ++ x ≠ "void".toList ++ y := by
  intro h
  rw [text_eq, append_assoc] at h
  obtain ⟨hkind, -⟩ := Expr.append_inj_of_stops (isAlpha_kindText _ ha.kind_mem)
    (Text.forall_mem_of_all (by decide)) (stops_bracket a hx) (stops_alpha hy) h
  have hne : ∀ k ∈ kinds, k.text ≠ "void".toList := by decide
  exact hne _ ha.kind_mem hkind

/-! ### Sizes and dimensions -/

theorem size_inj {m n : Int} (h : '[' :: (Word.text m ++ [']']) ++ x = '[' :: (Word.text n ++ [']']) ++ y) :
    m = n ∧ x = y := by
  have htail : Word.text m ++ ']' :: x = Word.text n ++ ']' :: y := by simpa using h
  obtain ⟨htext, hrest⟩ := Expr.append_inj_of_stops (Expr.isNumberChar_text m) (Expr.isNumberChar_text n)
    (stops_cons.2 (by decide)) (stops_cons.2 (by decide)) htail
  exact ⟨Word.text_injective htext, (List.cons.inj hrest).2⟩

theorem commaSep_wordTexts_injective : Function.Injective fun ns : List Int => commaSep (ns.map Word.text) := by
  intro ms ns h
  have hcomma : ∀ ns : List Int, ∀ cs ∈ ns.map Word.text, ',' ∉ cs := by
    intro ns cs hcs
    obtain ⟨n, -, rfl⟩ := mem_map.1 hcs
    exact not_mem_wordText (by decide) (by decide) n
  have hne : ∀ (n : Int) (ns : List Int), commaSep ((n :: ns).map Word.text) ≠ [] := by
    intro n ns hnil
    obtain ⟨more, hmore⟩ := exists_commaSep_cons (Word.text n) (ns.map Word.text)
    exact Word.text_ne_nil n (append_eq_nil_iff.1 (hmore.symm.trans hnil)).1
  cases ms with
  | nil =>
    cases ns with
    | nil => rfl
    | cons n ns => exact absurd h.symm (hne n ns)
  | cons m ms =>
    cases ns with
    | nil => exact absurd h (hne m ms)
    | cons n ns =>
      have hparts := congrArg (split ',') h
      simp only [map_cons] at hparts
      rw [split_commaSep (hcomma (m :: ms)), split_commaSep (hcomma (n :: ns))] at hparts
      obtain ⟨hfirst, hothers⟩ := List.cons.inj hparts
      rw [map_map, map_map] at hothers
      have hinj : Function.Injective ((' ' :: ·) ∘ Word.text) := (cons_injective).comp Word.text_injective
      rw [Word.text_injective hfirst, map_injective_iff.2 hinj hothers]

theorem dims_inj {ms ns : List Int}
    (h : commaSep (ms.map Word.text) ++ ']' :: x = commaSep (ns.map Word.text) ++ ']' :: y) : ms = ns ∧ x = y := by
  have hbracket : ∀ ns : List Int, ∀ c ∈ commaSep (ns.map Word.text), (c != ']') = true := by
    intro ns
    refine commaSep_chars (fun cs hcs c hc => ?_) ⟨by decide, by decide⟩
    obtain ⟨n, -, rfl⟩ := mem_map.1 hcs
    rw [bne_iff_ne]
    rintro rfl
    exact not_mem_wordText (by decide) (by decide) n hc
  obtain ⟨hdims, hrest⟩ := Expr.append_inj_of_stops (hbracket ms) (hbracket ns)
    (stops_cons.2 (by decide)) (stops_cons.2 (by decide)) h
  exact ⟨commaSep_wordTexts_injective hdims, (List.cons.inj hrest).2⟩

theorem registerSize_inj {m n : Int} (hm : 0 ≤ m) (hn : 0 ≤ n) (hx : Stops goesOn x) (hy : Stops goesOn y)
    (h : (if 0 < m then '[' :: (Word.text m ++ [']']) else []) ++ x =
      (if 0 < n then '[' :: (Word.text n ++ [']']) else []) ++ y) : m = n ∧ x = y := by
  split at h <;> split at h
  · exact size_inj h
  · rw [← show _ = y from h] at hy
    exact absurd (hy '[' rfl) (by decide)
  · rw [show x = _ from h] at hx
    exact absurd (hx '[' rfl) (by decide)
  · exact ⟨by omega, h⟩

/-! ### Texts -/

/-- The text is that of one type only, wherever it ends. -/
def UniqueText (a : Ty) : Prop := ∀ (b : Ty) (x y : List Char), b.WellFormed →
  Stops goesOn x → Stops goesOn y → a.text ++ x = b.text ++ y → a.equal b = true ∧ x = y

theorem tyEqual_of_tyText_append_eq {a b : Option Ty} (ha : ∀ t ∈ a, t.WellFormed ∧ t.UniqueText)
    (hb : ∀ t ∈ b, t.WellFormed) (hx : Stops goesOn x) (hy : Stops goesOn y)
    (h : tyText a ++ x = tyText b ++ y) : tyEqual a b = true ∧ x = y := by
  cases a with
  | none =>
    cases b with
    | none => exact ⟨rfl, append_cancel_left h⟩
    | some t => exact absurd h.symm (text_append_ne_void (hb t rfl) hy hx)
  | some t =>
    cases b with
    | none => exact absurd h (text_append_ne_void (ha t rfl).1 hx hy)
    | some t' => exact (ha t rfl).2 t' x y (hb t' rfl) hx hy h

theorem WellFormed.uniqueText (ha : a.WellFormed) : a.UniqueText := by
  induction ha with
  | @mk kind size elem dims known register plain flat inner ih =>
    intro b x y hb hx hy h
    obtain ⟨hkind, hrest⟩ := kind_eq (.mk known register plain flat inner) hb hx hy h
    cases hb with
    | @mk kind' size' elem' dims' _ register' plain' flat' inner' =>
      cases hkind
      have hflat : kind ≠ .array → dims = dims' ∧ (kind = .array → tyEqual elem elem' = true) :=
        fun hk => ⟨(flat hk).trans (flat' hk).symm, fun heq => absurd heq hk⟩
      rw [equal_iff]
      cases kind with
      | bit | qubit =>
        obtain ⟨hsize, hend⟩ := registerSize_inj (register (by decide)) (register' (by decide)) hx hy hrest
        exact ⟨⟨rfl, hsize, hflat (by decide)⟩, hend⟩
      | int | float | angle =>
        obtain ⟨hsize, hend⟩ := size_inj hrest
        exact ⟨⟨rfl, hsize, hflat (by decide)⟩, hend⟩
      | bool | duration =>
        exact ⟨⟨rfl, (plain (by decide)).trans (plain' (by decide)).symm, hflat (by decide)⟩, hrest⟩
      | array =>
        have htail : tyText elem ++ ',' :: ' ' :: (commaSep (dims.map Word.text) ++ ']' :: x) =
            tyText elem' ++ ',' :: ' ' :: (commaSep (dims'.map Word.text) ++ ']' :: y) := by
          simpa [bracket] using hrest
        obtain ⟨helem, hdims⟩ := tyEqual_of_tyText_append_eq (fun t ht => ⟨inner rfl t ht, ih rfl t ht⟩)
          (inner' rfl) (stops_cons.2 rfl) (stops_cons.2 rfl) htail
        obtain ⟨hdims, hend⟩ := dims_inj (List.cons.inj (List.cons.inj hdims).2).2
        exact ⟨⟨rfl, (plain (by decide)).trans (plain' (by decide)).symm, hdims, fun _ => helem⟩, hend⟩
      | other n => exact absurd known (by simp [kinds])

theorem tyText_eq_of_tyEqual {a b : Option Ty} (ha : ∀ t ∈ a, ∀ t', t.equal t' = true → t.text = t'.text)
    (h : tyEqual a b = true) : tyText a = tyText b := by
  cases a with
  | none =>
    cases b with
    | none => rfl
    | some t => cases h
  | some t =>
    cases b with
    | none => cases h
    | some t' => exact ha t rfl t' h

theorem WellFormed.text_eq_of_equal (ha : a.WellFormed) : ∀ b, a.equal b = true → a.text = b.text := by
  induction ha with
  | @mk kind size elem dims _ _ _ _ _ ih =>
    rintro ⟨kind', size', elem', dims'⟩ h
    obtain ⟨hkind, hsize, hdims, helem⟩ := equal_iff.1 h
    cases hkind
    cases hsize
    cases hdims
    rw [text_eq, text_eq]
    cases kind with
    | array =>
      show _ ++ '[' :: (tyText elem ++ _) = _ ++ '[' :: (tyText elem' ++ _)
      rw [tyText_eq_of_tyEqual (ih rfl) (helem rfl)]
    | _ => rfl

theorem tyEqual_iff {a b : Option Ty} (ha : ∀ t ∈ a, t.WellFormed) (hb : ∀ t ∈ b, t.WellFormed) :
    tyEqual a b = true ↔ tyText a = tyText b := by
  refine ⟨tyText_eq_of_tyEqual fun t ht => (ha t ht).text_eq_of_equal, fun h => ?_⟩
  exact (tyEqual_of_tyText_append_eq (fun t ht => ⟨ha t ht, (ha t ht).uniqueText⟩) hb stops_nil stops_nil
    (congrArg (· ++ []) h)).1

end Ty

/-- Types are equal exactly if they are written alike; so equality of types is an equivalence. -/
theorem tyEqual_iff_tyText_eq : (∀ a b : Option Ty, (∀ t ∈ a, t.WellFormed) → (∀ t ∈ b, t.WellFormed) →
      (tyEqual a b = true ↔ tyText a = tyText b)) ∧
    Equivalence fun a b : {t : Option Ty // ∀ t' ∈ t, t'.WellFormed} => tyEqual a b = true := by
  refine ⟨fun a b ha hb => Ty.tyEqual_iff ha hb, fun a => ?_, fun {a b} h => ?_, fun {a b c} h₁ h₂ => ?_⟩
  · exact (Ty.tyEqual_iff a.2 a.2).2 rfl
  · exact (Ty.tyEqual_iff b.2 a.2).2 ((Ty.tyEqual_iff a.2 b.2).1 h).symm
  · exact (Ty.tyEqual_iff a.2 c.2).2 (((Ty.tyEqual_iff a.2 b.2).1 h₁).trans ((Ty.tyEqual_iff b.2 c.2).1 h₂))

/-- Sizes below zero, which no declaration has, are not seen in the text. -/
example : (Ty.bit (-1)).equal (Ty.bit 0) = false ∧ (Ty.bit (-1)).text = (Ty.bit 0).text := by decide

theorem Ty.wellFormed_array {elem : Option Ty} (h : ∀ t ∈ elem, t.WellFormed) (dims : List Int) :
    (Ty.array elem dims).WellFormed :=
  .mk (by decide) (fun hk => absurd hk (by decide)) (fun _ => rfl) (absurd rfl) (fun _ => h)

/-- The dimensions of the elements do not run into those of the array. -/
theorem tyText_ne_of_nested :
    tyText (some (.array (some (.array none [2, -1])) [])) ≠ tyText (some (.array (some (.array none [2])) [-1])) := by
  have hnested : ∀ ds ds', ∀ t ∈ some (Ty.array (some (.array none ds)) ds'), t.WellFormed := by
    rintro ds ds' _ ⟨⟩
    refine Ty.wellFormed_array ?_ ds'
    rintro _ ⟨⟩
    refine Ty.wellFormed_array ?_ ds
    rintro _ ⟨⟩
  exact fun h => absurd ((tyEqual_iff_tyText_eq.1 _ _ (hnested _ _) (hnested _ _)).2 h) (by decide)

end QasmStudio

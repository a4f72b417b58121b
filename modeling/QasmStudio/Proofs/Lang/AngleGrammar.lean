import QasmStudio.Proofs.Lang.Angle

/-!
# What reads as an angle

A text reads as an angle exactly if it is a number or spells a multiple of pi (`read?_grammar`). The grammar
of the multiples is stated apart from the reader, and a text spells at most one of them.
-/

namespace QasmStudio.Angle

open Number Text List

variable {cs : List Char} {m : Multiple}

/-! ### The grammar -/

/-- Characters of `p`, with at most one `mark` among them. -/
inductive Marked (p : Char → Bool) (mark : Char) : List Char → Prop
  | none {cs : List Char} : (∀ c ∈ cs, p c = true) → Marked p mark cs
  | one {front back : List Char} : (∀ c ∈ front, p c = true) → (∀ c ∈ back, p c = true) →
      Marked p mark (front ++ mark :: back)

/-- What stands after pi: nothing, or a slash between blanks and digits with an optional fraction. -/
inductive Divided : Option (List Char) → List Char → Prop
  | undivided : Divided none []
  | divided {before after digits : List Char} : (∀ c ∈ before, isSpace c = true) → (∀ c ∈ after, isSpace c = true) →
      Marked Char.isDigit '.' digits → (digits.headD '.').isDigit = true →
      Divided (some digits) (before ++ '/' :: (after ++ digits))

/-- The text spells the multiple of pi: an optional minus, digits with at most one point, blanks with at most
one star, pi and what it is divided by. -/
inductive Multiple.Spelled : Multiple → List Char → Prop
  | mk (negative : Bool) {coefficient gap word tail : List Char} {d : Option (List Char)} :
      Marked Char.isDigit '.' coefficient → Marked isSpace '*' gap → word ∈ [['p', 'i'], ['π']] → Divided d tail →
      Spelled ⟨negative, coefficient, d⟩ (signed negative (coefficient ++ (gap ++ (word ++ tail))))

/-! ### The reader follows the grammar -/

section
variable {p : Char → Bool} {mark : Char} {rest : List Char}

theorem stops_append (hne : cs ≠ []) (h : ∀ c ∈ cs, p c = false) : Stops p (cs ++ rest) := by
  obtain ⟨c, cs, rfl⟩ := exists_cons_of_ne_nil hne
  exact stops_cons.2 (h c mem_cons_self)

theorem Marked.forall {q : Char → Bool} (h : Marked p mark cs) (hp : ∀ c, p c = true → q c = false)
    (hmark : q mark = false) : ∀ c ∈ cs, q c = false := by
  cases h with
  | none h => exact fun c hc => hp c (h c hc)
  | one hfront hback =>
    exact forall_mem_append.2 ⟨fun c hc => hp c (hfront c hc),
      forall_mem_cons.2 ⟨hmark, fun c hc => hp c (hback c hc)⟩⟩

theorem takeMarked_append (hmark : p mark = false) (h : Marked p mark cs)
    (hrest : Stops (fun c => p c || c = mark) rest) :
    takeMarked p mark (cs ++ rest) = (cs, rest) := by
  have hstops : Stops p rest ∧ rest.head? ≠ some mark := by
    cases rest with
    | nil => exact ⟨stops_nil, Option.some_ne_none _ ∘ Eq.symm⟩
    | cons c rest => simpa [Stops] using hrest
  unfold takeMarked
  cases h with
  | none h =>
    rw [span_append h hstops.1]
    exact if_neg hstops.2
  | one hfront hback =>
    rw [append_assoc, cons_append, span_append hfront (stops_cons.2 hmark)]
    dsimp only
    rw [head?_cons, if_pos rfl, tail_cons, span_append hback hstops.1]

theorem takeMarked_spec {taken : List Char} (h : takeMarked p mark cs = (taken, rest)) :
    Marked p mark taken ∧ cs = taken ++ rest := by
  have hrun : ∀ xs : List Char, ∀ c ∈ xs.takeWhile p, p c = true := fun xs => all_eq_true.1 all_takeWhile
  unfold takeMarked at h
  simp only [span_eq_takeWhile_dropWhile] at h
  split at h
  · rename_i hhead
    obtain ⟨tail, htail⟩ := head?_eq_some_iff.1 hhead
    cases h
    refine ⟨.one (hrun _) (hrun _), ?_⟩
    rw [append_assoc, cons_append, takeWhile_append_dropWhile, htail, tail_cons, ← htail,
      takeWhile_append_dropWhile]
  · cases h
    exact ⟨.none (hrun _), (takeWhile_append_dropWhile ..).symm⟩

end

theorem divided_of_denominator? {d : Option (List Char)} (h : denominator? cs = some d) : Divided d cs := by
  unfold denominator? at h
  split at h
  · rename_i hnil
    cases h
    rw [hnil]
    exact .undivided
  dsimp only at h
  cases hgap : takeMarked isSpace '/' cs with | mk gap rest
  rw [hgap] at h
  cases htaken : takeMarked Char.isDigit '.' rest with | mk digits after
  rw [htaken] at h
  obtain ⟨hblanks, rfl⟩ := takeMarked_spec hgap
  obtain ⟨hdigits, rfl⟩ := takeMarked_spec htaken
  split at h
  · rename_i hden
    obtain ⟨hslash, hhead, rfl⟩ := hden
    cases h
    rw [append_nil]
    cases hblanks with
    | none hblanks => exact absurd (hblanks _ hslash) (by decide)
    | one hbefore hafter =>
      have hdivided := Divided.divided hbefore hafter hdigits hhead
      rw [← cons_append, ← append_assoc] at hdivided
      exact hdivided
  · cases h

theorem isSpace_of_isDigit {c : Char} (h : c.isDigit = true) : isSpace c = false :=
  isSpace_of_isBlank (isBlank_of_isDigit h)

theorem Divided.denominator?_eq {d : Option (List Char)} (h : Divided d cs) : denominator? cs = some d := by
  cases h with
  | undivided => rfl
  | @divided before after digits hbefore hafter hdigits hhead =>
    have hstops : Stops (fun c => isSpace c || c = '/') digits := by
      cases digits with
      | nil => cases hhead
      | cons c digits =>
        refine stops_cons.2 (Bool.or_eq_false_iff.2 ⟨isSpace_of_isDigit hhead, decide_eq_false ?_⟩)
        exact ne_of_class hhead (by decide)
    have hgap := takeMarked_append (by decide) (.one hbefore hafter) hstops
    have htaken : takeMarked Char.isDigit '.' (digits ++ []) = (digits, []) :=
      takeMarked_append (by decide) hdigits stops_nil
    rw [append_assoc, cons_append] at hgap
    rw [append_nil] at htaken
    unfold denominator?
    rw [if_neg (by simp), hgap]
    dsimp only
    rw [htaken, if_pos ⟨by simp, hhead, rfl⟩]

theorem takeSign_spec (cs : List Char) : cs = signed (takeSign cs).1 (takeSign cs).2 := by
  unfold takeSign
  split <;> rfl

theorem takeSign_signed (h : Stops (· = '-') cs) (negative : Bool) :
    takeSign (signed negative cs) = (negative, cs) := by
  cases negative with
  | true => rfl
  | false =>
    cases cs with
    | nil => rfl
    | cons c cs =>
      have hc : c ≠ '-' := of_decide_eq_false (stops_cons.1 h)
      show takeSign (c :: cs) = _
      unfold takeSign
      split
      · rename_i heq
        cases heq
        exact absurd rfl hc
      · rfl

theorem afterPi?_eq_some_iff {rest : List Char} :
    afterPi? cs = some rest ↔ ∃ word ∈ [['p', 'i'], ['π']], cs = word ++ rest := by
  constructor
  · intro h
    unfold afterPi? at h
    split at h
    · cases h
      exact ⟨['p', 'i'], by decide, rfl⟩
    · cases h
      exact ⟨['π'], by decide, rfl⟩
    · cases h
  · rintro ⟨word, hword, rfl⟩
    rcases mem_pair.1 hword with rfl | rfl
    · rfl
    · rfl

theorem spelled_of_multiple? (h : multiple? cs = some m) : m.Spelled cs := by
  obtain ⟨d, hd, rfl⟩ := Option.map_eq_some_iff.1 h
  obtain ⟨tail, hpi, hd⟩ := Option.bind_eq_some_iff.1 hd
  obtain ⟨word, hword, hgap⟩ := afterPi?_eq_some_iff.1 hpi
  cases hcoefficient : takeMarked Char.isDigit '.' (takeSign cs).2 with | mk coefficient rest
  rw [hcoefficient] at hgap
  cases hblanks : takeMarked isSpace '*' rest with | mk gap rest'
  rw [hblanks] at hgap
  obtain ⟨hdecimal, hcs⟩ := takeMarked_spec hcoefficient
  obtain ⟨hmarked, rfl⟩ := takeMarked_spec hblanks
  have hspelled := Multiple.Spelled.mk (takeSign cs).1 hdecimal hmarked hword (divided_of_denominator? hd)
  rw [← hgap, ← hcs, ← takeSign_spec] at hspelled
  exact hspelled

theorem Multiple.Spelled.multiple?_eq (h : m.Spelled cs) : multiple? cs = some m := by
  cases h with
  | @mk negative coefficient gap word tail d hcoefficient hgap hword hd =>
    have hpi : afterPi? (word ++ tail) = some tail := afterPi?_eq_some_iff.2 ⟨word, hword, rfl⟩
    have hne : word ≠ [] := by
      rintro rfl
      exact absurd hword (by decide)
    have hletters : ∀ c ∈ word, (isSpace c || c = '*') = false ∧ (c.isDigit || c = '.') = false ∧ c ≠ '-' := by
      rcases mem_pair.1 hword with rfl | rfl
      · exact forall_mem_of_all (by decide)
      · exact forall_mem_of_all (by decide)
    have hspace : ∀ c, isSpace c = true → (c.isDigit || c = '.') = false := fun c hc => by
      refine Bool.or_eq_false_iff.2 ⟨Bool.eq_false_iff.2 fun hd => ?_, decide_eq_false (ne_of_class hc (by decide))⟩
      exact absurd (hc.symm.trans (isSpace_of_isDigit hd)) (by decide)
    have hstar : Stops (fun c => isSpace c || c = '*') (word ++ tail) := stops_append hne fun c hc => (hletters c hc).1
    have hpoint : Stops (fun c => c.isDigit || c = '.') (gap ++ (word ++ tail)) := by
      rw [← append_assoc]
      refine stops_append (by simp [hne]) (forall_mem_append.2 ⟨hgap.forall hspace (by decide), ?_⟩)
      exact fun c hc => (hletters c hc).2.1
    have hminus : Stops (· = '-') (coefficient ++ (gap ++ (word ++ tail))) := by
      rw [← append_assoc, ← append_assoc]
      refine stops_append (by simp [hne]) (forall_mem_append.2 ⟨forall_mem_append.2 ⟨?_, ?_⟩, ?_⟩)
      · exact hcoefficient.forall (fun c hc => decide_eq_false (ne_of_class hc (by decide))) (by decide)
      · exact hgap.forall (fun c hc => decide_eq_false (ne_of_class hc (by decide))) (by decide)
      · exact fun c hc => decide_eq_false (hletters c hc).2.2
    unfold multiple?
    dsimp only
    rw [takeSign_signed hminus, takeMarked_append (by decide) hcoefficient hpoint,
      takeMarked_append (by decide) hgap hstar, hpi, Option.bind_eq_bind, Option.bind_some, hd.denominator?_eq]
    rfl

/-- A text spells a multiple of pi exactly if the reader finds that one. -/
theorem multiple?_eq_some_iff : multiple? cs = some m ↔ m.Spelled cs :=
  ⟨spelled_of_multiple?, Multiple.Spelled.multiple?_eq⟩

/-- The parts of a multiple are numbers, and it is not divided by zero. -/
structure Multiple.Readable (m : Multiple) : Prop where
  coefficient : m.coefficient ≠ [] → (Number.read? m.coefficient).isSome
  denominator : ∀ digits, m.denominator = some digits → ∃ x, Number.read? digits = some x ∧ (x == 0) = false

/-- The value of a multiple of pi: the coefficient, which is one if none is written, times pi, over the
denominator if there is one, with the sign. -/
inductive Multiple.Denotes : Multiple → Float → Prop
  | mk {m : Multiple} {x y : Float}
      (hfactor : m.coefficient = [] ∧ x = 1 ∨ m.coefficient ≠ [] ∧ Number.read? m.coefficient = some x)
      (hquotient : m.denominator = none ∧ y = x * pi ∨ ∃ digits d, m.denominator = some digits ∧
        Number.read? digits = some d ∧ (d == 0) = false ∧ y = x * pi / d) :
      Denotes m (if m.negative then -y else y)

theorem Multiple.factor?_eq_some_iff {x : Float} : m.factor? = some x ↔
    m.coefficient = [] ∧ x = 1 ∨ m.coefficient ≠ [] ∧ Number.read? m.coefficient = some x := by
  unfold factor?
  split
  · simp [*, @eq_comm _ x]
  · simp [*]

theorem Multiple.divide?_eq_some_iff {x y : Float} : m.divide? x = some y ↔ m.denominator = none ∧ y = x ∨
    ∃ digits d, m.denominator = some digits ∧ Number.read? digits = some d ∧ (d == 0) = false ∧ y = x / d := by
  unfold divide?
  cases m.denominator with
  | none => simp [@eq_comm _ x y]
  | some digits =>
    have hdivide : ((Number.read? digits).bind fun d => if d == 0 then none else some (x / d)) = some y ↔
        ∃ d, Number.read? digits = some d ∧ (d == 0) = false ∧ y = x / d := by
      refine Option.bind_eq_some_iff.trans (exists_congr fun d => and_congr_right fun _ => ?_)
      cases d == 0 <;> simp [@eq_comm _ y]
    simpa using hdivide

theorem Multiple.value?_eq_some_iff {x : Float} : m.value? = some x ↔ m.Denotes x := by
  constructor
  · intro h
    obtain ⟨y, hy, rfl⟩ := Option.map_eq_some_iff.1 h
    obtain ⟨k, hk, hy⟩ := Option.bind_eq_some_iff.1 hy
    exact ⟨factor?_eq_some_iff.1 hk, divide?_eq_some_iff.1 hy⟩
  · rintro ⟨hfactor, hquotient⟩
    rw [value?, factor?_eq_some_iff.2 hfactor, Option.bind_some, divide?_eq_some_iff.2 hquotient]
    rfl

theorem Multiple.isSome_value?_iff (m : Multiple) : m.value?.isSome ↔ m.Readable := by
  rw [Option.isSome_iff_exists]
  constructor
  · rintro ⟨x, hx⟩
    obtain ⟨hfactor, hquotient⟩ := value?_eq_some_iff.1 hx
    refine ⟨fun hne => ?_, fun digits hdigits => ?_⟩
    · obtain ⟨-, hread⟩ := hfactor.resolve_left fun h => hne h.1
      rw [hread]
      rfl
    · rcases hquotient with ⟨hnone, -⟩ | ⟨_, d, hsome, hread, hzero, -⟩
      · cases hnone.symm.trans hdigits
      · cases hsome.symm.trans hdigits
        exact ⟨d, hread, hzero⟩
  · intro h
    obtain ⟨x, hx⟩ : ∃ x, m.factor? = some x := by
      by_cases hne : m.coefficient = []
      · exact ⟨1, factor?_eq_some_iff.2 (.inl ⟨hne, rfl⟩)⟩
      · obtain ⟨x, hx⟩ := Option.isSome_iff_exists.1 (h.coefficient hne)
        exact ⟨x, factor?_eq_some_iff.2 (.inr ⟨hne, hx⟩)⟩
    obtain ⟨y, hy⟩ : ∃ y, m.divide? (x * pi) = some y := by
      cases hd : m.denominator with
      | none => exact ⟨_, divide?_eq_some_iff.2 (.inl ⟨hd, rfl⟩)⟩
      | some digits =>
        obtain ⟨d, hread, hzero⟩ := h.denominator digits hd
        exact ⟨_, divide?_eq_some_iff.2 (.inr ⟨digits, d, hd, hread, hzero, rfl⟩)⟩
    exact ⟨_, value?_eq_some_iff.2 ⟨factor?_eq_some_iff.1 hx, divide?_eq_some_iff.1 hy⟩⟩

/-- A text reads as an angle exactly if, trimmed, it is a number or spells in lower case a multiple of pi that
can be computed. It spells one multiple at most, and the angle is what the sign, the coefficient and the
denominator of that one say. -/
theorem read?_grammar (cs : List Char) :
    ((read? cs).isSome ↔ trim cs ≠ [] ∧ ((Number.read? (trim cs)).isSome ∨
      ∃ m : Multiple, m.Spelled ((trim cs).map toLower) ∧ m.Readable)) ∧
    ∀ m : Multiple, m.Spelled ((trim cs).map toLower) →
      (∀ m' : Multiple, m'.Spelled ((trim cs).map toLower) → m' = m) ∧
      (Number.read? (trim cs) = none → read? cs = m.value? ∧ ∀ x, read? cs = some x ↔ m.Denotes x) := by
  have hread : read? cs = if trim cs = [] then none else
      (Number.read? (trim cs)).or (multiple? ((trim cs).map toLower) >>= Multiple.value?) := by
    unfold read?
    dsimp only
    split
    · rfl
    · cases Number.read? (trim cs) with
      | none => rfl
      | some x => rfl
  refine ⟨?_, fun m hm => ⟨fun m' hm' => ?_, fun hnone => ?_⟩⟩
  · rw [hread]
    split
    · simp [*]
    · rename_i hne
      have hmultiple : (multiple? ((trim cs).map toLower) >>= Multiple.value?).isSome ↔
          ∃ m : Multiple, m.Spelled ((trim cs).map toLower) ∧ m.Readable := by
        simp only [← multiple?_eq_some_iff, ← Multiple.isSome_value?_iff]
        cases multiple? ((trim cs).map toLower) with
        | none => simp
        | some m => simp
      rw [Option.isSome_or, Bool.or_eq_true, hmultiple]
      exact ⟨fun h => ⟨hne, h⟩, And.right⟩
  · exact Option.some.inj ((multiple?_eq_some_iff.2 hm').symm.trans (multiple?_eq_some_iff.2 hm))
  · have hne : trim cs ≠ [] := by
      intro hnil
      rw [hnil] at hm
      cases multiple?_eq_some_iff.2 hm
    have hvalue : read? cs = m.value? := by
      rw [hread, if_neg hne, hnone, multiple?_eq_some_iff.2 hm]
      rfl
    refine ⟨hvalue, fun x => ?_⟩
    rw [hvalue]
    exact Multiple.value?_eq_some_iff

end QasmStudio.Angle

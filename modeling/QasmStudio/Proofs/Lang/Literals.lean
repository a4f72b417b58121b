import Mathlib.Data.List.Forall2
import QasmStudio.Proofs.Convert.Names
import QasmStudio.Proofs.Number.Word

/-!
# Literals of data

Values and literals that are made of integers, truth values and lists are read as data (`Datum`). The literal
of a value is the same data with each integer brought into the range of a word, so it has the nesting of the
value, and only unsigned words can come out changed. The type of an array is taken from the elements at the
front (`Datum.Leads`), so it is the shape of the literal (`Datum.HasShape`) if and only if the data has one.
-/

namespace QasmStudio

open List

variable {es : List Expr} {ds : List Datum} {vs : List Value} {e : Expr}

/-- Integers, truth values and lists of data. -/
inductive Datum where
  | int (n : Int)
  | bool (b : Bool)
  | list (items : List Datum)

namespace Datum

mutual
/-- The data as source text: integers in decimal, lists in braces. -/
def text : Datum → List Char
  | int n => Word.text n
  | bool b => if b then "true".toList else "false".toList
  | list items => '{' :: (commaSep (texts items) ++ ['}'])

def texts : List Datum → List (List Char)
  | [] => []
  | d :: ds => d.text :: texts ds
end

def leafTy? : Datum → Option Ty
  | int _ => some Ty.int
  | bool _ => some Ty.bool
  | list _ => none

/-- Lists of the lengths `dims`, one inside the other, around data of type `elem`. -/
def HasShape (elem : Ty) : List Int → Datum → Prop
  | [], d => d.leafTy? = some elem
  | n :: dims, d => ∃ items, d = list items ∧ (items.length : Int) = n ∧ ∀ x ∈ items, x.HasShape elem dims

/-- The lengths of the lists that are met at the front of the data, and the type of the data inside them. -/
def Leads (elem : Ty) : List Int → Datum → Prop
  | [], d => d.leafTy? = some elem
  | n :: dims, d => ∃ x xs, d = list (x :: xs) ∧ ((x :: xs).length : Int) = n ∧ x.Leads elem dims

variable {d : Datum} {elem elem' : Ty} {dims dims' : List Int}

/-- Data that has a shape shows it at the front. -/
theorem Leads.eq_of_hasShape (h : d.Leads elem dims) (h' : d.HasShape elem' dims') :
    elem = elem' ∧ dims = dims' := by
  induction dims generalizing d dims' with
  | nil =>
    have hleaf : d.leafTy? = some elem := h
    cases dims' with
    | nil => exact ⟨Option.some.inj (hleaf.symm.trans h'), rfl⟩
    | cons n' dims' =>
      obtain ⟨items, rfl, -⟩ := h'
      cases hleaf
  | cons n dims ih =>
    obtain ⟨x, xs, rfl, rfl, hx⟩ := h
    cases dims' with
    | nil => cases h'
    | cons n' dims' =>
      obtain ⟨items, hitems, rfl, hall⟩ := h'
      cases hitems
      obtain ⟨rfl, rfl⟩ := ih hx (hall x mem_cons_self)
      exact ⟨rfl, rfl⟩

end Datum

/-! ### Values as data -/

namespace Value

mutual
/-- The value as data, with `f` applied to each integer. -/
def datum? (f : Int → Int) : Value → Option Datum
  | int _ n => some (.int (f n))
  | bool b => some (.bool b)
  | list _ items => (datums? f items).map .list
  | _ => .none

def datums? (f : Int → Int) : List Value → Option (List Datum)
  | [] => some []
  | v :: vs => do return (← v.datum? f) :: (← datums? f vs)
end

mutual
/-- The integers in the value, with their formats. -/
def ints : Value → List (IntFormat × Int)
  | int format n => [(format, n)]
  | list _ items => intsAll items
  | _ => []

def intsAll : List Value → List (IntFormat × Int)
  | [] => []
  | v :: vs => v.ints ++ intsAll vs
end

mutual
def lengths : Value → List Nat
  | list _ items => items.length :: lengthsAll items
  | _ => []

def lengthsAll : List Value → List Nat
  | [] => []
  | v :: vs => v.lengths ++ lengthsAll vs
end

mutual
theorem list_induction {P : Value → Prop} (leaf : ∀ v, (∀ shape items, v ≠ list shape items) → P v)
    (list : ∀ shape items, (∀ v ∈ items, P v) → P (list shape items)) : ∀ v, P v
  | .list shape items => list shape items (list_induction_all leaf list items)
  | .none | .bool _ | .int .. | .float _ | .float32 _ | .string _ | .duration _ | .expr _ | .program _
  | .draft .. => leaf _ (by simp)

theorem list_induction_all {P : Value → Prop} (leaf : ∀ v, (∀ shape items, v ≠ .list shape items) → P v)
    (list : ∀ shape items, (∀ v ∈ items, P v) → P (.list shape items)) : ∀ vs : List Value, ∀ v ∈ vs, P v
  | [] => forall_mem_nil P
  | v :: vs => forall_mem_cons.2 ⟨list_induction leaf list v, list_induction_all leaf list vs⟩
end

variable {f g : Int → Int} {v : Value} {d l : Datum}

theorem datums?_eq_some_iff : datums? f vs = some ds ↔ Forall₂ (fun v d => v.datum? f = some d) vs ds := by
  induction vs generalizing ds with
  | nil =>
    rw [forall₂_nil_left_iff, datums?, Option.some.injEq, eq_comm]
  | cons v vs ih =>
    simp only [datums?, bind, Option.bind_eq_some_iff, pure, Option.some.injEq, forall₂_cons_left_iff, ih]
    grind

theorem datum?_list_eq_some_iff {shape : ListShape} {items : List Value} : (list shape items).datum? f = some d ↔
      ∃ ds, Forall₂ (fun v d => v.datum? f = some d) items ds ∧ .list ds = d := by
  simp only [datum?, Option.map_eq_some_iff, datums?_eq_some_iff]

theorem forall_mem_intsAll {P : IntFormat × Int → Prop} :
    (∀ p ∈ intsAll vs, P p) ↔ ∀ v ∈ vs, ∀ p ∈ v.ints, P p := by
  induction vs with
  | nil => simp [intsAll]
  | cons v vs ih => rw [intsAll, forall_mem_append, forall_mem_cons, ih]

theorem not_mem_lengthsAll {n : Nat} : n ∉ lengthsAll vs ↔ ∀ v ∈ vs, n ∉ v.lengths := by
  induction vs with
  | nil => simp [lengthsAll]
  | cons v vs ih => rw [lengthsAll, mem_append, not_or, forall_mem_cons, ih]

theorem hasShape_of_datum? {elem : Ty} {dims : List Int} (hl : v.datum? f = some l) (hd : v.datum? g = some d)
    (h : l.HasShape elem dims) : d.HasShape elem dims := by
  induction dims generalizing v l d with
  | nil =>
    cases v with
    | int _ n =>
      cases hl
      cases hd
      exact h
    | bool b =>
      cases hl
      cases hd
      exact h
    | list shape items =>
      obtain ⟨ls, -, rfl⟩ := datum?_list_eq_some_iff.1 hl
      cases h
    | _ => cases hl
  | cons n dims ih =>
    obtain ⟨items, rfl, rfl, hall⟩ := h
    cases v with
    | list shape vs =>
      obtain ⟨ls, hfl, hls⟩ := datum?_list_eq_some_iff.1 hl
      obtain ⟨ds, hfd, rfl⟩ := datum?_list_eq_some_iff.1 hd
      cases hls
      refine ⟨ds, rfl, by rw [← hfl.length_eq, hfd.length_eq], fun x hx => ?_⟩
      obtain ⟨w, hw, hwx⟩ := exists_of_forall₂ hfd x hx
      obtain ⟨y, hy, hwy⟩ := exists_of_forall₂ hfl.flip w hw
      exact ih hwy hwx (hall y hy)
    | int _ n => cases hl
    | bool b => cases hl
    | _ => cases hl

/-- The same data comes out if and only if no integer is changed. -/
theorem exists_datum? (f : Int → Int) (hd : v.datum? id = some d) :
    ∃ l, v.datum? f = some l ∧ (l = d ↔ ∀ p ∈ v.ints, f p.2 = p.2) := by
  induction v using list_induction generalizing d with
  | leaf v hv =>
    cases v with
    | list shape items => exact absurd rfl (hv shape items)
    | int _ n =>
      cases hd
      exact ⟨_, rfl, by simp [ints]⟩
    | bool b =>
      cases hd
      exact ⟨_, rfl, by simp [ints]⟩
    | _ => cases hd
  | list shape items ih =>
    obtain ⟨ds, hds, rfl⟩ := datum?_list_eq_some_iff.1 hd
    suffices hall : ∃ ls, Forall₂ (fun v d => v.datum? f = some d) items ls ∧
        (ls = ds ↔ ∀ p ∈ intsAll items, f p.2 = p.2) by
      obtain ⟨ls, hls, heq⟩ := hall
      exact ⟨.list ls, datum?_list_eq_some_iff.2 ⟨ls, hls, rfl⟩, by rw [Datum.list.injEq, heq, ints]⟩
    clear hd
    induction hds with
    | nil => exact ⟨[], .nil, by simp [intsAll]⟩
    | cons hv _ ihs =>
      obtain ⟨hfirst, hrest⟩ := forall_mem_cons.1 ih
      obtain ⟨l, hl, heq⟩ := hfirst hv
      obtain ⟨ls, hls, heqs⟩ := ihs hrest
      refine ⟨l :: ls, .cons hl hls, ?_⟩
      rw [List.cons.injEq, heq, heqs, intsAll, forall_mem_append]

end Value

/-! ### Literals as data -/

namespace Expr

mutual
/-- The literal as data. -/
def datum? : Expr → Option Datum
  | int n => some (.int n)
  | bool b => some (.bool b)
  | array elems _ => (datums? elems).map .list
  | _ => none

def datums? : List Expr → Option (List Datum)
  | [] => some []
  | e :: es => do return (← e.datum?) :: (← datums? es)
end

theorem datums?_of_forall₂ (h : Forall₂ (fun e d => e.datum? = some d) es ds) : datums? es = some ds := by
  induction h with
  | nil => rfl
  | cons he _ ih => rw [datums?, he, ih]; rfl

theorem texts_of_forall₂ (h : Forall₂ (fun e d => e.text = d.text) es ds) : texts es = Datum.texts ds := by
  induction h with
  | nil => rfl
  | cons he _ ih => rw [texts, Datum.texts, he, ih]

end Expr

def Ty.ofShape (elem : Ty) : List Int → Ty
  | [] => elem
  | dims => Ty.array (some elem) dims

def Ty.arrayOver (t : Ty) (n : Nat) : Ty :=
  if t.kind = .array then Ty.array t.elem ((n : Int) :: t.dims) else Ty.array (some t) [(n : Int)]

theorem Ty.arrayOver_ofShape {elem : Ty} (h : elem.kind ≠ .array) (dims : List Int) (n : Nat) :
    (Ty.ofShape elem dims).arrayOver n = Ty.ofShape elem ((n : Int) :: dims) := by
  cases dims with
  | nil => exact if_neg h
  | cons d dims => exact if_pos rfl

theorem Value.arrayOf_eq_ok_iff {form : String} :
    Value.arrayOf form es = .ok e ↔ ∃ first rest t, es = first :: rest ∧ first.ty = some t ∧
      e = .array es (some (t.arrayOver es.length)) := by
  cases es with
  | nil => simp [Value.arrayOf]
  | cons first rest =>
    cases ht : first.ty with
    | none => simp [Value.arrayOf, ht]
    | some t =>
      simp only [Value.arrayOf, head?_cons, ht, Except.ok.injEq, Ty.arrayOver]
      constructor
      · rintro rfl
        exact ⟨first, rest, t, rfl, ht, rfl⟩
      · rintro ⟨_, _, t', hes, ht', rfl⟩
        cases hes
        cases ht.symm.trans ht'
        rfl

/-- The expression is the literal of the data, and its type is taken from the front. -/
structure Datum.WrittenAs (d : Datum) (e : Expr) : Prop where
  datum : e.datum? = some d
  text : e.text = d.text
  front : ∃ elem dims, d.Leads elem dims ∧ elem.kind ≠ .array ∧ e.ty = some (Ty.ofShape elem dims)

theorem forall₂_of_common {α β γ : Type} {R : α → β → Prop} {S : α → γ → Prop} {T : β → γ → Prop} {as : List α}
    {bs : List β} {cs : List γ} (hR : Forall₂ R as bs) (hS : Forall₂ S as cs)
    (h : ∀ a ∈ as, ∀ {b c}, R a b → S a c → T b c) : Forall₂ T bs cs := by
  induction hR generalizing cs with
  | nil =>
    cases hS
    exact .nil
  | cons hab _ ih =>
    cases hS with
    | cons hac hrest =>
      obtain ⟨hfirst, hothers⟩ := forall_mem_cons.1 h
      exact .cons (hfirst hab hac) (ih hrest hothers)

theorem exists_forall₂ {α β : Type} {R : α → β → Prop} {as : List α} (h : ∀ a ∈ as, ∃ b, R a b) :
    ∃ bs, Forall₂ R as bs := by
  induction as with
  | nil => exact ⟨[], .nil⟩
  | cons a as ih =>
    obtain ⟨⟨b, hb⟩, hothers⟩ := forall_mem_cons.1 h
    obtain ⟨bs, hbs⟩ := ih hothers
    exact ⟨b :: bs, .cons hb hbs⟩

theorem Datum.WrittenAs.array (h : Forall₂ (fun e d => Datum.WrittenAs d e) es ds) {form : String}
    (he : Value.arrayOf form es = .ok e) : (Datum.list ds).WrittenAs e := by
  obtain ⟨first, rest, t, rfl, ht, rfl⟩ := Value.arrayOf_eq_ok_iff.1 he
  have hlen := h.length_eq
  have hdatums := Expr.datums?_of_forall₂ (h.imp fun _ _ h => h.datum)
  have htexts := Expr.texts_of_forall₂ (h.imp fun _ _ h => h.text)
  cases h with
  | cons hfirst _ =>
    obtain ⟨elem, dims, hlead, hkind, hty⟩ := hfirst.front
    cases ht.symm.trans hty
    refine ⟨?_, ?_, elem, _ :: dims, ⟨_, _, rfl, rfl, hlead⟩, hkind, ?_⟩
    · exact Option.map_eq_some_iff.2 ⟨_, hdatums, rfl⟩
    · show '{' :: (commaSep (Expr.texts (first :: rest)) ++ ['}']) = _
      rw [htexts]
      rfl
    · show some _ = some _
      rw [Ty.arrayOver_ofShape hkind, hlen]

namespace Value
variable {v : Value} {d : Datum}

theorem toExprs_eq_ok_iff {i : Nat} : toExprs i vs = .ok es ↔ Forall₂ (fun v e => v.toExpr = .ok e) vs es := by
  induction vs generalizing i es with
  | nil => rw [forall₂_nil_left_iff, toExprs, Except.ok.injEq, eq_comm]
  | cons v vs ih =>
    rw [forall₂_cons_left_iff, toExprs]
    constructor
    · intro h
      split at h
      · cases h
      · rename_i e he
        cases hrest : toExprs (i + 1) vs with
        | error cause =>
          rw [hrest] at h
          cases h
        | ok es =>
          rw [hrest] at h
          cases h
          exact ⟨e, es, he, ih.1 hrest, rfl⟩
    · rintro ⟨e, es, he, hes, rfl⟩
      rw [he, ih.2 hes]
      rfl

theorem toExpr_list_eq_ok_iff {shape : ListShape} {items : List Value} :
    (list shape items).toExpr = .ok e ↔ ∃ es, Forall₂ (fun v e => v.toExpr = .ok e) items es ∧
      arrayOf shape.name es = .ok e := by
  rw [toExpr]
  cases hes : toExprs 0 items with
  | error cause =>
    simp only [← toExprs_eq_ok_iff (i := 0), hes]
    simp [bind, Except.bind]
  | ok es =>
    simp only [← toExprs_eq_ok_iff (i := 0), hes]
    simp [bind, Except.bind]

theorem writtenAs_toExpr {l : Datum} (hl : v.datum? Word.wrap = some l) (he : v.toExpr = .ok e) :
    l.WrittenAs e := by
  induction v using list_induction generalizing l e with
  | leaf v hv =>
    cases v with
    | list shape items => exact absurd rfl (hv shape items)
    | int format n =>
      cases hl
      have he : e = .int (Word.wrap n) := by
        cases format <;> cases he <;> rfl
      subst he
      exact ⟨rfl, rfl, Ty.int, [], rfl, by decide, rfl⟩
    | bool b =>
      cases hl
      cases he
      exact ⟨rfl, rfl, Ty.bool, [], rfl, by decide, rfl⟩
    | _ => cases hl
  | list shape items ih =>
    obtain ⟨ls, hls, rfl⟩ := datum?_list_eq_some_iff.1 hl
    obtain ⟨es, hes, harray⟩ := toExpr_list_eq_ok_iff.1 he
    exact .array (forall₂_of_common hes hls fun v hv _ _ he hl => ih v hv hl he) harray

/-- A value that is data has a literal unless it has an empty list or an integer of the widest unsigned
format in it. -/
theorem exists_toExpr_iff (hd : v.datum? id = some d) :
    (∃ e, v.toExpr = .ok e) ↔ (∀ p ∈ v.ints, p.1 ≠ .u64) ∧ 0 ∉ v.lengths := by
  induction v using list_induction generalizing d with
  | leaf v hv =>
    cases v with
    | list shape items => exact absurd rfl (hv shape items)
    | int format n => cases format <;> simp [toExpr, ints, lengths]
    | bool b => simp [toExpr, ints, lengths]
    | _ => cases hd
  | list shape items ih =>
    obtain ⟨ds, hds, rfl⟩ := datum?_list_eq_some_iff.1 hd
    have hdata : ∀ v ∈ items, ∃ d, v.datum? id = some d := fun v hv =>
      (exists_of_forall₂ hds.flip v hv).imp fun _ => And.right
    have hitem : ∀ v ∈ items, (∃ e, v.toExpr = .ok e) ↔ (∀ p ∈ v.ints, p.1 ≠ .u64) ∧ 0 ∉ v.lengths :=
      fun v hv => (hdata v hv).elim fun _ => ih v hv
    have hcond : ((∀ p ∈ (list shape items).ints, p.1 ≠ .u64) ∧ 0 ∉ (list shape items).lengths) ↔
        items ≠ [] ∧ ∀ v ∈ items, ∃ e, v.toExpr = .ok e := by
      rw [forall₂_congr hitem, ints, lengths, mem_cons, not_or, forall_mem_intsAll, not_mem_lengthsAll,
        ← length_pos_iff]
      constructor
      · rintro ⟨hints, hlen, hlengths⟩
        exact ⟨by omega, fun v hv => ⟨hints v hv, hlengths v hv⟩⟩
      · rintro ⟨hlen, hall⟩
        exact ⟨fun v hv => (hall v hv).1, by omega, fun v hv => (hall v hv).2⟩
    rw [hcond]
    constructor
    · rintro ⟨e, he⟩
      obtain ⟨es, hes, harray⟩ := toExpr_list_eq_ok_iff.1 he
      obtain ⟨first, rest, t, rfl, -⟩ := arrayOf_eq_ok_iff.1 harray
      refine ⟨?_, fun v hv => (exists_of_forall₂ hes.flip v hv).imp fun _ => And.right⟩
      rintro rfl
      cases hes
    · rintro ⟨hne, hall⟩
      obtain ⟨es, hes⟩ := exists_forall₂ hall
      cases hes with
      | nil => exact absurd rfl hne
      | cons hfirst hrest =>
        -- the literal of the first element has a type
        obtain ⟨d, hd⟩ := hdata _ mem_cons_self
        obtain ⟨l, hl, -⟩ := exists_datum? Word.wrap hd
        obtain ⟨elem, dims, -, -, hty⟩ := (writtenAs_toExpr hl hfirst).front
        exact ⟨_, toExpr_list_eq_ok_iff.2 ⟨_, .cons hfirst hrest, arrayOf_eq_ok_iff.2 ⟨_, _, _, rfl, hty, rfl⟩⟩⟩

end Value

def IntFormat.bounds : IntFormat → Int × Int
  | word | i64 => (Word.smallest, Word.largest)
  | i8 => (-128, 127)
  | i16 => (-32768, 32767)
  | i32 => (-2147483648, 2147483647)
  | uword | u64 => (0, 18446744073709551615)
  | u8 => (0, 255)
  | u16 => (0, 65535)
  | u32 => (0, 4294967295)

def IntFormat.Holds (format : IntFormat) (n : Int) : Prop := format.bounds.1 ≤ n ∧ n ≤ format.bounds.2

instance (format : IntFormat) (n : Int) : Decidable (format.Holds n) := inferInstanceAs (Decidable (_ ∧ _))

theorem Word.wrap_eq_self_iff {n : Int} : wrap n = n ↔ InRange n := by
  refine ⟨fun h => ?_, wrap_of_inRange⟩
  have hlo := Int.le_bmod (x := n) (m := 18446744073709551616) (by decide)
  have hhi := Int.bmod_lt (x := n) (m := 18446744073709551616) (by decide)
  unfold wrap at h
  unfold InRange smallest largest
  omega

theorem IntFormat.Holds.wrap_eq_self_iff {format : IntFormat} {n : Int} (h : format.Holds n) (hf : format ≠ .u64) :
    Word.wrap n = n ↔ (format = .uword → n ≤ Word.largest) := by
  rw [Word.wrap_eq_self_iff]
  unfold Holds bounds at h
  unfold Word.InRange Word.smallest Word.largest at *
  cases format <;> simp at * <;> omega

/-- A value made of integers, truth values and lists has a literal exactly if no list in it is empty and no
integer is of the widest unsigned format. The literal is the value with each integer brought into the range
of a word, and is written so: integers in decimal, lists in braces. It is the value itself exactly if every
unsigned word in it is at most the largest word. The type says what is found along the front of the literal,
and the literal has that shape, with every leaf of the element type, exactly if the value has a shape. -/
theorem literal_of_data {v : Value} {d : Datum} (hd : v.datum? id = some d)
    (hformats : ∀ p ∈ v.ints, p.1.Holds p.2) :
    ((∃ e, v.toExpr = .ok e) ↔ (∀ p ∈ v.ints, p.1 ≠ .u64) ∧ 0 ∉ v.lengths) ∧
    ∀ e, v.toExpr = .ok e → ∃ l, v.datum? Word.wrap = some l ∧ e.datum? = some l ∧ e.text = l.text ∧
      (l = d ↔ ∀ n, (IntFormat.uword, n) ∈ v.ints → n ≤ Word.largest) ∧
      ∃ elem dims, l.Leads elem dims ∧ e.ty = some (Ty.ofShape elem dims) ∧
        (l.HasShape elem dims ↔ ∃ elem' dims', d.HasShape elem' dims') := by
  have hiff := Value.exists_toExpr_iff hd
  refine ⟨hiff, fun e he => ?_⟩
  obtain ⟨hnone, -⟩ := hiff.1 ⟨e, he⟩
  obtain ⟨l, hl, hsame⟩ := Value.exists_datum? Word.wrap hd
  have hwritten := Value.writtenAs_toExpr hl he
  obtain ⟨elem, dims, hlead, -, hty⟩ := hwritten.front
  refine ⟨l, hl, hwritten.datum, hwritten.text, hsame.trans ⟨fun h n hn => ?_, fun h p hp => ?_⟩,
    elem, dims, hlead, hty, fun h => ⟨elem, dims, Value.hasShape_of_datum? hl hd h⟩, ?_⟩
  · exact ((hformats _ hn).wrap_eq_self_iff (hnone _ hn)).1 (h _ hn) rfl
  · refine ((hformats p hp).wrap_eq_self_iff (hnone p hp)).2 fun hword => h p.2 ?_
    rwa [← hword]
  · rintro ⟨elem', dims', hshape⟩
    have hshape := Value.hasShape_of_datum? hd hl hshape
    obtain ⟨rfl, rfl⟩ := hlead.eq_of_hasShape hshape
    exact hshape

def gridValue : Value :=
  .list .intLists [.list .ints [.int .word 1, .int .word (-2), .int .word 3],
    .list .ints [.int .word 4, .int .word 5, .int .word 6]]

def gridDatum : Datum := .list [.list [.int 1, .int (-2), .int 3], .list [.int 4, .int 5, .int 6]]

theorem literal_of_data_grid :
    gridValue.datum? id = some gridDatum ∧ (∀ p ∈ gridValue.ints, p.1.Holds p.2) ∧
    ∃ e, gridValue.toExpr = .ok e ∧ e.datum? = some gridDatum ∧ e.text = gridDatum.text ∧
      e.ty = some (Ty.array (some Ty.int) [2, 3]) := by
  have hd : gridValue.datum? id = some gridDatum := rfl
  have hformats : ∀ p ∈ gridValue.ints, p.1.Holds p.2 := by decide
  obtain ⟨hiff, hliteral⟩ := literal_of_data hd hformats
  obtain ⟨e, he⟩ := hiff.2 (by decide)
  obtain ⟨l, -, hdatum, htext, hsame, -⟩ := hliteral e he
  obtain rfl : l = gridDatum := hsame.2 fun n hn => by simp [gridValue, Value.ints, Value.intsAll] at hn
  refine ⟨hd, hformats, e, he, hdatum, htext, ?_⟩
  cases he
  rfl

/-- The largest unsigned word is written as a negative number. Rows of different lengths get the type of the
first row, and elements of different types that of the first element. -/
theorem literals_differ :
    (∃ e, (Value.int .uword 18446744073709551615).toExpr = .ok e ∧ e.text = "-1".toList) ∧
    (∃ e, (Value.list .intLists [.list .ints [.int .word 1, .int .word 2], .list .ints [.int .word 3]]).toExpr =
        .ok e ∧ e.datum? = some (.list [.list [.int 1, .int 2], .list [.int 3]]) ∧
        e.ty = some (Ty.array (some Ty.int) [2, 2])) ∧
    (∃ e, (Value.list .mixed [.int .word 1, .bool true]).toExpr = .ok e ∧
      e.datum? = some (.list [.int 1, .bool true]) ∧ e.ty = some (Ty.array (some Ty.int) [2])) ∧
    (∃ e, (Value.list .mixed [.list .ints [.int .word 1], .int .word 2]).toExpr = .ok e ∧
      e.datum? = some (.list [.list [.int 1], .int 2]) ∧ e.ty = some (Ty.array (some Ty.int) [2, 1])) :=
  ⟨⟨_, rfl, by decide +kernel⟩, ⟨_, rfl, rfl, rfl⟩, ⟨_, rfl, rfl, rfl⟩, ⟨_, rfl, rfl, rfl⟩⟩

end QasmStudio

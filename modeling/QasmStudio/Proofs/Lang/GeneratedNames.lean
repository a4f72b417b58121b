import QasmStudio.Convert.Context
import QasmStudio.Proofs.Number.Word

/-!
# Generated names

The name of a variable that a build makes is a stem for the kind of the variable, a number and two
underscores. No stem has a digit or a sign in it, so the number can be told from the name, whatever the kind
is (`generatedName_inj`).
-/

namespace QasmStudio

open List

variable {kind : Kind} {name stem : String}

/-- The name is one that builds generate. -/
def IsGenerated (name : String) : Prop :=
  ∃ kind stem, ∃ n : Nat, nameStem? kind = some stem ∧ name = generatedName stem n

theorem toList_generatedName (stem : String) (n : Int) :
    (generatedName stem n).toList = stem.toList ++ Word.text n ++ ['_', '_'] := by
  rw [generatedName, String.toList_append, String.toList_append, Word.render, String.toList_ofList]
  rfl

theorem mem_of_nameStem (h : nameStem? kind = some stem) :
    stem ∈ ["__array_", "__bit_", "__bool_", "__float_", "__int_"] := by
  cases kind with
  | array | bit | bool | float | int =>
    cases h
    decide
  | _ => cases h

theorem IsGenerated.toList_eq (h : IsGenerated name) :
    ∃ stem ∈ ["__array_", "__bit_", "__bool_", "__float_", "__int_"],
      ∃ n : Nat, name.toList = stem.toList ++ Word.digits n ++ ['_', '_'] := by
  obtain ⟨kind, stem, n, hstem, rfl⟩ := h
  exact ⟨stem, mem_of_nameStem hstem, n, toList_generatedName stem n⟩

theorem IsGenerated.start (h : IsGenerated name) :
    ∃ c ∈ ['a', 'b', 'f', 'i'], name.toList.take 3 = ['_', '_', c] := by
  obtain ⟨stem, hstem, n, hname⟩ := h.toList_eq
  have hstart : 3 ≤ stem.toList.length ∧ ∃ c ∈ ['a', 'b', 'f', 'i'], stem.toList.take 3 = ['_', '_', c] := by
    simp only [mem_cons, not_mem_nil, or_false] at hstem
    rcases hstem with rfl | rfl | rfl | rfl | rfl
    · exact ⟨by decide, 'a', by decide, rfl⟩
    · exact ⟨by decide, 'b', by decide, rfl⟩
    · exact ⟨by decide, 'b', by decide, rfl⟩
    · exact ⟨by decide, 'f', by decide, rfl⟩
    · exact ⟨by decide, 'i', by decide, rfl⟩
  rw [hname, append_assoc, take_append_of_le_length hstart.1]
  exact hstart.2

theorem not_isGenerated_of_take (h : name.toList.take 2 ≠ ['_', '_']) : ¬ IsGenerated name := by
  intro hname
  obtain ⟨c, -, hstart⟩ := hname.start
  refine h ?_
  rw [show 2 = min 2 3 from rfl, ← take_take, hstart]
  rfl

theorem isGenerated_generatedName {n : Int} (h : nameStem? kind = some stem) (hn : 0 ≤ n) :
    IsGenerated (generatedName stem n) :=
  ⟨kind, stem, n.toNat, h, by rw [Int.toNat_of_nonneg hn]⟩

/-- A digit, or the sign of a number. -/
def isNumeric (c : Char) : Bool := c.isDigit || c == '-'

theorem isNumeric_of_mem_text {n : Int} {c : Char} (h : c ∈ Word.text n) : isNumeric c = true := by
  have hdigits : ∀ k : Nat, c ∈ Word.digits k → isNumeric c = true := fun k hc => by
    rw [isNumeric, Word.isDigit_of_mem_digits hc, Bool.true_or]
  cases n with
  | ofNat n => exact hdigits n h
  | negSucc n =>
    rcases mem_cons.1 h with rfl | h
    · decide
    · exact hdigits _ h

theorem filter_generatedName (h : nameStem? kind = some stem) (n : Int) :
    (generatedName stem n).toList.filter isNumeric = Word.text n := by
  have hstem : stem.toList.filter isNumeric = [] := by
    have hmem := mem_of_nameStem h
    clear h
    revert stem
    decide
  have htext : (Word.text n).filter isNumeric = Word.text n := filter_eq_self.2 fun _ hc => isNumeric_of_mem_text hc
  have hend : ['_', '_'].filter isNumeric = [] := by decide
  rw [toList_generatedName, filter_append, filter_append, hstem, htext, hend, nil_append, append_nil]

theorem generatedName_inj {kind' : Kind} {stem' : String} {m n : Int} (h : nameStem? kind = some stem)
    (h' : nameStem? kind' = some stem') (heq : generatedName stem m = generatedName stem' n) : m = n :=
  Word.text_injective (by rw [← filter_generatedName h, ← filter_generatedName h', heq])

end QasmStudio

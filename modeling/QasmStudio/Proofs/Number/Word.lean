import Mathlib.Algebra.Group.Nat.Defs
import QasmStudio.Number.Word

/-!
# Words and their text

Arithmetic on words is that of the integers as long as the result is a word. The text of a number
consists of digits, with a sign in front of a negative one, and reads back as the number.
-/

namespace QasmStudio.Word

theorem wrap_of_inRange {n : Int} (h : InRange n) : wrap n = n := by
  unfold InRange smallest largest at h
  exact Int.bmod_eq_of_le (by omega) (by omega)

theorem add_one {n : Int} (h : 0 ≤ n ∧ n < largest) : add n 1 = n + 1 := by
  refine wrap_of_inRange ?_
  unfold InRange smallest
  omega

theorem wrap_succ (n : Nat) : wrap (n + 1 : Nat) = add (wrap n) 1 := by
  unfold add wrap
  rw [Int.bmod_add_bmod, Int.natCast_succ]

theorem wrap_inj {m n : Nat} (hm : m < 2 ^ 64) (hn : n < 2 ^ 64) (h : wrap m = wrap n) : m = n := by
  unfold wrap at h
  have hmod := (Int.bmod_eq_bmod_iff_bmod_sub_eq_zero ..).1 h
  have hdvd := Int.dvd_of_bmod_eq_zero hmod
  omega

theorem digits_ne_nil (n : Nat) : digits n ≠ [] := Nat.toDigits_ne_nil

theorem isDigit_of_mem_digits {n : Nat} {c : Char} (h : c ∈ digits n) : c.isDigit = true :=
  Nat.isDigit_of_mem_toDigits (by decide) (by decide) h

theorem ofDigits_digits (n : Nat) : ofDigits (digits n) = n := Nat.ofDigitChars_toDigits (by decide) (by decide)

theorem digits_injective : Function.Injective digits := fun m n h => by
  rw [← ofDigits_digits m, h, ofDigits_digits]

theorem text_injective : Function.Injective text := by
  have hsign : ∀ k l : Nat, digits k ≠ '-' :: digits l := fun k l h =>
    absurd (isDigit_of_mem_digits (h ▸ List.mem_cons_self)) (by decide)
  intro m n h
  cases m with
  | ofNat m =>
    cases n with
    | ofNat n => exact congrArg Int.ofNat (digits_injective h)
    | negSucc n => exact absurd h (hsign m (n + 1))
  | negSucc m =>
    cases n with
    | ofNat n => exact absurd h.symm (hsign n (m + 1))
    | negSucc n => exact congrArg Int.negSucc (Nat.succ.inj (digits_injective (List.cons.inj h).2))

theorem text_ne_nil (n : Int) : text n ≠ [] := by
  cases n with
  | ofNat n => exact digits_ne_nil n
  | negSucc n => exact List.cons_ne_nil _ _

theorem isDigit_getLast_text (n : Int) : ((text n).getLast (text_ne_nil n)).isDigit = true := by
  cases n with
  | ofNat n => exact isDigit_of_mem_digits (List.getLast_mem (digits_ne_nil n))
  | negSucc n =>
    show (('-' :: digits (n + 1)).getLast _).isDigit = true
    rw [List.getLast_cons (digits_ne_nil _)]
    exact isDigit_of_mem_digits (List.getLast_mem _)

end QasmStudio.Word

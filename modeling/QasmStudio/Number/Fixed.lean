import QasmStudio.Number.General

/-!
# Fixed places

A number written with a given count of digits after the point. The exact value is rounded, and a
half goes to the even neighbour.
-/

namespace QasmStudio.Number

def roundDiv (num den : Nat) : Nat :=
  let q := num / den
  let rest := 2 * (num % den)
  if rest < den ∨ (rest = den ∧ q % 2 = 0) then q else q + 1

def placePoint (places n : Nat) : List Char :=
  let ds := Word.digits n
  let ds := List.replicate (places + 1 - ds.length) '0' ++ ds
  ds.take (ds.length - places) ++ fraction (ds.drop (ds.length - places))

def Binary.fixed (b : Binary) (places : Nat) : List Char :=
  placePoint places
    (roundDiv (b.mant * Nat.pow 2 b.exp.toNat * Nat.pow 10 places) (Nat.pow 2 (-b.exp).toNat))

def fixed (places : Nat) (x : Float) : List Char :=
  match parts64 x with
  | .nan => ['N', 'a', 'N']
  | .infinite negative => (if negative then '-' else '+') :: ['I', 'n', 'f']
  | .zero negative => signed negative (placePoint places 0)
  | .finite negative value => signed negative (value.fixed places)

end QasmStudio.Number

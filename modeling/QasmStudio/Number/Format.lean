/-!
# Binary formats

A binary format keeps a fixed number of mantissa bits above a smallest unit. `Format.round` takes a
fraction to the nearest number of a format, in one step and in exact arithmetic; a tie goes to the
even mantissa. Numbers are given by their bits, which grow with the number.
-/

namespace QasmStudio.Number

/-- A format with `mantBits` stored bits of mantissa and exponent fields below `top`. -/
structure Format where
  mantBits : Nat
  bias : Nat
  top : Nat

namespace Format

def binary64 : Format := ⟨52, 1023, 2047⟩

def binary32 : Format := ⟨23, 127, 255⟩

def least (f : Format) : Int := 1 - f.bias - f.mantBits

def infinity (f : Format) : Nat := f.top * Nat.pow 2 f.mantBits

def nan (f : Format) : Nat := f.infinity + Nat.pow 2 (f.mantBits - 1)

def sign (f : Format) (negative : Bool) : Nat :=
  if negative then (f.top + 1) * Nat.pow 2 f.mantBits else 0

/-- The whole number nearest to a fraction, the even one of two. -/
def nearest (num den : Nat) : Nat :=
  let q := num / den
  let rest := 2 * (num % den)
  if rest < den || (rest = den && q % 2 = 0) then q else q + 1

/-- The exponent of the leading bit of a positive fraction. -/
def leading (num den : Nat) : Int :=
  let e : Int := num.log2 - den.log2
  if den * Nat.pow 2 e.toNat ≤ num * Nat.pow 2 (-e).toNat then e else e - 1

/-- The bits of the number nearest to a fraction; `none` when it is beyond every finite number.
A mantissa without its leading bit has the smallest unit; any other carries that bit into the
exponent field. -/
def round (f : Format) (num den : Nat) : Option Nat :=
  if num = 0 then some 0
  else
    let unit := max (leading num den - f.mantBits) f.least
    let mant := nearest (num * Nat.pow 2 (-unit).toNat) (den * Nat.pow 2 unit.toNat)
    let bits := (unit - f.least).toNat * Nat.pow 2 f.mantBits + mant
    if bits < f.infinity then some bits else none

end Format

end QasmStudio.Number

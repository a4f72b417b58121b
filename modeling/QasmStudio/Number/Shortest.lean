/-!
# Shortest decimals

A binary number `mant * 2 ^ exp` stands for every real that rounds to it. `Binary.shortest` is the
decimal with the fewest digits among those reals, and of these the nearest to the number itself;
a tie goes to the even last digit. All arithmetic is exact.
-/

namespace QasmStudio.Number

/-- The positive number `mant * 2 ^ exp`. `narrow` says that the gap to the number below is half
the gap to the number above, as it is at a power of two. -/
structure Binary where
  mant : Nat
  exp : Int
  narrow : Bool

structure Decimal where
  coeff : Nat
  exp : Int
  deriving DecidableEq, Repr, Inhabited

namespace Binary

/-- `x * 2 ^ (exp - 2) / 10 ^ j` as a fraction: the factor of the numerator and the denominator.
In these units a number is `4 * mant`, and its neighbours are reached in whole steps. -/
def scale (b : Binary) (j : Int) : Nat × Nat :=
  (Nat.pow 2 (b.exp - 2).toNat * Nat.pow 10 (-j).toNat,
    Nat.pow 2 (2 - b.exp).toNat * Nat.pow 10 j.toNat)

/-- Does the grid point `c * 10 ^ j` round to the number? The ends of the interval belong to it
when the mantissa is even. -/
def rounds (b : Binary) (j : Int) (c : Nat) : Bool :=
  let (up, down) := b.scale j
  let low := (4 * b.mant - if b.narrow then 1 else 2) * up
  let high := (4 * b.mant + 2) * up
  let x := c * down
  if b.mant % 2 = 0 then low ≤ x && x ≤ high else low < x && x < high

/-- The grid point below or at the number, and whether it is the nearer one of the two around it. -/
def below (b : Binary) (j : Int) : Nat × Bool :=
  let (up, down) := b.scale j
  let num := 4 * b.mant * up
  let c := num / down
  let rest := 2 * (num % down)
  (c, rest < down || (rest = down && c % 2 = 0))

/-- The point of the grid `10 ^ j` that rounds to the number, the nearer one if there are two. -/
def onGrid? (b : Binary) (j : Int) : Option Nat :=
  let (c, nearer) := b.below j
  match b.rounds j c, b.rounds j (c + 1) with
  | true, true => some (if nearer then c else c + 1)
  | true, false => some c
  | false, true => some (c + 1)
  | false, false => none

/-- The exponent of the first decimal digit. Scaling by `10 ^ 400` makes every number of interest
an integer with at least one digit. -/
def magnitude (b : Binary) : Int :=
  let n := b.mant * Nat.pow 2 b.exp.toNat * Nat.pow 10 400 / Nat.pow 2 (-b.exp).toNat
  (Nat.toDigits 10 n).length - 401

/-- Tries the grids with one digit more at a time. -/
def search (b : Binary) (e : Int) : Nat → Nat → Decimal
  | n, 0 => ⟨(b.below (e - n)).1, e - n⟩
  | n, fuel + 1 =>
    match b.onGrid? (e - n) with
    | some c => ⟨c, e - n⟩
    | none => search b e (n + 1) fuel

end Binary

def Decimal.strip (d : Decimal) : Nat → Decimal
  | 0 => d
  | fuel + 1 => if d.coeff % 10 = 0 then strip ⟨d.coeff / 10, d.exp + 1⟩ fuel else d

/-- The shortest decimal that rounds to the number. Seventeen digits always suffice for a
53-bit mantissa. -/
def Binary.shortest (b : Binary) : Decimal :=
  (b.search b.magnitude 0 17).strip 18

inductive Parts where
  | nan
  | infinite (negative : Bool)
  | zero (negative : Bool)
  | finite (negative : Bool) (value : Binary)

/-- Splits the bits of a binary format with `p` stored mantissa bits, the given bias and the
largest exponent field `top`. -/
def Parts.ofFields (negative : Bool) (p : Nat) (bias top field frac : Nat) : Parts :=
  if field = top then
    if frac = 0 then .infinite negative else .nan
  else if field = 0 then
    if frac = 0 then .zero negative else .finite negative ⟨frac, 1 - bias - p, false⟩
  else
    .finite negative ⟨Nat.pow 2 p + frac, (field : Int) - bias - p, frac = 0 && 1 < field⟩

def parts64 (x : Float) : Parts :=
  let n := x.toBits.toNat
  let (high, frac) := (n / 4503599627370496, n % 4503599627370496)
  .ofFields (2048 ≤ high) 52 1023 2047 (high % 2048) frac

def parts32 (x : Float32) : Parts :=
  let n := x.toBits.toNat
  let (high, frac) := (n / 8388608, n % 8388608)
  .ofFields (256 ≤ high) 23 127 255 (high % 256) frac

end QasmStudio.Number

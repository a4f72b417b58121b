import QasmStudio.Number.Shortest
import QasmStudio.Number.Word

/-!
# The general number format

A floating-point number is written with its shortest digits: positionally while the exponent of
the first digit lies in `Layout.positional`, and with an exponent of at least two digits
otherwise.
-/

namespace QasmStudio.Number

/-- Where positional notation starts and ends, by the exponent of the first digit. -/
structure Layout where
  least : Int
  most : Int

/-- Numbers from 0.0001 up to below a million are written positionally. -/
def Layout.general : Layout := ⟨-4, 5⟩

def fraction (ds : List Char) : List Char := if ds = [] then [] else '.' :: ds

/-- A two-digit field, widened as needed. -/
def exponentDigits (n : Nat) : List Char :=
  if n < 10 then '0' :: Word.digits n else Word.digits n

def scientific (ds : List Char) (e : Int) : List Char :=
  ds.take 1 ++ fraction (ds.drop 1) ++ 'e' :: (if e < 0 then '-' else '+') ::
    exponentDigits e.natAbs

def positional (ds : List Char) (e : Int) : List Char :=
  if e < 0 then '0' :: '.' :: (List.replicate (-e - 1).toNat '0' ++ ds)
  else
    let whole := e.toNat + 1
    ds.take whole ++ List.replicate (whole - ds.length) '0' ++ fraction (ds.drop whole)

def Layout.decimal (l : Layout) (d : Decimal) : List Char :=
  let ds := Word.digits d.coeff
  let e := d.exp + ds.length - 1
  if e < l.least ∨ l.most < e then scientific ds e else positional ds e

def signed (negative : Bool) (cs : List Char) : List Char := if negative then '-' :: cs else cs

def Layout.parts (l : Layout) : Parts → List Char
  | .nan => ['N', 'a', 'N']
  | .infinite negative => (if negative then '-' else '+') :: ['I', 'n', 'f']
  | .zero negative => signed negative ['0']
  | .finite negative value => signed negative (l.decimal value.shortest)

def general (x : Float) : List Char := Layout.general.parts (parts64 x)

/-- The general format of a 32-bit number, with as few digits as that precision needs. -/
def general32 (x : Float32) : List Char := Layout.general.parts (parts32 x)

end QasmStudio.Number

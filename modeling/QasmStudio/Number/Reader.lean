import QasmStudio.Number.Format
import QasmStudio.Number.Word

/-!
# Reading floating-point numbers

A number is decimal with an optional exponent after `e`, or hexadecimal after `0x` with a binary
exponent after `p`; the words for infinity and not-a-number are accepted in any case. The value is
rounded once, to the nearest number of a format. Underscores may separate the digits of a
hexadecimal number.
-/

namespace QasmStudio.Number

inductive Reading where
  | malformed
  /-- Well formed, but beyond the largest finite number. -/
  | overflow (negative : Bool)
  | value (bits : Nat)

def lowerAscii (c : Char) : Char := if 'A' ≤ c ∧ c ≤ 'Z' then Char.ofNat (c.toNat + 32) else c

def isHexDigit (c : Char) : Bool := c.isDigit || ('a' ≤ lowerAscii c && lowerAscii c ≤ 'f')

def hexValue (c : Char) : Nat :=
  if c.isDigit then c.toNat - '0'.toNat else (lowerAscii c).toNat - 'a'.toNat + 10

def digitsValue (base : Nat) : Nat → List Char → Nat
  | acc, [] => acc
  | acc, c :: cs => digitsValue base (if c = '_' then acc else acc * base + hexValue c) cs

/-- The longest run of digits and underscores, and the rest. -/
def takeDigits (hex : Bool) (cs : List Char) : List Char × List Char :=
  cs.span fun c => c = '_' || (if hex then isHexDigit c else c.isDigit)

/-- What stood before the current character, as far as underscores care. -/
inductive Before where
  | start
  | digit
  | underscore
  | other
  deriving DecidableEq

/-- Every underscore stands between two digits; the base counts as a digit. -/
def underscoresOk : Before → List Char → Bool
  | prev, [] => prev ≠ .underscore
  | prev, c :: cs =>
    if isHexDigit c then underscoresOk .digit cs
    else if c = '_' then prev = .digit && underscoresOk .underscore cs
    else prev ≠ .underscore && underscoresOk .other cs

/-- Exponents stop growing once they are out of every range. -/
def exponentValue : Nat → List Char → Nat
  | acc, [] => acc
  | acc, c :: cs =>
    exponentValue (if c = '_' || 10000 ≤ acc then acc else acc * 10 + hexValue c) cs

/-- The exponent part after its letter: a sign, a digit, more digits, and nothing else. -/
def exponent? (cs : List Char) : Option Int :=
  let (negative, cs) := match cs with
    | '+' :: cs => (false, cs)
    | '-' :: cs => (true, cs)
    | cs => (false, cs)
  let (ds, rest) := takeDigits false cs
  if rest ≠ [] ∨ ¬ (ds.headD '_').isDigit then none
  else
    let n := exponentValue 0 ds
    some (if negative then -(n : Int) else n)

def bitLength (n : Nat) : Nat := if n = 0 then 0 else n.log2 + 1

/-- The bits of `m * 10 ^ e`, rounded; `none` when it is beyond every finite number. -/
def ofDecimal (f : Format) (m : Nat) (e : Int) : Option Nat :=
  let magnitude := (Word.digits m).length + e
  if magnitude < -400 then some 0
  else if m ≠ 0 ∧ 400 < magnitude then none
  else f.round (m * Nat.pow 10 e.toNat) (Nat.pow 10 (-e).toNat)

/-- The bits of `m * 2 ^ e`, rounded; `none` when it is beyond every finite number. -/
def ofBinary (f : Format) (m : Nat) (e : Int) : Option Nat :=
  let magnitude := bitLength m + e
  if magnitude < -2000 then some 0
  else if m ≠ 0 ∧ 2000 < magnitude then none
  else f.round (m * Nat.pow 2 e.toNat) (Nat.pow 2 (-e).toNat)

/-- The parts of an unsigned numeral: its digits before and after the point, and its exponent. -/
structure Numeral where
  whole : List Char
  frac : List Char
  exponent : Int

/-- Splits a numeral. A hexadecimal one must have an exponent. -/
def numeral? (hex : Bool) (cs : List Char) : Option Numeral :=
  let (whole, rest) := takeDigits hex cs
  let (frac, rest) := match rest with
    | '.' :: rest => takeDigits hex rest
    | rest => ([], rest)
  if (whole ++ frac).all (· = '_') then none
  else match rest with
    | [] => if hex then none else some ⟨whole, frac, 0⟩
    | c :: rest =>
      if lowerAscii c = (if hex then 'p' else 'e') then (exponent? rest).map (⟨whole, frac, ·⟩)
      else none

def Numeral.value (f : Format) (hex : Bool) (n : Numeral) : Option Nat :=
  let places : Int := (n.frac.filter (· ≠ '_')).length
  if hex then ofBinary f (digitsValue 16 0 (n.whole ++ n.frac)) (n.exponent - 4 * places)
  else ofDecimal f (digitsValue 10 0 (n.whole ++ n.frac)) (n.exponent - places)

/-- An unsigned numeral with the base it announces. -/
def readUnsigned (f : Format) (negative : Bool) (cs : List Char) : Reading :=
  let (hex, body) := match cs with
    | '0' :: x :: c :: rest => if lowerAscii x = 'x' then (true, c :: rest) else (false, cs)
    | _ => (false, cs)
  if body.contains '_' && !(hex && underscoresOk .digit body) then .malformed
  else match numeral? hex body with
    | none => .malformed
    | some n => match n.value f hex with
      | none => .overflow negative
      | some bits => .value (f.sign negative + bits)

def isInfinityWord (cs : List Char) : Bool :=
  let w := cs.map lowerAscii
  w = ['i', 'n', 'f'] || w = ['i', 'n', 'f', 'i', 'n', 'i', 't', 'y']

def readSigned (f : Format) (negative : Bool) (cs : List Char) : Reading :=
  if isInfinityWord cs then .value (f.sign negative + f.infinity) else readUnsigned f negative cs

/-- Reads a whole text as a number. Infinity may carry a sign, not-a-number may not. -/
def read (f : Format) (cs : List Char) : Reading :=
  match cs with
  | '+' :: rest => readSigned f false rest
  | '-' :: rest => readSigned f true rest
  | cs => if cs.map lowerAscii = ['n', 'a', 'n'] then .value f.nan else readSigned f false cs

def read? (cs : List Char) : Option Float :=
  match read .binary64 cs with
  | .value bits => some (Float.ofBits bits.toUInt64)
  | _ => none

/-- The bits nearest to what a text stands for: zero for a malformed one, and infinity out of
range. -/
def nearestBits (f : Format) (cs : List Char) : Nat :=
  match read f cs with
  | .malformed => 0
  | .overflow negative => f.sign negative + f.infinity
  | .value bits => bits

def nearest64 (cs : List Char) : Float := Float.ofBits (nearestBits .binary64 cs).toUInt64

def nearest32 (cs : List Char) : Float32 := Float32.ofBits (nearestBits .binary32 cs).toUInt32

end QasmStudio.Number

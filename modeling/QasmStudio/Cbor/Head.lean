/-!
# Heads of CBOR items

Every item starts with a head: a major type and an argument, which is a number or says that the
length is left open. Numbers are written with the shortest head that holds them; any is read.
-/

namespace QasmStudio.Cbor

abbrev Bytes := List UInt8

inductive Major where
  | unsigned
  | negative
  | bytes
  | text
  | array
  | map
  | tag
  | simple
  deriving DecidableEq, Repr, Inhabited

namespace Major

def code : Major → Nat
  | unsigned => 0
  | negative => 1
  | bytes => 2
  | text => 3
  | array => 4
  | map => 5
  | tag => 6
  | simple => 7

def ofCode : Nat → Major
  | 0 => unsigned
  | 1 => negative
  | 2 => bytes
  | 3 => text
  | 4 => array
  | 5 => map
  | 6 => tag
  | _ => simple

def mayBeOpen : Major → Bool
  | bytes | text | array | map => true
  | _ => false

end Major

inductive Argument where
  /-- A number; `info` is the form it was written in. -/
  | number (info n : Nat)
  /-- The length is left open; a break ends the item. -/
  | opened
  deriving DecidableEq, Repr

def bigEndian (count n : Nat) : Bytes :=
  match count with
  | 0 => []
  | count + 1 => UInt8.ofNat (n / Nat.pow 256 count) :: bigEndian count (n % Nat.pow 256 count)

/-- The number that bytes stand for, read from the left after `acc`. -/
def ofBytes (acc : Nat) : Bytes → Nat
  | [] => acc
  | b :: bs => ofBytes (acc * 256 + b.toNat) bs

def initialByte (major : Major) (info : Nat) : UInt8 := UInt8.ofNat (major.code * 32 + info)

/-- The shortest head for a number below `2 ^ 64`. -/
def writeHead (major : Major) (n : Nat) : Bytes :=
  if n < 24 then [initialByte major n]
  else if n < 256 then initialByte major 24 :: bigEndian 1 n
  else if n < 65536 then initialByte major 25 :: bigEndian 2 n
  else if n < 4294967296 then initialByte major 26 :: bigEndian 4 n
  else initialByte major 27 :: bigEndian 8 n

def take? (n : Nat) (bs : Bytes) : Option (Bytes × Bytes) :=
  let front := bs.take n
  if front.length = n then some (front, bs.drop n) else none

def readNumber (info count : Nat) (bs : Bytes) : Option (Argument × Bytes) := do
  let (digits, rest) ← take? count bs
  return (.number info (ofBytes 0 digits), rest)

def readArgument (major : Major) (info : Nat) (bs : Bytes) : Option (Argument × Bytes) :=
  if info < 24 then some (.number info info, bs)
  else match info with
    | 24 => do
      let (arg, rest) ← readNumber 24 1 bs
      -- the first simple values have the one-byte form only
      match major, arg with
      | .simple, .number _ n => if n < 32 then none else some (arg, rest)
      | _, _ => some (arg, rest)
    | 25 => readNumber 25 2 bs
    | 26 => readNumber 26 4 bs
    | 27 => readNumber 27 8 bs
    | 31 => if major.mayBeOpen then some (.opened, bs) else none
    | _ => none

def readHead (bs : Bytes) : Option (Major × Argument × Bytes) :=
  match bs with
  | [] => none
  | b :: rest => do
    let major := Major.ofCode (b.toNat / 32)
    let (arg, rest) ← readArgument major (b.toNat % 32) rest
    return (major, arg, rest)

def breakByte : UInt8 := 255

end QasmStudio.Cbor

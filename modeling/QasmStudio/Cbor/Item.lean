import QasmStudio.Cbor.Head

/-!
# CBOR items

`Item.read` reads one well-formed item. Arrays and maps nest up to `maxLevels` deep and hold up to
`maxEntries` entries.
-/

namespace QasmStudio.Cbor

inductive Item where
  | unsigned (n : Nat)
  /-- Stands for `-1 - n`. -/
  | negative (n : Nat)
  | bytes (bs : Bytes)
  /-- Text, as the bytes of its chunks. -/
  | text (chunks : List Bytes)
  | array (items : List Item)
  | map (entries : List (Item × Item))
  | tag (n : Nat) (x : Item)
  | bool (b : Bool)
  | null
  /-- A simple value with no meaning of its own. -/
  | simple (n : Nat)
  /-- A floating-point number, by its bits. -/
  | float (bits : Nat)
  deriving Inhabited

def maxLevels : Nat := 32

def maxEntries : Nat := 131072

abbrev Read (α : Type) := Bytes → Option (α × Bytes)

def readMany {α : Type} (read : Read α) : Nat → Read (List α)
  | 0, bs => some ([], bs)
  | n + 1, bs => do
    let (x, bs) ← read bs
    let (xs, bs) ← readMany read n bs
    return (x :: xs, bs)

/-- Reads values up to a break, at most `fuel` of them. -/
def readOpen {α : Type} (read : Read α) : Nat → Read (List α)
  | 0, _ => none
  | fuel + 1, bs =>
    match bs with
    | [] => none
    | b :: rest =>
      if b = breakByte then some ([], rest)
      else do
        let (x, bs) ← read bs
        let (xs, bs) ← readOpen read fuel bs
        return (x :: xs, bs)

def readPair {α : Type} (read : Read α) : Read (α × α) := fun bs => do
  let (x, bs) ← read bs
  let (y, bs) ← read bs
  return ((x, y), bs)

def readEntries {α : Type} (read : Read α) (arg : Argument) : Read (List α) := fun bs =>
  match arg with
  | .number _ n => if maxEntries < n then none else readMany read n bs
  | .opened => do
    let (xs, bs) ← readOpen read bs.length bs
    if maxEntries < xs.length then none else some (xs, bs)

def readChunk (major : Major) : Read Bytes := fun bs => do
  match ← readHead bs with
  | (m, .number _ n, rest) => if m = major then take? n rest else none
  | (_, .opened, _) => none

/-- Reads the chunks of a string: one, or as many as there are before a break. -/
def readChunks (major : Major) (arg : Argument) : Read (List Bytes) := fun bs =>
  match arg with
  | .number _ n => do
    let (chunk, bs) ← take? n bs
    return ([chunk], bs)
  | .opened => readOpen (readChunk major) bs.length bs

def simpleItem (info n : Nat) : Item :=
  match info with
  | 20 => .bool false
  | 21 => .bool true
  | 22 | 23 => .null
  | 25 | 26 | 27 => .float n
  | _ => .simple n

def readContent (inner : Option (Read Item)) (major : Major) (arg : Argument) : Read Item :=
  fun bs =>
  match major, arg with
  | .unsigned, .number _ n => some (.unsigned n, bs)
  | .negative, .number _ n => some (.negative n, bs)
  | .simple, .number info n => some (simpleItem info n, bs)
  | .bytes, arg => do
    let (chunks, bs) ← readChunks .bytes arg bs
    return (.bytes chunks.flatten, bs)
  | .text, arg => do
    let (chunks, bs) ← readChunks .text arg bs
    return (.text chunks, bs)
  | .array, arg => do
    let (items, bs) ← readEntries (← inner) arg bs
    return (.array items, bs)
  | .map, arg => do
    let (entries, bs) ← readEntries (readPair (← inner)) arg bs
    return (.map entries, bs)
  | _, _ => none

/-- Reads an item, tagged or not; `inner` reads the items one level deeper. The first tag of an
item takes no level. -/
def readItem (inner : Option (Read Item)) : Read Item := fun bs => do
  let (major, arg, rest) ← readHead bs
  match major, arg with
  | .tag, .number _ n => do
    let (major, arg, rest') ← readHead rest
    let (x, rest) ← if major = .tag then (← inner) rest else readContent inner major arg rest'
    return (.tag n x, rest)
  | _, _ => readContent inner major arg rest

/-- Reads an item in which arrays and maps nest at most `levels` deep. -/
def Item.readWithin : Nat → Read Item
  | 0, bs => readItem none bs
  | levels + 1, bs => readItem (some (readWithin levels)) bs

def Item.read? (bs : Bytes) : Option Item :=
  match Item.readWithin maxLevels bs with
  | some (x, []) => some x
  | _ => none

end QasmStudio.Cbor

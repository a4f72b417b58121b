import QasmStudio.Cbor.Item
import QasmStudio.Number.Word
import QasmStudio.Record

/-!
# Records in CBOR

A record is a map from the numbers of its fields to their values. Of several records an array is made.
-/

namespace QasmStudio.Cbor

open Record (Value)

/-! ### Writing -/

def utf8 (s : String) : Bytes := s.toUTF8.data.toList

def writeText (s : String) : Bytes :=
  let bs := utf8 s
  writeHead .text bs.length ++ bs

/-- Values one after another, with their number in front. -/
def writeSequence {α : Type} (major : Major) (write : α → Bytes) (xs : List α) : Bytes :=
  writeHead major xs.length ++ xs.flatMap write

def writeValue : Value → Bytes
  | .text s => writeText s
  | .int (.ofNat n) => writeHead .unsigned n
  | .int (.negSucc n) => writeHead .negative n
  | .bool b => [initialByte .simple (if b then 21 else 20)]
  | .texts ss => writeSequence .array writeText ss

def writeEntry (e : Nat × Value) : Bytes := writeHead .unsigned e.1 ++ writeValue e.2

def writeRecord (r : Record) : Bytes := writeSequence .map writeEntry r.entries

/-! ### Reading -/

def textOf? (chunks : List Bytes) : Option String := do
  let parts ← chunks.mapM fun bs => String.fromUTF8? ⟨bs.toArray⟩
  return String.join parts

/-- What an item says once its tags are taken off. A tag for a date or a large number must fit its
content; a large number in bytes is read as an integer. -/
def untag? : Item → Option Item
  | .tag 0 x => match x with
    | .text _ => some x
    | _ => none
  | .tag 1 x => match x with
    | .unsigned _ | .negative _ | .float _ => some x
    | _ => none
  | .tag 2 x => match x with
    | .bytes bs => some (.unsigned (ofBytes 0 bs))
    | _ => none
  | .tag 3 x => match x with
    | .bytes bs => some (.negative (ofBytes 0 bs))
    | _ => none
  | .tag _ x => untag? x
  | x => some x

def readText? (x : Item) : Option String := do
  match ← untag? x with
  | .text chunks => textOf? chunks
  | .null => some ""
  | _ => none

def readInt? (x : Item) : Option Int := do
  let n ← match ← untag? x with
    | .unsigned n => some (n : Int)
    | .negative n => some (-1 - (n : Int))
    | .simple n => some (n : Int)
    | .null => some 0
    | _ => none
  if Word.InRange n then some n else none

def readBool? (x : Item) : Option Bool := do
  match ← untag? x with
  | .bool b => some b
  | .null => some false
  | _ => none

def readTexts? (x : Item) : Option (List String) := do
  match ← untag? x with
  | .array xs => xs.mapM readText?
  | .null => some []
  | _ => none

/-- Reads a value of the same kind as another. -/
def readLike? (x : Item) : Value → Option Value
  | .text _ => .text <$> readText? x
  | .int _ => .int <$> readInt? x
  | .bool _ => .bool <$> readBool? x
  | .texts _ => .texts <$> readTexts? x

/-- The number of the field that a text names, in decimal. Zero stands for none. -/
def keyNamed (r : Record) (s : String) : Int :=
  ((r.map fun f => (f.key : Int)).find? fun n => s = Word.render n).getD 0

/-- The number of a field: keys are integers or texts, and nothing else is a key. A positive one
wraps around, a negative one must be in range. -/
def key? (r : Record) : Item → Option Int
  | .unsigned n => some (Word.wrap n)
  | .negative n => if Word.InRange n then some (-1 - (n : Int)) else none
  | .text chunks => keyNamed r <$> textOf? chunks
  | _ => none

/-- Sets a field. Unknown numbers are passed over. -/
def setField (r : Record) (key : Int) (x : Item) : Option Record :=
  r.mapM fun f =>
    if (f.key : Int) = key then (fun v => { f with value := v }) <$> readLike? x f.value else some f

/-- Sets the fields of a map in order. Of several entries for one field the first counts. -/
def setFields (r : Record) (seen : List Int) : List (Item × Item) → Option Record
  | [] => some r
  | (k, x) :: rest => do
    let key ← key? r k
    if seen.contains key then setFields r seen rest
    else setFields (← setField r key x) (key :: seen) rest

def readRecord? (r : Record) (x : Item) : Option Record := do
  match ← untag? x with
  | .map entries => setFields r [] entries
  | .null => some r
  | _ => none

/-- The records of an array; a null among them is none. -/
def readRecords? (r : Record) (x : Item) : Option (List (Option Record)) := do
  match ← untag? x with
  | .array xs => xs.mapM fun
    | .null => some none
    | x => some <$> readRecord? r x
  | .null => some []
  | _ => none

def codec : Codec where
  marshal := writeRecord
  marshalAll := writeSequence .array writeRecord
  unmarshal? r bs := do readRecord? r (← Item.read? bs)
  unmarshalAll? r bs := do readRecords? r (← Item.read? bs)

end QasmStudio.Cbor

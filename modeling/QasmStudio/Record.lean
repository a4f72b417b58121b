/-!
# Records

A record as a codec sees it: its fields in order, each with the number it goes by. A field may be left
out where it has the value it would have anyway.
-/

namespace QasmStudio

namespace Record

inductive Value where
  | text (s : String)
  | int (n : Int)
  | bool (b : Bool)
  | texts (ss : List String)
  deriving DecidableEq, Repr

/-- The value that a field of the same kind starts with. -/
def Value.blank : Value → Value
  | text _ => text ""
  | int _ => int 0
  | bool _ => bool false
  | texts _ => texts []

structure Field where
  key : Nat
  omitBlank : Bool
  value : Value
  deriving DecidableEq, Repr

def Field.isOmitted (f : Field) : Bool := f.omitBlank && f.value = f.value.blank

end Record

abbrev Record := List Record.Field

/-- The fields that are not left out, by their numbers. -/
def Record.entries (r : Record) : List (Nat × Record.Value) :=
  (r.filter fun f => !f.isOmitted).map fun f => (f.key, f.value)

/-- Writes records as bytes and reads them back. A record is read into one with blank fields; among
several there may be some that are missing. -/
structure Codec where
  marshal : Record → List UInt8
  marshalAll : List Record → List UInt8
  unmarshal? : Record → List UInt8 → Option Record
  unmarshalAll? : Record → List UInt8 → Option (List (Option Record))

end QasmStudio

import QasmStudio.Record
import QasmStudio.Value

/-!
# Artifacts

The serialized form of a built program: a record whose empty fields are left out, except the
identifier, the source and the number of qubits. How records are written is for a codec to say.
-/

namespace QasmStudio

structure Artifact where
  buildId : String := ""
  name : String := ""
  source : String := ""
  numQubits : Int := 0
  pulse : Bool := false
  subroutines : List String := []
  gates : List String := []
  deriving DecidableEq, Repr, Inhabited

namespace Artifact

def ofProgram (p : BuiltProgram) (name : String) : Artifact :=
  ⟨p.buildId, name, p.render, p.numQubits, p.pulse, p.subroutineNames, p.gateNames⟩

def record (a : Artifact) : Record :=
  [⟨1, false, .text a.buildId⟩,
   ⟨2, true, .text a.name⟩,
   ⟨3, false, .text a.source⟩,
   ⟨4, false, .int a.numQubits⟩,
   ⟨5, true, .bool a.pulse⟩,
   ⟨6, true, .texts a.subroutines⟩,
   ⟨7, true, .texts a.gates⟩]

def ofRecord? (r : Record) : Option Artifact :=
  match r.map Record.Field.value with
  | [.text buildId, .text name, .text source, .int numQubits, .bool pulse, .texts subroutines,
      .texts gates] =>
    some ⟨buildId, name, source, numQubits, pulse, subroutines, gates⟩
  | _ => none

variable (codec : Codec)

def encode (a : Artifact) : List UInt8 := codec.marshal a.record

def encodeList (as : List Artifact) : List UInt8 := codec.marshalAll (as.map record)

/-- The report on bytes that are no artifact, or no list of artifacts. -/
def unreadable (many : Bool) : String :=
  "autoqasm: unmarshal " ++ if many then "artifacts" else "artifact"

def decode? (bs : List UInt8) : Option Artifact := do
  ofRecord? (← codec.unmarshal? ({} : Artifact).record bs)

/-- The artifacts of a list; one that is missing stays so. -/
def decodeList? (bs : List UInt8) : Option (List (Option Artifact)) := do
  (← codec.unmarshalAll? ({} : Artifact).record bs).mapM fun
    | none => some none
    | some r => some <$> ofRecord? r

end Artifact

end QasmStudio

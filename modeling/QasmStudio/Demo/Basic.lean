import QasmStudio.Artifact
import QasmStudio.Cbor.Record
import QasmStudio.Circuit.Reader
import QasmStudio.Convert.Run
import QasmStudio.FileTree

/-!
# Demo programs

A demo is a main routine with the routines it calls. Building one gives its source and its circuit;
a demo that fails to build keeps its error. What the configuration sets goes before what the demo
asks for.
-/

namespace QasmStudio

structure Demo where
  name : String
  description : String
  library : Library
  main : String
  calibrations : List Convert.CalibrationSpec := []

inductive BuildFailure where
  | build (name : String) (e : Error)
  | noPrograms

def BuildFailure.message : BuildFailure → String
  | build name e => name ++ ": " ++ e.message
  | noPrograms => "no programs"

namespace Demo

def settings (c : BuildConfig) : List Setting :=
  (if 0 < c.numQubits then [.numQubits c.numQubits] else []) ++
  (if c.device.name = "" then [] else [.device c.device])

def calibrate (lib : Library) : List Convert.CalibrationSpec → Convert (List CalibrationDef)
  | [] => return []
  | c :: cs => do
    let d ← Convert.calibrate lib c
    return d :: (← calibrate lib cs)

def convert (d : Demo) (c : BuildConfig) : Convert BuiltProgram := do
  let p ← Convert.buildRoutine d.library d.main (settings c)
  if d.calibrations.isEmpty then return p
  else return p.bind (← calibrate d.library d.calibrations)

def build (d : Demo) (c : BuildConfig) (entropy : List UInt8) :
    Except Fault (Except BuildFailure BuiltProgram) := do
  match ← Convert.outcome (Convert.start (d.convert c) entropy).1 with
  | .ok p => return .ok p
  | .error e => return .error (.build d.name e)

def find? (demos : List Demo) (name : String) : Option Demo := demos.find? (·.name = name)

def names (demos : List Demo) : String := ", ".intercalate (demos.map (·.name))

end Demo

structure Built where
  program : BuiltProgram
  source : String
  circuit : Circuit

structure BuildResult where
  name : String := ""
  description : String := ""
  outcome : Except BuildFailure Built

namespace BuildResult

def ofDemo (d : Demo) (c : BuildConfig) (entropy : List UInt8) : Except Fault BuildResult := do
  match ← d.build c entropy with
  | .error e => return ⟨d.name, d.description, .error e⟩
  | .ok p =>
    let source := p.render
    return ⟨d.name, d.description, .ok ⟨p, source, ← Circuit.read source.toList⟩⟩

def ofDemos (c : BuildConfig) (entropy : Nat → List UInt8) (demos : List Demo) :
    Except Fault (List BuildResult) :=
  demos.zipIdx.mapM fun (d, i) => ofDemo d c (entropy i)

def failed (r : BuildResult) : Bool :=
  match r.outcome with
  | .ok _ => false
  | .error _ => true

def source (r : BuildResult) : String :=
  match r.outcome with
  | .ok b => b.source
  | .error _ => ""

def failure? (r : BuildResult) : Option BuildFailure :=
  match r.outcome with
  | .ok _ => none
  | .error e => some e

def withCircuit (r : BuildResult) (c : Circuit) : BuildResult :=
  { r with outcome := r.outcome.map fun b => { b with circuit := c } }

def qubitsText (n : Int) : String :=
  if n = 0 then "physical qubits only"
  else if n = 1 then "1 qubit"
  else Word.render n ++ " qubits"

def summary (r : BuildResult) : List String :=
  match r.outcome with
  | .error _ => ["build failed"]
  | .ok b =>
    let p := b.program
    let named (what : String) (names : List String) : List String :=
      if names.isEmpty then [] else [what ++ ": " ++ ", ".intercalate names]
    [qubitsText p.numQubits] ++ named "subroutines" p.subroutineNames ++
      named "gates" p.gateNames ++ (if p.pulse then ["pulse calibrations"] else [])

end BuildResult

inductive Format where
  | qasm
  | cbor
  deriving DecidableEq, Repr, Inhabited

def Format.named? : String → Option Format
  | "qasm" | "" => some .qasm
  | "cbor" => some .cbor
  | _ => none

namespace BuildResult

/-- The sources one after another; with several, each has its name above it. -/
def sources (rs : List BuildResult) : String :=
  match rs with
  | [r] => r.source
  | rs => "\n".intercalate (rs.map fun r => "// " ++ r.name ++ "\n" ++ r.source)

def artifacts (rs : List BuildResult) : List Artifact :=
  rs.filterMap fun r => match r.outcome with
    | .ok b => some (Artifact.ofProgram b.program r.name)
    | .error _ => none

def artifactBytes (as : List Artifact) : List UInt8 :=
  match as with
  | [a] => a.encode Cbor.codec
  | as => Artifact.encodeList Cbor.codec as

def write (f : Format) (rs : List BuildResult) : Content :=
  match f with
  | .qasm => .text (sources rs)
  | .cbor => .bytes (artifactBytes (artifacts rs))

end BuildResult

def unknownFormat (name : String) : String := "unknown output format " ++ Text.quote name

end QasmStudio

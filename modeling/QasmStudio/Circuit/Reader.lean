import QasmStudio.Circuit.Schedule
import QasmStudio.Fault
import QasmStudio.Lang.Register
import QasmStudio.Number.Word
import QasmStudio.Text.Split

/-!
# Reading circuits

`Circuit.read` takes a circuit from the source of a program, line by line. Definitions and the
bodies of control flow are left out; control flow and subroutine calls are noted. Any text can be
read: lines that mean nothing here have no effect.
-/

namespace QasmStudio

namespace Text

def isWord (c : Char) : Bool := c.isAlphanum || c = '_'

end Text

/-- A non-empty run of decimal digits with `close` after it, and what follows. -/
def digitsUntil? (close : Char) (cs : List Char) : Option (Nat × List Char) :=
  match cs.span Char.isDigit with
  | ([], _) => none
  | (ds, c :: rest) => if c = close then some ((Word.readClamped ds).toNat, rest) else none
  | (_, []) => none

/-- A fixed qubit: an index of the register, or a physical qubit. -/
inductive Wire where
  | register (index : Nat)
  | physical (index : Nat)
  deriving DecidableEq, Repr

namespace Wire

def index : Wire → Nat
  | register i => i
  | physical i => i

def isPhysical : Wire → Bool
  | register _ => false
  | physical _ => true

def read? (cs : List Char) : Option Wire :=
  match cs with
  | '$' :: ds =>
    if ds ≠ [] ∧ ds.all Char.isDigit then some (.physical (Word.readClamped ds).toNat) else none
  | cs => do
    let rest ← Text.after? registerName cs
    match rest with
    | '[' :: rest =>
      let (i, rest) ← digitsUntil? ']' rest
      if rest = [] then some (.register i) else none
    | _ => none

end Wire

/-- A list of operands as far as it could be read. -/
structure Operands where
  qubits : Option (List Nat)
  /-- Was there a physical qubit before the first operand that is no fixed qubit? -/
  physical : Bool

namespace Operands

def ofParts : List (List Char) → Operands
  | [] => ⟨some [], false⟩
  | part :: parts =>
    match Wire.read? (Text.trim part) with
    | none => ⟨none, false⟩
    | some w =>
      let rest := ofParts parts
      ⟨rest.qubits.map (w.index :: ·), w.isPhysical || rest.physical⟩

def read (cs : List Char) : Operands := ofParts (Text.split ',' cs)

end Operands

inductive Statement where
  | register (size : Nat)
  | measure (operands : List Char)
  | reset (operands : List Char)
  | barrier (operands : Option (List Char))
  | gate (name params operands : List Char)
  | other

namespace Statement

def afterSpaces? (cs : List Char) : Option (List Char) :=
  match cs with
  | [] => none
  | c :: rest => if Text.isSpace c then some (rest.dropWhile Text.isSpace) else none

/-- `qubit[n] name;` with the name of the register. -/
def register? (cs : List Char) : Option Nat := do
  let rest ← Text.after? "qubit[" cs
  let (n, rest) ← digitsUntil? ']' rest
  let rest ← afterSpaces? rest
  if rest = registerName.toList ++ [';'] then some n else none

/-- A text without spaces up to the semicolon that ends the line. -/
def solid? (cs : List Char) : Option (List Char) := do
  let cs ← Text.before? ';' cs
  if cs ≠ [] ∧ !cs.any Text.isSpace then some cs else none

/-- `name = measure operands;` -/
def assignedMeasure? (cs : List Char) : Option (List Char) := do
  let (target, rest) := cs.span fun c => Text.isWord c || c = '[' || c = ']'
  if target = [] then none
  else match rest.dropWhile Text.isSpace with
    | '=' :: rest => do
      let rest ← Text.after? "measure" (rest.dropWhile Text.isSpace)
      solid? (← afterSpaces? rest)
    | _ => none

def afterBitType? (cs : List Char) : Option (List Char) := do
  match ← Text.after? "bit" cs with
  | '[' :: rest => do afterSpaces? (← digitsUntil? ']' rest).2
  | rest => afterSpaces? rest

/-- The measurement that a declaration or an assignment takes its value from. -/
def measure? (cs : List Char) : Option (List Char) :=
  (afterBitType? cs >>= assignedMeasure?) <|> assignedMeasure? cs

def reset? (cs : List Char) : Option (List Char) := do
  solid? (← afterSpaces? (← Text.after? "reset" cs))

/-- A barrier with operands, or one over all wires. -/
def barrier? (cs : List Char) : Option (Option (List Char)) := do
  let rest ← Text.after? "barrier" cs
  if rest = [';'] then some none
  else do
    let rest ← Text.before? ';' rest
    let operands ← afterSpaces? rest
    if operands = [] then none else some (some operands)

/-- The angles in parentheses after the name of a gate, if there are any, and what follows. -/
def params? (cs : List Char) : Option (List Char × List Char) :=
  match cs with
  | '(' :: rest =>
    match rest.span (· ≠ ')') with
    | (params, _ :: rest) => some (params, rest)
    | (_, []) => none
  | cs => some ([], cs)

/-- Words that start a statement that looks like a gate call and is none. -/
def keywords : List String :=
  ["measure", "reset", "barrier", "delay", "return", "break", "continue", "pragma", "bit", "bool",
   "int", "float", "angle", "array", "qubit", "duration", "const", "include", "defcalgrammar",
   "input", "output"]

/-- The operands of a gate call: they hold neither an equals sign nor a semicolon. Blank ones are
kept, as long as a space is left between them and the name. -/
def callOperands? (cs : List Char) : Option (List Char) := do
  let cs ← Text.before? ';' cs
  let operands ← afterSpaces? cs
  if operands = [] ∧ cs.length < 2 then none
  else if operands.any fun c => c = '=' || c = ';' then none
  else some operands

def gate? (cs : List Char) : Option (List Char × List Char × List Char) := do
  let (name, rest) := cs.span Text.isWord
  let first ← name.head?
  if first.isLower || first = '_' then
    let (params, rest) ← params? rest
    let operands ← callOperands? rest
    if keywords.contains (String.ofList name) then none else some (name, params, operands)
  else none

def read (cs : List Char) : Statement :=
  match register? cs with
  | some n => .register n
  | none =>
  match measure? cs with
  | some operands => .measure operands
  | none =>
  match reset? cs with
  | some operands => .reset operands
  | none =>
  match barrier? cs with
  | some operands => .barrier operands
  | none =>
  match gate? cs with
  | some (name, params, operands) => .gate name params operands
  | none => .other

end Statement

structure Sketch where
  numQubits : Nat := 0
  /-- The latest first. -/
  ops : List Op := []
  classical : Bool := false
  physical : Bool := false
  /-- The open blocks, innermost first; `true` for one whose content is left out. -/
  blocks : List Bool := []
  subroutines : List (List Char) := []

namespace Sketch

def isSkipping (s : Sketch) : Bool := s.blocks.any id

def subroutineName? (cs : List Char) : Option (List Char) := do
  let rest ← Statement.afterSpaces? (← Text.after? "def" cs)
  match rest.span Text.isWord with
  | ([], _) => none
  | (name, '(' :: _) => some name
  | _ => none

def calls (s : Sketch) (cs : List Char) : Bool :=
  s.subroutines.any fun name => Text.occurs (name ++ ['(']) cs

/-- A line that opens a block. Only the content of boxes is drawn. -/
def openBlock (s : Sketch) (cs : List Char) : Sketch :=
  let s := { s with subroutines := s.subroutines ++ (subroutineName? cs).toList }
  match String.ofList ((Text.words cs).headD []) with
  | "box" => { s with blocks := false :: s.blocks }
  | "gate" | "def" | "defcal" => { s with blocks := true :: s.blocks }
  | _ => { s with blocks := true :: s.blocks, classical := s.classical || !s.isSkipping }

def addOp (s : Sketch) (name : String) (params : List Float) (operands : Operands) : Sketch :=
  let s := { s with physical := s.physical || operands.physical }
  match operands.qubits with
  | some qubits => { s with ops := ⟨name, qubits, params⟩ :: s.ops }
  | none => s

def angles (cs : List Char) : List Float :=
  if cs = [] then [] else (Text.split ',' cs).filterMap Angle.read?

/-- A gate call. When an operand is not fixed it belongs to the classical part. -/
def addGate (s : Sketch) (name params operands : List Char) : Sketch :=
  let operands := Operands.read operands
  let s := s.addOp (String.ofList (name.map Text.upperAscii)) (angles params) operands
  if operands.qubits.isNone then { s with classical := true } else s

/-- What a statement adds where no subroutine is called. -/
def note (s : Sketch) : Statement → Sketch
  | .register n => { s with numQubits := n }
  | .measure operands => s.addOp "MEASURE" [] (Operands.read operands)
  | .reset operands => s.addOp "RESET" [] (Operands.read operands)
  | .barrier none => s.addOp "BARRIER" [] ⟨some [], false⟩
  | .barrier (some operands) => s.addOp "BARRIER" [] (Operands.read operands)
  | .gate name params operands => s.addGate name params operands
  | .other => s

/-- A call of a subroutine belongs to the classical part, except in the declaration of the register. -/
def statement (s : Sketch) (cs : List Char) : Sketch :=
  match Statement.read cs with
  | .register n => s.note (.register n)
  | st => if s.calls cs then { s with classical := true } else s.note st

def line (s : Sketch) (raw : List Char) : Sketch :=
  let cs := Text.trim raw
  if cs = [] || "//".toList.isPrefixOf cs || "#".toList.isPrefixOf cs then s
  else if cs = ['\x7d'] then { s with blocks := s.blocks.tail }
  else if cs.getLast? = some '\x7b' then
    if "\x7d else".toList.isPrefixOf cs then s else s.openBlock cs
  else if s.isSkipping then s
  else s.statement cs

/-- The wires that the register and the operands need. An operand with no successor among the words
needs none. -/
def wires (s : Sketch) : Nat :=
  (s.ops.flatMap (·.qubits)).foldl (fun n (q : Nat) => max n (Word.add q 1).toNat) s.numQubits

end Sketch

namespace Circuit

def read (source : List Char) : Except Fault Circuit := do
  let s := (Text.split '\n' source).foldl Sketch.line {}
  let n ← Fault.length s.wires
  return ⟨n, schedule n s.ops.reverse, s.classical, s.physical⟩

end Circuit

end QasmStudio

import QasmStudio.Number.Word

/-!
# Types

The classical and quantum types of OpenQASM. `Ty.text` writes a type the way a declaration does;
`Ty.equal` compares kind, size and dimensions, and the elements of arrays.
-/

namespace QasmStudio

inductive Kind where
  | bit
  | bool
  | int
  | float
  | angle
  | array
  | qubit
  | duration
  /-- A kind the language does not have, by its number. -/
  | other (code : Int)
  deriving DecidableEq, Repr, Inhabited

namespace Kind

def ofCode : Int → Kind
  | 1 => bit
  | 2 => bool
  | 3 => int
  | 4 => float
  | 5 => angle
  | 6 => array
  | 7 => qubit
  | 8 => duration
  | n => other n

def text : Kind → List Char
  | bit => "bit".toList
  | bool => "bool".toList
  | int => "int".toList
  | float => "float".toList
  | angle => "angle".toList
  | array => "array".toList
  | qubit => "qubit".toList
  | duration => "duration".toList
  | other n => "kind(".toList ++ Word.text n ++ [')']

def render (k : Kind) : String := String.ofList k.text

def named? : String → Option Kind
  | "bit" => some bit
  | "bool" => some bool
  | "int" => some int
  | "float" => some float
  | "angle" => some angle
  | "array" => some array
  | "qubit" => some qubit
  | "duration" => some duration
  | _ => none

end Kind

/-- A type. The size is the width of a number or the length of a register, 0 for a single bit or
qubit; only arrays have elements and dimensions. -/
structure Ty where
  kind : Kind
  size : Int := 0
  elem : Option Ty := none
  dims : List Int := []
  deriving Repr, Inhabited

def commaSep (parts : List (List Char)) : List Char := List.intercalate [',', ' '] parts

namespace Ty

def int : Ty := { kind := .int, size := 32 }

def float : Ty := { kind := .float, size := 64 }

def bool : Ty := { kind := .bool }

def angle : Ty := { kind := .angle, size := 32 }

def duration : Ty := { kind := .duration }

def bit (size : Int) : Ty := { kind := .bit, size := size }

def qubit (size : Int) : Ty := { kind := .qubit, size := size }

def array (elem : Option Ty) (dims : List Int) : Ty := { kind := .array, elem := elem, dims := dims }

def sized (k : Kind) (n : Int) : List Char := k.text ++ '[' :: (Word.text n ++ [']'])

/-- The type as a declaration writes it. An array without an element type shows `void` there. -/
def text : Ty → List Char
  | ⟨kind, size, elem, dims⟩ =>
    match kind with
    | .bit | .qubit => if 0 < size then sized kind size else kind.text
    | .int | .float | .angle => sized kind size
    | .array =>
      let inner := match elem with
        | none => "void".toList
        | some t => t.text
      "array[".toList ++ inner ++ ',' :: ' ' :: (commaSep (dims.map Word.text) ++ [']'])
    | .bool | .duration | .other _ => kind.text

/-- Structural equality; the element types count for arrays only. -/
def equal : Ty → Ty → Bool
  | ⟨kind, size, elem, dims⟩, ⟨kind', size', elem', dims'⟩ =>
    kind = kind' && size = size' && dims = dims' &&
      (kind ≠ .array || match elem, elem' with
        | none, none => true
        | some t, some t' => t.equal t'
        | _, _ => false)

def isNumeric (t : Ty) : Bool := t.kind = .int || t.kind = .float || t.kind = .angle

def isCondition (t : Ty) : Bool := t.kind = .bool || (t.kind = .bit && t.size = 0)

end Ty

def tyText : Option Ty → List Char
  | none => "void".toList
  | some t => t.text

def tyRender (t : Option Ty) : String := String.ofList (tyText t)

def tyEqual : Option Ty → Option Ty → Bool
  | none, none => true
  | some a, some b => a.equal b
  | _, _ => false

def tyIsNumeric (t : Option Ty) : Bool := t.any Ty.isNumeric

def tyIsCondition (t : Option Ty) : Bool := t.any Ty.isCondition

end QasmStudio

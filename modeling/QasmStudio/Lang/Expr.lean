import QasmStudio.Fault
import QasmStudio.Lang.Angle
import QasmStudio.Lang.Type
import QasmStudio.Text.Quoted

/-!
# Expressions

OpenQASM expressions, their text and their static type. A binary operand of an operator is
written in parentheses, every other operand as it is.
-/

namespace QasmStudio

inductive Expr where
  | int (n : Int)
  | float (x : Float)
  /-- A number written in terms of pi where that is possible. -/
  | angle (x : Float)
  | bool (b : Bool)
  /-- A literal of a bit register, such as `"0101"`. -/
  | bits (s : String)
  | duration (ns : Int)
  /-- A variable, with the initial value its declaration gives it. -/
  | var (name : String) (ty : Option Ty) (init : Option Expr)
  /-- A name that is not tracked as a variable. -/
  | ident (name : String) (ty : Option Ty)
  | physical (n : Int)
  | index (base idx : Expr)
  | binary (op : String) (l r : Expr)
  | unary (op : String) (x : Expr)
  | call (name : String) (args : List Expr) (returns : Option Ty)
  | measure (qubit : Expr)
  /-- The range from `start` to `stop`, both included. -/
  | range (start stop : Expr) (step : Option Expr)
  | array (elems : List Expr) (ty : Option Ty)
  | frame (name : String)
  | waveform (name : String)
  deriving Inhabited

structure Var where
  name : String
  ty : Option Ty
  init : Option Expr := none
  deriving Inhabited

def Var.expr (v : Var) : Expr := .var v.name v.ty v.init

/-- A duration in the coarsest unit that divides it. -/
def durationText (ns : Int) : List Char :=
  if ns = 0 then "0ns".toList
  else if ns.tmod 1000000000 = 0 then Word.text (ns.tdiv 1000000000) ++ ['s']
  else if ns.tmod 1000000 = 0 then Word.text (ns.tdiv 1000000) ++ ['m', 's']
  else if ns.tmod 1000 = 0 then Word.text (ns.tdiv 1000) ++ ['u', 's']
  else Word.text ns ++ ['n', 's']

namespace Expr

def isBinary : Expr → Bool
  | binary .. => true
  | _ => false

def enclose (e : Expr) (cs : List Char) : List Char :=
  if e.isBinary then '(' :: (cs ++ [')']) else cs

mutual
def text : Expr → List Char
  | int n => Word.text n
  | float x => floatText x
  | angle x => Angle.text x
  | bool b => if b then "true".toList else "false".toList
  | bits s => Text.quoteChars s.toList
  | duration ns => durationText ns
  | var name _ _ => name.toList
  | ident name _ => name.toList
  | physical n => '$' :: Word.text n
  | index base idx => base.text ++ '[' :: (idx.text ++ [']'])
  | binary op l r => enclose l l.text ++ ' ' :: (op.toList ++ ' ' :: enclose r r.text)
  | unary op x => op.toList ++ enclose x x.text
  | call name args _ => name.toList ++ '(' :: (commaSep (texts args) ++ [')'])
  | measure q => "measure ".toList ++ q.text
  | range start stop none => '[' :: (start.text ++ ':' :: (stop.text ++ [']']))
  | range start stop (some step) =>
    '[' :: (start.text ++ ':' :: (step.text ++ ':' :: (stop.text ++ [']'])))
  | array elems _ => '{' :: (commaSep (texts elems) ++ ['}'])
  | frame name => name.toList
  | waveform name => name.toList

def texts : List Expr → List (List Char)
  | [] => []
  | e :: es => e.text :: texts es
end

def render (e : Expr) : String := String.ofList e.text

def listText (es : List Expr) : List Char := commaSep (texts es)

def isComparison (op : String) : Bool :=
  ["==", "!=", "<", "<=", ">", ">=", "&&", "||"].contains op

def elementType (t : Ty) : Option Ty :=
  match t.kind with
  | .qubit => some (Ty.qubit 0)
  | .bit => some (Ty.bit 0)
  | .array => match t.dims with
    | [] | [_] => t.elem
    | _ :: dims => some (Ty.array t.elem dims)
  | _ => none

/-- The type of an arithmetic operation: a float operand makes it a float, an angle on the left an
angle. -/
def arithmeticType (l r : Option Ty) : Ty :=
  if l.any (·.kind = .float) || r.any (·.kind = .float) then Ty.float
  else if l.any (·.kind = .angle) then Ty.angle
  else Ty.int

/-- The static type, when there is one. The size of a bit literal is its length in bytes. -/
def ty : Expr → Option Ty
  | int _ => some Ty.int
  | float _ => some Ty.float
  | angle _ => some Ty.angle
  | bool _ => some Ty.bool
  | bits s => some (Ty.bit s.utf8ByteSize)
  | duration _ => some Ty.duration
  | var _ t _ => t
  | ident _ t => t
  | physical _ => some (Ty.qubit 0)
  | index base _ => base.ty.bind elementType
  | binary op l r => some (if isComparison op then Ty.bool else arithmeticType l.ty r.ty)
  | unary op x => if op = "!" then some Ty.bool else x.ty
  | call _ _ returns => returns
  | measure _ => some (Ty.bit 0)
  | range .. => some Ty.int
  | array _ t => t
  | frame _ => none
  | waveform _ => none

end Expr

/-- What a variable of a type holds before anything is stored in it. -/
inductive Zero where
  /-- The type has no such value. -/
  | absent
  | value (e : Expr)
  /-- An array literal whose elements would be of a type without such a value. -/
  | hollow

namespace Ty

/-- The zero literal of an array, given that of its elements. An empty array needs none. -/
def zeroArray (elem : Option Ty) (inner : Except Fault Zero) : List Int → Except Fault Zero
  | [] => inner
  | d :: dims => do
    let ty := some (Ty.array elem (d :: dims))
    match ← Fault.length d 16 with
    | 0 => return .value (.array [] ty)
    | n + 1 => match ← zeroArray elem inner dims with
      | .value e => return .value (.array (List.replicate (n + 1) e) ty)
      | _ => return .hollow

def zero : Ty → Except Fault Zero
  | ⟨kind, size, elem, dims⟩ =>
    match kind with
    | .bool => return .value (.bool false)
    | .int => return .value (.int 0)
    | .float | .angle => return .value (.float 0)
    | .duration => return .value (.duration 0)
    | .bit =>
      if 0 < size then do
        let n ← Fault.length size 1
        return .value (.bits (String.ofList (List.replicate n '0')))
      else return .value (.int 0)
    | .array => zeroArray elem
        (match elem with
          | none => .error .missingPart
          | some t => t.zero) dims
    | .qubit | .other _ => return .absent

end Ty

end QasmStudio

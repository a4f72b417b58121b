import QasmStudio.Lang.Program

/-!
# Values

What the body of a routine passes around: data known while the routine is converted, or an
expression that has a value only when the program runs. `Value.toExpr` turns data into literals.
-/

namespace QasmStudio

structure BuiltProgram where
  program : Program
  /-- Does the program use pulse control? -/
  pulse : Bool
  /-- The size of the qubit register, 0 if there is none. -/
  numQubits : Int
  buildId : String

namespace BuiltProgram

def render (p : BuiltProgram) : String := p.program.render

def subroutineNames (p : BuiltProgram) : List String := p.program.subroutines.map (·.name)

def gateNames (p : BuiltProgram) : List String := p.program.gates.map (·.name)

end BuiltProgram

/-- The integer formats: the machine word and the fixed widths, signed and unsigned. -/
inductive IntFormat where
  | word
  | i8
  | i16
  | i32
  | i64
  | uword
  | u8
  | u16
  | u32
  | u64
  deriving DecidableEq, Repr, Inhabited

/-- The shapes of lists: homogeneous ones by what they hold, and the mixed one. -/
inductive ListShape where
  | ints
  | intLists
  | floats
  | bools
  | strings
  | intTriple
  | mixed
  deriving DecidableEq, Repr, Inhabited

inductive Value where
  | none
  | bool (b : Bool)
  | int (format : IntFormat) (n : Int)
  | float (x : Float)
  | float32 (x : Float32)
  | string (s : String)
  | duration (ns : Int)
  | list (shape : ListShape) (items : List Value)
  | expr (e : Expr)
  | program (p : BuiltProgram)
  /-- The program of a build that goes on: the facts are those of the moment it was taken, the
  program is the one that build number `build` is writing. -/
  | draft (build : Nat) (p : BuiltProgram)
  deriving Inhabited

def IntFormat.name : IntFormat → String
  | word => "int"
  | i8 => "int8"
  | i16 => "int16"
  | i32 => "int32"
  | i64 => "int64"
  | uword => "uint"
  | u8 => "uint8"
  | u16 => "uint16"
  | u32 => "uint32"
  | u64 => "uint64"

def ListShape.name : ListShape → String
  | ints => "[]int"
  | intLists => "[][]int"
  | floats => "[]float64"
  | bools => "[]bool"
  | strings => "[]string"
  | intTriple => "[3]int"
  | mixed => "[]interface \x7b\x7d"

def Expr.formName : Expr → String
  | .int _ => "oqpy.IntLit"
  | .float _ => "oqpy.FloatLit"
  | .angle _ => "oqpy.AngleLit"
  | .bool _ => "oqpy.BoolLit"
  | .bits _ => "oqpy.BitString"
  | .duration _ => "oqpy.DurationLit"
  | .var .. => "*oqpy.Var"
  | .ident .. => "*oqpy.Ident"
  | .physical _ => "oqpy.PhysicalQubit"
  | .index .. => "*oqpy.Index"
  | .binary .. => "*oqpy.Binary"
  | .unary .. => "*oqpy.Unary"
  | .call .. => "*oqpy.Call"
  | .measure _ => "*oqpy.MeasureExpr"
  | .range .. => "*oqpy.Range"
  | .array .. => "*oqpy.ArrayLit"
  | .frame _ => "autoqasm.Frame"
  | .waveform _ => "autoqasm.Waveform"

inductive ExprError where
  | nothing
  | unsupported (form : String)
  | emptyList (form : String)
  | element (i : Nat) (cause : ExprError)
  /-- The first element has no type, so neither has the array. -/
  | untypedElement (form : String)
  deriving DecidableEq, Repr, Inhabited

def ExprError.message : ExprError → String
  | nothing => "oqpy: cannot convert nil to an expression"
  | unsupported form => s!"oqpy: cannot convert {form} to an expression"
  | emptyList form => s!"oqpy: cannot convert empty {form} to an array"
  | element i cause => s!"oqpy: element {i}: " ++ cause.message
  | untypedElement form => s!"oqpy: untyped array element in {form}"

namespace Value

def formName : Value → String
  | none => "<nil>"
  | bool _ => "bool"
  | int format _ => format.name
  | float _ => "float64"
  | float32 _ => "float32"
  | string _ => "string"
  | duration _ => "time.Duration"
  | list shape _ => shape.name
  | expr e => e.formName
  | program _ => "*autoqasm.Program"
  | draft _ _ => "*autoqasm.Program"

/-- Has the value to wait until the program runs? -/
def isExpr : Value → Bool
  | expr _ => true
  | _ => false

/-- The array literal of a non-empty list of expressions. Its type is taken from the first one. -/
def arrayOf (form : String) (elems : List Expr) : Except ExprError Expr :=
  match elems.head? with
  | .none => .error (.emptyList form)
  | some first => match first.ty with
    | .none => .error (.untypedElement form)
    | some t =>
      let ty := if t.kind = .array then Ty.array t.elem ((elems.length : Int) :: t.dims)
        else Ty.array (some t) [(elems.length : Int)]
      .ok (.array elems (some ty))

mutual
/-- The expression for a value. An unsigned word keeps its bits, and the widest unsigned format
has no literal. -/
def toExpr : Value → Except ExprError Expr
  | expr e => .ok e
  | bool b => .ok (.bool b)
  | int .u64 _ => .error (.unsupported IntFormat.u64.name)
  | int _ n => .ok (.int (Word.wrap n))
  | float x => .ok (.float x)
  | float32 x => .ok (.float x.toFloat)
  | duration ns => .ok (.duration ns)
  | none => .error .nothing
  | string s => .error (.unsupported (formName (string s)))
  | program p => .error (.unsupported (formName (program p)))
  | draft n p => .error (.unsupported (formName (draft n p)))
  | list shape items => do arrayOf shape.name (← toExprs 0 items)

def toExprs (i : Nat) : List Value → Except ExprError (List Expr)
  | [] => .ok []
  | v :: vs => match v.toExpr with
    | .error cause => .error (.element i cause)
    | .ok e => do return e :: (← toExprs (i + 1) vs)
end

def ty (v : Value) : Option Ty :=
  match v.toExpr with
  | .ok e => e.ty
  | .error _ => .none

/-- The number a value is, while converting. A duration counts its nanoseconds. -/
def toFloat? : Value → Option Float
  | int _ n => some (Float.ofInt n)
  | float x => some x
  | float32 x => some x.toFloat
  | duration ns => some (Float.ofInt ns)
  | _ => .none

mutual
/-- The value with every draft replaced by the program as it stands, where `root` gives the program
that a build is writing. -/
def settled (root : Nat → Program) : Value → Value
  | draft n p => program { p with program := root n }
  | list shape items => list shape (settledAll root items)
  | v => v

def settledAll (root : Nat → Program) : List Value → List Value
  | [] => []
  | v :: vs => v.settled root :: settledAll root vs
end

end Value

/-- May a value of type `source` be stored in a variable of type `target`? A value of unknown type
may. Arrays need elements of one kind and as many dimensions. -/
def assignable (target : Ty) : Option Ty → Except Fault Bool
  | none => .ok true
  | some source =>
    match target.kind with
    | .int | .float | .angle =>
      .ok (source.isNumeric || source.kind = .bit || source.kind = .bool)
    | .bool | .bit => .ok (source.kind = .bool || source.kind = .bit || source.kind = .int)
    | .array =>
      if source.kind ≠ .array then .ok false
      else match target.elem, source.elem with
        | some a, some b => .ok (a.kind = b.kind && target.dims.length = source.dims.length)
        | _, _ => .error .missingPart
    | k => .ok (k = source.kind)

end QasmStudio

import QasmStudio.Value

/-!
# Errors

What can go wrong while a program is built. An `Error` is a cause, possibly inside frames that say
where it passed; `DomainError` are the causes the converter itself raises, all others are foreign.
A foreign error that leaves the body of an operator is tagged with a source position, once between
two routine boundaries; `Error.settle` is what a boundary does to an error that passes it.
-/

namespace QasmStudio

inductive GateFlaw where
  | notUnitary
  | foreignQubit (text : String)
  | foreignVariable (name : String)
  | recursive
  | parameterType (name : String) (ty : Option Ty)

inductive CalibrationFlaw where
  | notPulse
  | notNative
  | shape (qubits angles gotQubits gotAngles : Nat)
  | virtualQubit (text : String)

inductive VerbatimRefusal where
  | nested
  | inSubroutine
  | unsupported (device : String)

inductive ArgumentFlaw where
  | gateAsProgram
  | negativeQubits (n : Int)
  | noResult (ty : Option Ty)
  | count (want got : Nat)
  | parameterValue (name message : String)
  | parameterType (name : String) (want got : Option Ty)
  | initialType (want got : Option Ty)
  | assignType (got want : Option Ty) (name : String)
  | noDeclaration (name text : String)
  | incomparable (l r : String)
  | operandForms (l r : String)
  | operandTypes (l r : Option Ty)
  | divisionByZero
  | negativeIndex (n : Int)
  | notPhysical (s : String)
  | notQubitExpr (ty : Option Ty) (text : String)
  | notQubit (form : String)
  | notIterable (form : String)
  | nothingToMeasure
  | notAngle (ty : Option Ty) (text : String)

inductive DomainError where
  | inconsistentQubits (declared requested : Int)
  | invalidGate (gate operand : String) (flaw : GateFlaw)
  | invalidCalibration (gate : String) (flaw : CalibrationFlaw)
  | missingType (routine param : String)
  | verbatimRefused (why : VerbatimRefusal)
  | unknownQubitCount
  | insufficientQubits (declared required : Int)
  | unsupportedCondition (form : String)
  | invalidArguments (routine : String) (flaw : ArgumentFlaw)
  | outsideProgram (operation : String)

inductive Error where
  | domain (e : DomainError)
  | alreadyDeclared (name : String)
  | value (e : ExprError)
  /-- There are no generated names for variables of that kind. -/
  | noName (kind : Kind)
  | user (message : String)
  | inResult (routine : String) (e : Error)
  /-- Tagged with the position of the operator whose body failed. -/
  | tagged (e : Error)
  /-- Tagged, and past a routine boundary. -/
  | settled (e : Error)

def GateFlaw.message : GateFlaw → String
  | notUnitary => "contains invalid operations; a gate definition must only call unitary gate operations"
  | foreignQubit text => "uses qubit " ++ Text.quote text ++
      " which is not an argument to the gate; gates may only operate on qubits which are passed as " ++
      "arguments"
  | foreignVariable name => "uses variable " ++ Text.quote name ++
      " which is not an argument to the gate; gates may only use variables which are passed as " ++
      "arguments"
  | recursive => "gate definitions cannot be recursive"
  | parameterType name ty => "parameter " ++ Text.quote name ++ " has type " ++ tyRender ty ++
      "; gate parameters must be qubits or angles"

def CalibrationFlaw.message : CalibrationFlaw → String
  | notPulse => "contains invalid operations; a calibration definition must only call pulse operations"
  | notNative => "not a native gate"
  | shape qubits angles gotQubits gotAngles =>
    s!"takes {qubits} qubits and {angles} angles, got {gotQubits} and {gotAngles}"
  | virtualQubit text => "qubit " ++ text ++
      " is virtual; calibrations apply to physical qubits such as \"$0\""

def VerbatimRefusal.message : VerbatimRefusal → String
  | nested => "verbatim blocks cannot be nested"
  | inSubroutine => "verbatim blocks are not allowed inside subroutines"
  | unsupported device => "device " ++ Text.quote device ++ " does not support verbatim blocks"

def ArgumentFlaw.message : ArgumentFlaw → String
  | gateAsProgram => "a gate cannot be built as a program"
  | negativeQubits n => "num_qubits must not be negative, got " ++ Word.render n
  | noResult ty => "declares a " ++ tyRender ty ++ " result but returned nothing"
  | count want got => s!"takes {want} arguments, got {got}"
  | parameterValue name message => "parameter " ++ Text.quote name ++ ": " ++ message
  | parameterType name want got =>
    "parameter " ++ Text.quote name ++ " expects " ++ tyRender want ++ ", got " ++ tyRender got
  | initialType want got => "cannot initialize " ++ tyRender want ++ " with " ++ tyRender got
  | assignType got want name =>
    "cannot assign " ++ tyRender got ++ " to " ++ tyRender want ++ " " ++ name
  | noDeclaration name text => "cannot declare " ++ name ++ " from " ++ text
  | incomparable l r => "cannot compare " ++ l ++ " and " ++ r
  | operandForms l r => "unsupported operands " ++ l ++ " and " ++ r
  | operandTypes l r => "unsupported operands " ++ tyRender l ++ " and " ++ tyRender r
  | divisionByZero => "integer division by zero"
  | negativeIndex n => "negative qubit index " ++ Word.render n
  | notPhysical s => Text.quote s ++ " is not a physical qubit such as \"$0\""
  | notQubitExpr ty text => "cannot use " ++ tyRender ty ++ " " ++ text ++ " as a qubit"
  | notQubit form => "cannot use " ++ form ++ " as a qubit"
  | notIterable form => "cannot iterate over " ++ form
  | nothingToMeasure => "no qubits to measure"
  | notAngle ty text => tyRender ty ++ " " ++ text ++ " is not an angle"

def DomainError.message : DomainError → String
  | inconsistentQubits declared requested =>
    "inconsistent num_qubits: the program declares " ++ Word.render declared ++
      " qubits but a nested call requested " ++ Word.render requested ++
      "; remove num_qubits from the nested function or make it match the main program"
  | invalidGate gate _ flaw => "gate definition " ++ Text.quote gate ++ ": " ++ flaw.message
  | invalidCalibration gate flaw =>
    "calibration definition " ++ Text.quote gate ++ ": " ++ flaw.message
  | missingType routine param =>
    "parameter " ++ Text.quote param ++ " of " ++ Text.quote routine ++
      " is missing a required type"
  | verbatimRefused why => "verbatim block not allowed: " ++ why.message
  | unknownQubitCount =>
    "unknown number of qubits: programs that index qubits with runtime values must set num_qubits"
  | insufficientQubits declared required =>
    "program declares " ++ Word.render declared ++ " qubits but uses " ++ Word.render required
  | unsupportedCondition form =>
    "unsupported conditional expression of type " ++ form ++ ": conditions must be bool or bit"
  | invalidArguments routine flaw =>
    "invalid arguments to " ++ Text.quote routine ++ ": " ++ flaw.message
  | outsideProgram operation => operation ++ " must be called while a program is being built"

namespace Error

/-- The text that stands for the source position of an operator. -/
def position : String := "<src>"

def message : Error → String
  | domain e => e.message
  | alreadyDeclared name => "oqpy: variable " ++ Text.quote name ++ " already declared"
  | value e => "autoqasm: " ++ e.message
  | noName kind => "autoqasm: no variable name template for " ++ kind.render ++
      ": unsupported operation"
  | user m => m
  | inResult routine e => "return value of " ++ routine ++ ": " ++ e.message
  | tagged e => position ++ ": " ++ e.message
  | settled e => position ++ ": " ++ e.message

def domain? : Error → Option DomainError
  | domain e => some e
  | inResult _ e | tagged e | settled e => e.domain?
  | alreadyDeclared _ | value _ | noName _ | user _ => none

/-- The error inside the outermost position tag that no boundary has settled yet. -/
def untagged? : Error → Option Error
  | tagged e => some e
  | inResult _ e | settled e => e.untagged?
  | domain _ | alreadyDeclared _ | value _ | noName _ | user _ => none

/-- Tags an error with a position, unless it has one. -/
def tag (e : Error) : Error := if e.untagged?.isSome then e else tagged e

/-- What leaves a routine: a converter error loses its tag, a foreign one keeps it for good. -/
def settle (e : Error) : Error :=
  match e.untagged? with
  | none => e
  | some cause => if cause.domain?.isSome then cause else settled cause

end Error

end QasmStudio

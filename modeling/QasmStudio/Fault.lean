/-!
# Faults

Outcomes that stop a computation for good. A fault is not an error of the domain: nothing catches
it, and no state is promised after it.
-/

namespace QasmStudio

inductive Fault where
  /-- A list, text or block of spaces was asked for with a negative length. -/
  | negativeLength
  /-- A list longer than memory can address was asked for. -/
  | lengthOverflow
  | indexOutOfRange
  | negativeShift
  /-- A part that an operation needs (an element type, a context) is absent. -/
  | missingPart
  /-- A computation did not end within its bound. -/
  | unfinished
  deriving DecidableEq, Repr, Inhabited

/-- The longest list that may be asked for, in elements of eight bytes. -/
def Fault.longest : Int := 35184372088832

/-- A length that can be allocated, as a natural number, if an element takes that many bytes. -/
def Fault.length (n : Int) (bytes : Int := 8) : Except Fault Nat :=
  if n < 0 then .error .negativeLength
  else if n * bytes > 8 * Fault.longest then .error .lengthOverflow
  else .ok n.toNat

end QasmStudio

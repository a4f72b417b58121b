import QasmStudio.Circuit.Op

/-!
# Scheduling

Each operation goes to the earliest column after every earlier operation whose span meets its own.
The span of an operation is every wire from its lowest operand to its highest, so the vertical
lines of one never cross another in the same column. The schedule is kept as the first free column
of each wire.
-/

namespace QasmStudio

/-- The wires from `lo` up to, and not including, `hi`. -/
structure Span where
  lo : Nat
  hi : Nat
  deriving DecidableEq, Repr

namespace Span

def Contains (s : Span) (q : Nat) : Prop := s.lo ≤ q ∧ q < s.hi

instance (s : Span) (q : Nat) : Decidable (s.Contains q) := inferInstanceAs (Decidable (_ ∧ _))

def slice {α : Type} (s : Span) (xs : List α) : List α := (xs.drop s.lo).take (s.hi - s.lo)

end Span

def Op.span (n : Nat) (op : Op) : Span :=
  match op.bounds? with
  | none => ⟨0, n⟩
  | some (lo, hi) => ⟨lo, hi + 1⟩

def earliest (free : List Nat) (s : Span) : Nat := (s.slice free).foldl max 0

/-- The free columns after `step` has been taken on the wires of a span. -/
def occupy (free : List Nat) (s : Span) (step : Nat) : List Nat :=
  free.mapIdx fun q f => if s.Contains q then step + 1 else f

def placeFrom (n : Nat) (free : List Nat) : List Op → List Placed
  | [] => []
  | op :: ops =>
    let s := op.span n
    let step := earliest free s
    { op with step := step } :: placeFrom n (occupy free s step) ops

def schedule (n : Nat) (ops : List Op) : List Placed := placeFrom n (List.replicate n 0) ops

end QasmStudio

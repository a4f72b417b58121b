import QasmStudio.Fault

/-!
# Gate kernels

A gate acts on a vector of amplitudes in place, index by index. A qubit is given by its bit in the
indices. The kernels need a sum and a product of amplitudes and none of their laws.
-/

namespace QasmStudio

structure Matrix2 (α : Type) where
  m00 : α
  m01 : α
  m10 : α
  m11 : α

/-- The bit of a qubit in the indices: none beyond the sixty-fourth. -/
def qubitBit (q : Int) : Except Fault Nat :=
  if q < 0 then .error .negativeShift
  else if q < 64 then .ok (1 <<< q.toNat)
  else .ok 0

def qubitMask (qs : List Int) : Except Fault Nat := do
  let bits ← qs.mapM qubitBit
  return bits.foldl (· ||| ·) 0

namespace Kernel

variable {α : Type}

/-- Replaces the entries at `i` and `j` by functions of both. The entry at `j` is written last. -/
def update (f g : α → α → α) (v : Array α) (i j : Nat) : Except Fault (Array α) :=
  match v[i]?, v[j]? with
  | some a, some b => .ok ((v.setIfInBounds i (f a b)).setIfInBounds j (g a b))
  | _, _ => .error .indexOutOfRange

/-- Carries out `f` for every index in ascending order. -/
def sweep (f : Array α → Nat → Except Fault (Array α)) (v : Array α) : Except Fault (Array α) :=
  (List.range v.size).foldlM f v

variable [Add α] [Mul α]

/-- Applies a matrix to the qubit `t` where all bits of `controls` are set. -/
def apply (u : Matrix2 α) (t controls : Nat) (v : Array α) : Except Fault (Array α) :=
  sweep (fun v i =>
    if i &&& t ≠ 0 ∨ i &&& controls ≠ controls then .ok v
    else update (fun a b => u.m00 * a + u.m01 * b) (fun a b => u.m10 * a + u.m11 * b) v i (i ||| t)) v

omit [Add α] [Mul α] in
def swap (b1 b2 : Nat) (v : Array α) : Except Fault (Array α) :=
  sweep (fun v i =>
    if i &&& b1 ≠ 0 ∧ i &&& b2 = 0 then
      update (fun _ b => b) (fun a _ => a) v i ((i ^^^ (i &&& b1)) ||| b2)
    else .ok v) v

/-- Couples every index with the one in which both bits are flipped: `c` is the factor of the entry
itself, `k i` that of the other. -/
def couple (c : α) (k : Nat → α) (b1 b2 : Nat) (v : Array α) : Except Fault (Array α) :=
  sweep (fun v i =>
    if i &&& b1 ≠ 0 then .ok v
    else update (fun a b => c * a + k i * b) (fun a b => k i * a + c * b) v i (i ^^^ b1 ^^^ b2)) v

omit [Add α] in
/-- Multiplies every entry by a factor that depends on its index. -/
def scale (f : Nat → α) (v : Array α) : Array α := v.mapIdx fun i a => a * f i

end Kernel

end QasmStudio

/-!
# Sets of code points

A set of code points is given by its runs, from the first code point on: by turns how many are left out
and how many are in.
-/

namespace QasmStudio.Text

/-- By turns how many code points are left out and how many are in. -/
abbrev Runs := List Nat

namespace Runs

/-- The place of a code point in its run, if it is in one. -/
def place? : Runs → Nat → Option Nat
  | skip :: count :: rs, n =>
    if n < skip then none
    else if n < skip + count then some (n - skip)
    else place? rs (n - skip - count)
  | _, _ => none

def has (rs : Runs) (n : Nat) : Bool := (rs.place? n).isSome

end Runs

end QasmStudio.Text

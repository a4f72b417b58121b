/-!
# Machine words

Counts, indices and integer literals are signed words of 64 bits. They are kept as integers;
`Word.wrap` brings the result of an operation back into range, and `Word.text` writes one in
decimal.
-/

namespace QasmStudio.Word

def largest : Int := 9223372036854775807

def smallest : Int := -9223372036854775808

def InRange (n : Int) : Prop := smallest ≤ n ∧ n ≤ largest

instance (n : Int) : Decidable (InRange n) := inferInstanceAs (Decidable (_ ∧ _))

/-- The representative of `n` modulo `2 ^ 64` that is a word. -/
def wrap (n : Int) : Int := n.bmod 18446744073709551616

def add (a b : Int) : Int := wrap (a + b)

def sub (a b : Int) : Int := wrap (a - b)

def mul (a b : Int) : Int := wrap (a * b)

/-- Division rounds toward zero; the smallest word divided by `-1` is itself. -/
def div (a b : Int) : Int := wrap (a.tdiv b)

def digits (n : Nat) : List Char := Nat.toDigits 10 n

def text : Int → List Char
  | .ofNat n => digits n
  | .negSucc n => '-' :: digits (n + 1)

def render (n : Int) : String := String.ofList (text n)

def ofDigits (cs : List Char) : Nat := Nat.ofDigitChars 10 cs 0

def natural? (cs : List Char) : Option Nat :=
  if cs ≠ [] ∧ cs.all Char.isDigit then some (ofDigits cs) else none

def integer? : List Char → Option Int
  | '+' :: cs => (natural? cs).map Int.ofNat
  | '-' :: cs => (natural? cs).map fun n => -(n : Int)
  | cs => (natural? cs).map Int.ofNat

/-- A decimal integer with an optional sign that is a word. -/
def read? (cs : List Char) : Option Int :=
  (integer? cs).filter fun n => decide (InRange n)

/-- A run of digits as a word; a number too large becomes the largest word. -/
def readClamped (cs : List Char) : Int := min (ofDigits cs : Int) largest

end QasmStudio.Word

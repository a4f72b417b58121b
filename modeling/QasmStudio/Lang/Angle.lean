import QasmStudio.Number.General
import QasmStudio.Number.Reader
import QasmStudio.Text.Blank
import QasmStudio.Text.Case

/-!
# Angles

Angles are written as fractions of pi where a common fraction is meant, and as plain numbers
otherwise. `Angle.read?` accepts both forms, with the word `pi` or the Greek letter.
-/

namespace QasmStudio

def floatText (x : Float) : List Char :=
  let cs := Number.general x
  if cs.any fun c => c = '.' || c = 'e' || c = 'E' || c = 'n' || c = 'N' then cs
  else cs ++ ['.', '0']

namespace Angle

def pi : Float := 3.14159265358979323846264338327950288419716939937510582097494459

/-- The fractions of pi with a form of their own, in the order they are tried. -/
def forms : List (Float × String) :=
  [(6.28318530717958647692528676655900576839433879875021164194988918, "2*pi"),
   (pi, "pi"),
   (1.57079632679489661923132169163975144209858469968755291048747230, "pi/2"),
   (1.04719755119659774615421446109316762806572313312503527365831486, "pi/3"),
   (0.78539816339744830961566084581987572104929234984377645524373615, "pi/4"),
   (0.52359877559829887307710723054658381403286156656251763682915743, "pi/6"),
   (0.39269908169872415480783042290993786052464617492188822762186807, "pi/8"),
   (2.35619449019234492884698253745962716314787704953132936573120844, "3*pi/4"),
   (4.71238898038468985769396507491925432629575409906265873146241689, "3*pi/2"),
   (2.09439510239319549230842892218633525613144626625007054731662973, "2*pi/3")]

/-- How far an angle may be from a fraction of pi and still be written as one. -/
def tolerance : Float := 1e-10

def form? (x : Float) : List (Float × String) → Option (List Char)
  | [] => none
  | (v, name) :: rest =>
    if (x - v).abs < tolerance then some name.toList
    else if (x + v).abs < tolerance then some ('-' :: name.toList)
    else form? x rest

def text (x : Float) : List Char :=
  match form? x forms with
  | some cs => cs
  | none => floatText x

def render (x : Float) : String := String.ofList (text x)

structure Multiple where
  negative : Bool
  coefficient : List Char
  denominator : Option (List Char)
  deriving DecidableEq

/-- Is there a minus sign in front, and what follows it. -/
def takeSign : List Char → Bool × List Char
  | '-' :: cs => (true, cs)
  | cs => (false, cs)

/-- A run of characters of `p` with at most one `mark` among them, and the rest. -/
def takeMarked (p : Char → Bool) (mark : Char) (cs : List Char) : List Char × List Char :=
  let (front, rest) := cs.span p
  if rest.head? = some mark then
    let (back, rest) := rest.tail.span p
    (front ++ mark :: back, rest)
  else (front, rest)

def afterPi? : List Char → Option (List Char)
  | 'p' :: 'i' :: rest => some rest
  | 'π' :: rest => some rest
  | _ => none

/-- What follows `pi`: nothing, or a division by digits with an optional fraction. -/
def denominator? (cs : List Char) : Option (Option (List Char)) :=
  if cs = [] then some none
  else
    let gap := takeMarked Text.isSpace '/' cs
    let taken := takeMarked Char.isDigit '.' gap.2
    if '/' ∈ gap.1 ∧ (taken.1.headD '.').isDigit ∧ taken.2 = [] then some (some taken.1) else none

/-- An optional coefficient, an optional star and `pi`, in lower case. -/
def multiple? (cs : List Char) : Option Multiple :=
  let sign := takeSign cs
  let coefficient := takeMarked Char.isDigit '.' sign.2
  let gap := takeMarked Text.isSpace '*' coefficient.2
  (afterPi? gap.2 >>= denominator?).map fun d => ⟨sign.1, coefficient.1, d⟩

namespace Multiple

def factor? (m : Multiple) : Option Float :=
  if m.coefficient = [] then some 1 else Number.read? m.coefficient

/-- A number divided by the denominator, if that is a number other than zero. -/
def divide? (m : Multiple) (x : Float) : Option Float :=
  match m.denominator with
  | none => some x
  | some cs => (Number.read? cs).bind fun d => if d == 0 then none else some (x / d)

def value? (m : Multiple) : Option Float :=
  (m.factor?.bind fun x => m.divide? (x * pi)).map fun x => if m.negative then -x else x

end Multiple

def read? (cs : List Char) : Option Float :=
  let cs := Text.trim cs
  if cs = [] then none
  else match Number.read? cs with
    | some x => some x
    | none => multiple? (cs.map Text.toLower) >>= Multiple.value?

end Angle

end QasmStudio

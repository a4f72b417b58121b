import QasmStudio.Number.Reader
import QasmStudio.Text.Split
import QasmStudio.Toml.Value

/-!
# TOML scalars

Strings, numbers and times. A number or a time is read from a token, a run of the characters that
can occur in one, and must account for all of it.
-/

namespace QasmStudio.Toml

abbrev Read (α : Type) := List Char → Option (α × List Char)

def isNewline (c : Char) : Bool := c = '\n' || c = '\r'

/-! ### Strings -/

def codePoint? (ds : List Char) : Option Char :=
  let n := Number.digitsValue 16 0 ds
  if ds.all Number.isHexDigit && n.isValidChar then some (Char.ofNat n) else none

/-- A character given by its first `count` digits, and the rest. -/
def readCodePoint (count : Nat) : Read Char := fun cs =>
  if cs.length < count then none
  else (codePoint? (cs.take count)).map fun c => (c, cs.drop count)

/-- What follows a backslash. -/
def readEscape : Read Char
  | [] => none
  | c :: rest => match c with
    | 'b' => some (Char.ofNat 8, rest)
    | 't' => some ('\t', rest)
    | 'n' => some ('\n', rest)
    | 'f' => some (Char.ofNat 12, rest)
    | 'r' => some ('\r', rest)
    | 'e' => some (Char.ofNat 27, rest)
    | '"' => some ('"', rest)
    | '\\' => some ('\\', rest)
    | 'x' => readCodePoint 2 rest
    | 'u' => readCodePoint 4 rest
    | 'U' => readCodePoint 8 rest
    | _ => none

/-- The rest of a string on several lines that ends with quotes `q`: up to two quotes belong to the
text, three close it with up to `spare` more before them. -/
def closing (q : Char) (spare : Nat) (cs : List Char) : Option (Nat × Bool × List Char) :=
  let n := (cs.takeWhile (· = q)).length
  if n < 3 then some (n, false, cs.drop n)
  else if n ≤ 3 + spare then some (n - 3, true, cs.drop n)
  else none

def isLayout (c : Char) : Bool := c = ' ' || c = '\t' || isNewline c

/-- Does a backslash here join lines? Then only blanks follow it on its line. -/
def joinsLines (cs : List Char) : Bool := (cs.takeWhile isLayout).contains '\n'

/-- The text up to the closing quotes of a string on several lines, in at most `fuel` steps. A text
with escapes is between double quotes. Two quotes may stand before the closing ones, or three right
after a backslash in the text. -/
def readLines (q : Char) (escapes : Bool) : Nat → (spare : Nat) → Read (List Char)
  | 0, _, _ => none
  | _, _, [] => none
  | fuel + 1, spare, c :: rest =>
    if c = q then do
      let (n, closed, rest) ← closing q spare (c :: rest)
      let quotes := List.replicate n q
      if closed then some (quotes, rest)
      else
        let (cs, rest) ← readLines q escapes fuel 2 rest
        return (quotes ++ cs, rest)
    else if escapes && c = '\\' then
      if joinsLines rest then readLines q escapes fuel 2 (rest.dropWhile isLayout)
      else do
        let spare := if rest.head? = some '\\' then 3 else 2
        let (c, rest) ← readEscape rest
        let (cs, rest) ← readLines q escapes fuel spare rest
        return (c :: cs, rest)
    else do
      let (cs, rest) ← readLines q escapes fuel 2 rest
      return (c :: cs, rest)

/-- The text up to the closing quote of a string on one line, in at most `fuel` steps. -/
def readOneLine (q : Char) (escapes : Bool) : Nat → Read (List Char)
  | 0, _ => none
  | _, [] => none
  | fuel + 1, c :: rest =>
    if c = q then some ([], rest)
    else if isNewline c then none
    else if escapes && c = '\\' then do
      let (c, rest) ← readEscape rest
      let (cs, rest) ← readOneLine q escapes fuel rest
      return (c :: cs, rest)
    else do
      let (cs, rest) ← readOneLine q escapes fuel rest
      return (c :: cs, rest)

/-- A line end right after the opening quotes is no part of the text. -/
def dropFirstNewline : List Char → List Char
  | '\n' :: cs => cs
  | '\r' :: '\n' :: cs => cs
  | cs => cs

/-- The quote that a text starts with, and whether it allows escapes. -/
def quote? : List Char → Option (Char × Bool)
  | '"' :: _ => some ('"', true)
  | '\'' :: _ => some ('\'', false)
  | _ => none

/-- A string on one line, with its quotes. -/
def readQuoted : Read String := fun cs => do
  let (q, escapes) ← quote? cs
  let (text, rest) ← readOneLine q escapes cs.length (cs.drop 1)
  return (String.ofList text, rest)

def readString : Read String := fun cs => do
  let (q, escapes) ← quote? cs
  if [q, q, q].isPrefixOf cs then
    let (text, rest) ← readLines q escapes cs.length 2 (dropFirstNewline (cs.drop 3))
    return (String.ofList text, rest)
  else readQuoted cs

/-! ### Numbers -/

/-- An underscore stands between digits; `before` says that a digit came before. -/
def underscoresOk (before : Bool) : List Char → Bool
  | [] => before
  | c :: cs => (c ≠ '_' || before) && underscoresOk (Number.isHexDigit c) cs

def withoutSign : List Char → List Char
  | '+' :: cs => cs
  | '-' :: cs => cs
  | cs => cs

def digits? (isDigit : Char → Bool) (base : Nat) (cs : List Char) : Option Nat :=
  if cs.all (fun c => isDigit c || c = '_') && underscoresOk false cs then
    some (Number.digitsValue base 0 (cs.filter (· ≠ '_')))
  else none

def hasLeadingZero (cs : List Char) : Bool := cs.head? = some '0' && 1 < cs.length

/-- The magnitude of an integer; the bases other than ten have no sign. -/
def magnitude? (signed : Bool) (cs : List Char) : Option Nat :=
  match signed, cs with
  | false, '0' :: 'x' :: ds => digits? Number.isHexDigit 16 ds
  | false, '0' :: 'o' :: ds => digits? (fun c => '0' ≤ c && c ≤ '7') 8 ds
  | false, '0' :: 'b' :: ds => digits? (fun c => c = '0' || c = '1') 2 ds
  | _, ds => if hasLeadingZero ds then none else digits? Char.isDigit 10 ds

def integer? (tok : List Char) : Option Int := do
  let ds := withoutSign tok
  let n ← magnitude? (ds.length < tok.length) ds
  let n : Int := if tok.head? = some '-' then -(n : Int) else n
  if Word.InRange n then some n else none

/-- Each point has a digit after it. -/
def pointsOk : List Char → Bool
  | [] => true
  | '.' :: cs => (cs.head?.any Char.isDigit) && pointsOk cs
  | _ :: cs => pointsOk cs

/-- The parts between points and exponent marks. -/
def floatParts (cs : List Char) : List (List Char) :=
  ((Text.split 'e' (cs.map fun c => if c = '.' || c = 'E' then 'e' else c))).filter (· ≠ [])

def isFloatChar (c : Char) : Bool :=
  c.isDigit || c = '_' || c = '.' || c = '+' || c = '-' || c = 'e' || c = 'E'

/-- Is the token a number with a fraction or an exponent, or a special one? -/
def isFloat (tok : List Char) : Bool :=
  let cs := withoutSign tok
  if cs = "inf".toList || cs = "nan".toList then true
  else cs.head?.any Char.isDigit && cs.all isFloatChar && !cs.all (fun c => c.isDigit || c = '_') &&
    (floatParts tok).all (underscoresOk false) && !hasLeadingZero ((floatParts cs).headD []) &&
    pointsOk tok && (Number.read? (tok.filter (· ≠ '_'))).isSome

/-! ### Times -/

def readDigits (count : Nat) : Read Nat := fun cs =>
  let ds := cs.take count
  if ds.length = count && ds.all Char.isDigit then
    some (Number.digitsValue 10 0 ds, cs.drop count)
  else none

def readChar (c : Char) : Read Unit
  | [] => none
  | d :: rest => if c = d then some ((), rest) else none

def isLeap (year : Nat) : Bool := year % 4 = 0 && (year % 100 ≠ 0 || year % 400 = 0)

def daysIn (year month : Nat) : Nat :=
  match month with
  | 2 => if isLeap year then 29 else 28
  | 4 | 6 | 9 | 11 => 30
  | _ => 31

def readDate : Read Unit := fun cs => do
  let (year, cs) ← readDigits 4 cs
  let (_, cs) ← readChar '-' cs
  let (month, cs) ← readDigits 2 cs
  let (_, cs) ← readChar '-' cs
  let (day, cs) ← readDigits 2 cs
  if 1 ≤ month && month ≤ 12 && 1 ≤ day && day ≤ daysIn year month then some ((), cs) else none

def dropFraction (cs : List Char) : List Char :=
  match cs with
  | '.' :: c :: rest => if c.isDigit then rest.dropWhile Char.isDigit else cs
  | cs => cs

/-- A time of the day; the seconds may be left out. -/
def readClock : Read Unit := fun cs => do
  let (hour, cs) ← readDigits 2 cs
  let (_, cs) ← readChar ':' cs
  let (minute, cs) ← readDigits 2 cs
  if 24 ≤ hour || 60 ≤ minute then none
  else match cs with
    | ':' :: cs => do
      let (second, cs) ← readDigits 2 cs
      if 60 ≤ second then none else some ((), dropFraction cs)
    | cs => some ((), cs)

/-- Nothing, or the offset from universal time, up to the end. -/
def isZone (cs : List Char) : Bool :=
  match cs with
  | [] => true
  | ['Z'] => true
  | c :: rest =>
    (c = '+' || c = '-') && match readDigits 2 rest with
      | some (hours, ':' :: rest) => hours ≤ 24 && match readDigits 2 rest with
        | some (minutes, []) => minutes ≤ 60
        | _ => false
      | _ => false

/-- The letters of a time in capitals, and a letter between the day and the time of the day. -/
def timeChar (c : Char) : Char :=
  if c = 't' || c = ' ' then 'T' else if c = 'z' then 'Z' else c

def isTime (tok : List Char) : Bool :=
  let cs := tok.map timeChar
  match readDate cs with
  | some (_, []) => true
  | some (_, 'T' :: rest) => match readClock rest with
    | some (_, rest) => isZone rest
    | none => false
  | some _ => false
  | none => match readClock cs with
    | some (_, []) => true
    | _ => false

/-! ### Tokens -/

def isTokenChar (c : Char) : Bool :=
  c.isAlphanum || c = '_' || c = '+' || c = '-' || c = '.' || c = ':'

/-- A token. One blank may stand between a day and a time of the day. -/
def takeToken (cs : List Char) : List Char × List Char :=
  let (tok, rest) := cs.span isTokenChar
  match readDate tok, rest with
  | some (_, []), ' ' :: c :: _ =>
    if c.isDigit then
      let (clock, rest) := (rest.drop 1).span isTokenChar
      (tok ++ ' ' :: clock, rest)
    else (tok, rest)
  | _, _ => (tok, rest)

def scalar? (tok : List Char) : Option Literal :=
  if tok = "true".toList then some (.bool true)
  else if tok = "false".toList then some (.bool false)
  else match integer? tok with
    | some n => some (.integer n)
    | none => if isFloat tok then some .float else if isTime tok then some .time else none

def readScalar : Read Literal := fun cs =>
  let (tok, rest) := takeToken cs
  (scalar? tok).map fun x => (x, rest)

end QasmStudio.Toml

import QasmStudio.Toml.Draft
import QasmStudio.Toml.Scalar

/-!
# Reading TOML

A document is read line by line. Arrays and inline tables may go over several lines, with comments
in them and a comma at the end.
-/

namespace QasmStudio.Toml

def isForbidden (c : Char) : Bool :=
  (c.toNat < 32 && c ≠ '\t' && !isNewline c) || c.toNat = 127

/-- A text without forbidden characters in which a carriage return comes before a line feed. -/
def isLegible : List Char → Bool
  | [] => true
  | '\r' :: cs => cs.head? = some '\n' && isLegible cs
  | c :: cs => !isForbidden c && isLegible cs

def isGap (c : Char) : Bool := c = ' ' || c = '\t'

def skipGap (cs : List Char) : List Char := cs.dropWhile isGap

def skipLayout (comment : Bool) : List Char → List Char
  | [] => []
  | c :: cs =>
    if isNewline c then skipLayout false cs
    else if comment || isGap c then skipLayout comment cs
    else if c = '#' then skipLayout true cs
    else c :: cs

/-- What is left after the end of a line, which may have a comment. -/
def endLine (cs : List Char) : Option (List Char) :=
  match skipGap cs with
  | [] => some []
  | '#' :: rest => some (rest.dropWhile fun c => !isNewline c)
  | c :: rest => if isNewline c then some rest else none

def isBareChar (c : Char) : Bool := c.isAlphanum || c = '_' || c = '-'

def readKeyPart : Read String := fun cs =>
  match quote? cs with
  | some _ => readQuoted cs
  | none => match cs.span isBareChar with
    | ([], _) => none
    | (name, rest) => some (String.ofList name, rest)

/-- A key: parts with dots between them, at most `fuel` of them. -/
def readKey : Nat → Read (List String)
  | 0, _ => none
  | fuel + 1, cs => do
    let (part, rest) ← readKeyPart (skipGap cs)
    match skipGap rest with
    | '.' :: rest => do
      let (parts, rest) ← readKey fuel rest
      return (part :: parts, rest)
    | rest => return ([part], rest)

/-- Entries with commas between them, up to a closing bracket. -/
def readEntries {α : Type} (read : Read α) (close : Char) : Nat → Read (List α)
  | 0, _ => none
  | fuel + 1, cs =>
    match skipLayout false cs with
    | [] => none
    | c :: rest =>
      if c = close then some ([], rest)
      else do
        let (x, rest) ← read (c :: rest)
        match skipLayout false rest with
        | [] => none
        | c :: rest =>
          if c = close then some ([x], rest)
          else if c = ',' then do
            let (xs, rest) ← readEntries read close fuel rest
            return (x :: xs, rest)
          else none

def readPair (value : Read Literal) : Read (List String × Literal) := fun cs => do
  let (key, rest) ← readKey cs.length cs
  match rest with
  | '=' :: rest => do
    let (x, rest) ← value rest
    return ((key, x), rest)
  | _ => none

/-- A value; `inner` reads the values in it. -/
def readValue (inner : Read Literal) : Read Literal := fun cs =>
  match skipGap cs with
  | '[' :: rest => do
    let (items, rest) ← readEntries inner ']' rest.length rest
    return (.array items, rest)
  | '\x7b' :: rest => do
    let (entries, rest) ← readEntries (readPair inner) '\x7d' rest.length rest
    return (.table entries, rest)
  | cs => match quote? cs with
    | some _ => do
      let (s, rest) ← readString cs
      return (.string s, rest)
    | none => readScalar cs

/-- A value in which brackets nest less than `depth` deep. -/
def readNested : Nat → Read Literal
  | 0, _ => none
  | depth + 1, cs => readValue (readNested depth) cs

def readLine : Read Line := fun cs => do
  match cs with
  | '[' :: '[' :: rest => do
    let (path, rest) ← readKey rest.length rest
    match rest with
    | ']' :: ']' :: rest => return (.element path, rest)
    | _ => none
  | '[' :: rest => do
    let (path, rest) ← readKey rest.length rest
    match rest with
    | ']' :: rest => return (.table path, rest)
    | _ => none
  | cs => do
    let ((path, x), rest) ← readPair (readNested (cs.length + 1)) cs
    return (.assign path x, rest)

/-- The lines of a document, at most `fuel` of them. -/
def readDocument : Nat → List Char → Option (List Line)
  | 0, _ => none
  | fuel + 1, cs =>
    match skipLayout false cs with
    | [] => some []
    | cs => do
      let (line, rest) ← readLine cs
      let rest ← endLine rest
      return line :: (← readDocument fuel rest)

/-- A byte order mark at the start means nothing. -/
def dropMark : List Char → List Char
  | c :: cs => if c.toNat = 0xFEFF then cs else c :: cs
  | [] => []

def read? (cs : List Char) : Option Table := do
  let cs := dropMark cs
  if isLegible cs then Table.ofDocument? (← readDocument (cs.length + 1) cs) else none

end QasmStudio.Toml

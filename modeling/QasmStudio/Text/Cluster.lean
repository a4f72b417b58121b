import QasmStudio.Text.Cluster.Table

/-!
# Clusters

A cluster is what a reader takes for one character: a letter with its marks, the letters of a Korean
syllable, the two indicators of a flag, pictographs with a joiner between them. Text is divided by
going through it once. What counts about a cluster so far is how it ends.
-/

namespace QasmStudio.Text

inductive Part where
  | other
  | carriage
  | newline
  | control
  /-- A mark without room of its own. -/
  | extend
  /-- The zero-width joiner. -/
  | joiner
  /-- A mark with room of its own. -/
  | spacing
  /-- A sign that goes with the next character. -/
  | prepend
  /-- The consonant that a syllable starts with. -/
  | lead
  | vowel
  /-- The consonant that a syllable ends with. -/
  | tail
  /-- A syllable with no consonant at its end. -/
  | openSyllable
  /-- A syllable with a consonant at its end. -/
  | closedSyllable
  /-- Half of a flag. -/
  | regional
  | pictograph
  deriving DecidableEq, Repr, Inhabited

/-- A syllable, by its number: the first of each 28 is open. -/
def syllable (n : Nat) : Part := if n % 28 = 0 then .openSyllable else .closedSyllable

def partOfCode (n : Nat) : Part :=
  if n = 0x200D then .joiner
  else if 0xAC00 ≤ n && n ≤ 0xD7A3 then syllable (n - 0xAC00)
  else if (0x1100 ≤ n && n ≤ 0x115F) || (0xA960 ≤ n && n ≤ 0xA97C) then .lead
  else if (0x1160 ≤ n && n ≤ 0x11A7) || (0xD7B0 ≤ n && n ≤ 0xD7C6) then .vowel
  else if (0x11A8 ≤ n && n ≤ 0x11FF) || (0xD7CB ≤ n && n ≤ 0xD7FB) then .tail
  else if 0x1F1E6 ≤ n && n ≤ 0x1F1FF then .regional
  else if extendRuns.has n then .extend
  else if spacingRuns.has n then .spacing
  else if pictographRuns.has n then .pictograph
  else if prependRuns.has n then .prepend
  else if controlRuns.has n then .control
  else .other

def partOf (c : Char) : Part :=
  if 32 ≤ c.toNat && c.toNat < 127 then .other
  else if c = '\r' then .carriage
  else if c = '\n' then .newline
  else partOfCode c.toNat

/-- How a cluster ends so far. -/
inductive Ending where
  | plain
  | carriage
  | control
  | prepend
  | lead
  | vowel
  | tail
  /-- A pictograph and its marks. -/
  | pictograph
  /-- A pictograph with a joiner after it. -/
  | joined
  /-- Half of a flag that has no other half yet. -/
  | halfFlag
  | flag
  deriving DecidableEq, Repr, Inhabited

namespace Ending

/-- The ending of a cluster that starts with the part. -/
def ofPart : Part → Ending
  | .other | .extend | .joiner | .spacing => plain
  | .carriage => carriage
  | .newline | .control => control
  | .prepend => prepend
  | .lead => lead
  | .vowel | .openSyllable => vowel
  | .tail | .closedSyllable => tail
  | .pictograph => pictograph
  | .regional => halfFlag

/-- The ending once a part has followed, in the same cluster or in a new one. -/
def next : Ending → Part → Ending
  | pictograph, .extend => pictograph
  | pictograph, .joiner => joined
  | halfFlag, .regional => flag
  | _, p => ofPart p

/-- Does the part belong to the cluster that ends like this? -/
def takes : Ending → Part → Bool
  | carriage, .newline => true
  | carriage, _ | control, _ => false
  | _, .carriage | _, .newline | _, .control => false
  | _, .extend | _, .joiner | _, .spacing => true
  | prepend, _ => true
  | lead, .lead | lead, .vowel | lead, .openSyllable | lead, .closedSyllable => true
  | vowel, .vowel | vowel, .tail | tail, .tail => true
  | joined, .pictograph => true
  | halfFlag, .regional => true
  | _, _ => false

end Ending

/-- Divides what follows a cluster's characters so far, the last one first. A new cluster ends as
`start` says about its first character. -/
def divide (start : Char → Ending) (e : Ending) (cluster : List Char) :
    List Char → List (List Char)
  | [] => [cluster.reverse]
  | c :: cs =>
    let p := partOf c
    if e.takes p then divide start (e.next p) (c :: cluster) cs
    else cluster.reverse :: divide start (start c) [c] cs

def divideBy (start : Char → Ending) : List Char → List (List Char)
  | [] => []
  | c :: cs => divide start (start c) [c] cs

def clusters (cs : List Char) : List (List Char) := divideBy (fun c => .ofPart (partOf c)) cs

/-- The glyphs of a text: its clusters, but an ASCII character stands alone. -/
def glyphs (cs : List Char) : List (List Char) :=
  divideBy (fun c => if c.toNat < 128 then .control else .ofPart (partOf c)) cs

end QasmStudio.Text

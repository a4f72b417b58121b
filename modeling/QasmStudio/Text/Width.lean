import QasmStudio.Text.Cluster

/-!
# Widths

How many columns of a terminal a character or a text takes. A text is measured by its clusters; a
character by itself, as a cursor steps over it, is measured without regard to its neighbours.
-/

namespace QasmStudio.Text

/-- The wide characters of East Asia and the pictographs that are as wide. -/
def wideRuns : Runs :=
  [4352, 96, 4538, 2, 13, 2, 190, 4, 3, 1, 2, 1, 521, 2, 21, 2, 50, 12, 43, 1, 19, 1, 13, 1, 8, 2,
   17, 2, 5, 2, 8, 1, 5, 1, 21, 1, 7, 2, 1, 1, 4, 1, 2, 1, 7, 1, 4, 2, 28, 1, 35, 1, 1, 1, 4, 3,
   1, 1, 61, 3, 24, 1, 14, 1, 859, 2, 51, 1, 4, 1, 810, 26, 1, 89, 12, 214, 26, 12, 4, 63, 2, 86,
   2, 103, 5, 43, 1, 94, 1, 84, 12, 47, 1, 40, 8, 7024, 64, 22157, 3, 55, 1177, 29, 643, 11172,
   8540, 512, 784, 10, 22, 35, 1, 19, 1, 4, 149, 96, 127, 7, 28665, 5, 11, 2, 14, 6136, 8, 1238,
   42, 9, 8935, 4, 1, 7, 1, 2, 1, 291, 15, 1, 29, 3, 2, 1, 14, 4, 8, 396, 15624, 1, 202, 1, 190,
   1, 2, 10, 101, 3, 13, 44, 4, 9, 7, 2, 14, 6, 154, 33, 12, 9, 1, 70, 1, 22, 12, 43, 4, 5, 12,
   17, 3, 1, 3, 71, 1, 1, 1, 187, 2, 63, 13, 4, 1, 24, 18, 1, 26, 2, 13, 1, 86, 85, 48, 70, 6, 1,
   3, 3, 2, 3, 4, 4, 11, 2, 7, 9, 227, 12, 4, 1, 283, 47, 1, 10, 1, 185, 112, 13, 3, 9, 7, 46, 1,
   7, 8, 14, 4, 9, 7, 9, 1287, 65534, 2, 65534]

/-- The code points that take no column by themselves: what is not shown, and what combines. -/
def thinRuns : Runs :=
  [0, 32, 95, 33, 13, 1, 594, 112, 275, 7, 645, 1, 219, 9, 1036, 1, 3, 1, 238, 1, 12, 2, 1627, 3,
   1195, 4, 624, 1, 48, 31, 156, 9, 588, 64, 523, 5, 24, 7, 59, 6, 96, 33, 3070, 3, 238, 32, 665,
   2, 30164, 4, 1, 10, 32, 2, 80, 2, 494, 18, 21806, 16, 207, 1, 249, 3, 2, 2, 509, 1, 376, 5,
   2864, 2, 153, 11, 49, 4, 890, 2, 57, 2, 41, 7, 3, 5, 22395, 5, 25611, 46, 2, 23, 542, 5, 3, 6,
   8, 8, 2, 7, 30, 4, 148, 3, 3515, 7, 1, 17, 2, 7, 1, 2, 1, 5, 100, 1, 2112, 7]

def isWide (n : Nat) : Bool := wideRuns.has n

/-- The later ones of the signs that describe an ideograph, which are wide by themselves only. -/
def isLateDescription (n : Nat) : Bool := (0x2FFC ≤ n && n ≤ 0x2FFF) || n = 0x31EF

/-- The columns a character takes by itself. Printable ASCII takes one. -/
def charWidth (c : Char) : Nat :=
  let n := c.toNat
  if 32 ≤ n && n < 127 then 1
  else if thinRuns.has n then 0
  else if isWide n || isLateDescription n then 2
  else 1

/-- The columns a character takes as part of a cluster. -/
def Part.width (p : Part) (c : Char) : Nat :=
  match p with
  | .carriage | .newline | .control | .extend | .joiner => 0
  | .regional => 2
  | .pictograph => if emojiRuns.has c.toNat then 2 else 1
  | _ => match c.toNat with
    | 0x2E3A => 3
    | 0x2E3B => 4
    | n => if 127 ≤ n && isWide n then 2 else 1

/-- The columns of a pictograph once a selector has followed it. -/
def selectedWidth (w : Nat) (c : Char) : Nat :=
  match c.toNat with
  | 0xFE0E => 1
  | 0xFE0F => 2
  | _ => w

/-- The columns a cluster takes. A pictograph, a flag and a syllable are as wide as their first
characters, but for the selectors of a pictograph; elsewhere all characters count. -/
def clusterWidth : List Char → Nat
  | [] => 0
  | c :: cs =>
    let first := partOf c
    let w := first.width c
    match first with
    | .pictograph => cs.foldl selectedWidth w
    | .regional | .lead => w
    | _ => cs.foldl (fun w c => w + (partOf c).width c) w

def width (cs : List Char) : Nat := (clusters cs).foldl (fun n cluster => n + clusterWidth cluster) 0

/-- The columns a glyph takes: those of its first character. The selector for colour makes it wide. -/
def glyphWidth : List Char → Nat
  | [] => 0
  | c :: cs =>
    let selected := cs.head?.any fun c => c.toNat = 0xFE0F
    if c.toNat < 128 then (partOf c).width c
    else if selected || isWide c.toNat || emojiRuns.has c.toNat then 2
    else match partOf c with
      | .carriage | .newline | .control | .extend | .joiner => 0
      | .regional => 2
      | _ => 1

/-- The columns of a text that is shown glyph by glyph. -/
def glyphsWidth (cs : List Char) : Nat := (glyphs cs).foldl (fun n glyph => n + glyphWidth glyph) 0

end QasmStudio.Text

import QasmStudio.Circuit.Drawing
import QasmStudio.Text.Split
import QasmStudio.Text.Width

/-!
# Panels

A panel is a text wrapped to a width, with a margin of one column and a border around it.
-/

namespace QasmStudio

structure Paragraph where
  /-- What has been written, the latest first. -/
  out : List Char := []
  /-- The word that is being read, its end first. -/
  word : List Char := []
  wordWidth : Nat := 0
  /-- The blanks before the word, a column each. -/
  space : List Char := []
  /-- The columns in use on the line. -/
  column : Nat := 0

namespace Paragraph

def writeSpace (w : Paragraph) : Paragraph :=
  { w with out := w.space ++ w.out, column := w.column + w.space.length, space := [] }

/-- Writes the word, if there is one, after the blanks before it. -/
def flush (w : Paragraph) : Paragraph :=
  if w.word = [] then w
  else
    let w := w.writeSpace
    { w with out := w.word ++ w.out, column := w.column + w.wordWidth, word := [], wordWidth := 0 }

def newline (w : Paragraph) : Paragraph := { w with out := '\n' :: w.out, column := 0, space := [] }

/-- The end of a line of the text: blanks at the end are kept if they fit. -/
def endLine (limit : Nat) (w : Paragraph) : Paragraph :=
  let w :=
    if w.wordWidth ≠ 0 then w
    else if w.column + w.space.length ≤ limit then w.writeSpace
    else { w with space := [] }
  w.flush

/-- A glyph of a word. A word that is as wide as the line is broken; what takes no column stays
where it is. -/
def letter (limit : Nat) (w : Paragraph) (glyph : List Char) (columns : Nat) : Paragraph :=
  if columns = 0 then { w with word := glyph.reverse ++ w.word }
  else
    let w := if limit < w.wordWidth + columns then w.flush else w
    let w := { w with word := glyph.reverse ++ w.word, wordWidth := w.wordWidth + columns }
    if limit < w.column + w.wordWidth + w.space.length then w.newline else w

def glyph (limit : Nat) (w : Paragraph) (g : List Char) : Paragraph :=
  match g with
  | ['\n'] => (w.endLine limit).newline
  | [' '] =>
    let w := w.flush
    { w with space := ' ' :: w.space }
  | ['-'] =>
    let w := w.writeSpace
    if w.column + w.wordWidth + 1 ≤ limit then
      let w := w.flush
      { w with out := '-' :: w.out, column := w.column + 1 }
    else w.letter limit g 1
  | g => w.letter limit g (Text.glyphWidth g)

end Paragraph

namespace Panel

/-- Wraps a text to `limit` columns; without room it stays as it is. -/
def wrap (limit : Int) (cs : List Char) : List Char :=
  if limit < 1 then cs
  else (((Text.glyphs cs).foldl (Paragraph.glyph limit.toNat) {}).endLine limit.toNat).out.reverse

def widest (lines : List (List Char)) : Nat := (lines.map Text.glyphsWidth).foldl max 0

/-- Lines with spaces after them, so that all are as wide as the widest and at least `w` wide. -/
def align (w : Nat) (lines : List (List Char)) : List (List Char) :=
  let w := max w (widest lines)
  lines.map fun l => l ++ List.replicate (w - Text.glyphsWidth l) ' '

/-- Lines with empty ones below them, up to `h` lines. -/
def extend (h : Nat) (lines : List (List Char)) : List (List Char) :=
  lines ++ List.replicate (h - lines.length) []

def border (lines : List (List Char)) : List (List Char) :=
  let side := dashes (widest lines)
  ['╭' :: side ++ ['╮']] ++ lines.map (fun l => '│' :: l ++ ['│']) ++ ['╰' :: side ++ ['╯']]

/-- A panel of width `w` and height `h`, not counting the border. -/
def render (w h : Int) (cs : List Char) : List (List Char) :=
  let lines := (Text.split '\n' (wrap (w - 2) cs)).map fun l => ' ' :: l ++ [' ']
  border (align w.toNat (extend h.toNat lines))

def beside (a b : List (List Char)) : List (List Char) :=
  let h := max a.length b.length
  List.zipWith (· ++ ·) (align 0 (extend h a)) (align 0 (extend h b))

def stack (blocks : List (List (List Char))) : List (List Char) := align 0 blocks.flatten

def text (lines : List (List Char)) : List Char := ['\n'].intercalate lines

end Panel

end QasmStudio

import QasmStudio.Text.Blank
import QasmStudio.Text.Width

/-!
# Wrapped lines

A line of the editor takes as many rows as its width needs. Words go to the next row as a whole if
they fit in one; a blank ends a word and stays with it. The last row has one more place, for the
cursor at the end of the line.
-/

namespace QasmStudio.Wrap

open Text (charWidth width isBlank)

structure Partial where
  /-- The rows that are complete, the last one first. -/
  rows : List (List Char) := []
  row : List Char := []
  /-- The word that no row holds yet. -/
  word : List Char := []

/-- Takes in a character. A word that fills a row is broken there. -/
def Partial.step (limit : Nat) (p : Partial) (c : Char) : Partial :=
  if isBlank c then
    if limit < width p.row + width p.word + 1 then ⟨p.row :: p.rows, p.word ++ [' '], []⟩
    else ⟨p.rows, p.row ++ p.word ++ [' '], []⟩
  else
    let word := p.word ++ [c]
    if limit < width word + charWidth c then
      if p.row.isEmpty then ⟨p.rows, word, []⟩ else ⟨p.row :: p.rows, word, []⟩
    else { p with word := word }

/-- The rows once the line is at its end. -/
def Partial.finish (limit : Nat) (p : Partial) : List (List Char) :=
  if limit ≤ width p.row + width p.word then
    (p.rows.reverse ++ [p.row]) ++ [p.word ++ [' ']]
  else p.rows.reverse ++ [p.row ++ p.word ++ [' ']]

def rows (limit : Nat) (line : List Char) : List (List Char) :=
  (line.foldl (Partial.step limit) {}).finish limit

structure Place where
  /-- The columns before it in its row. -/
  offset : Nat := 0
  row : Nat := 0
  /-- Where its row starts in the line. -/
  start : Nat := 0
  size : Nat := 0
  /-- The columns that bound a move into the row. -/
  columns : Nat := 0
  deriving Repr, Inhabited

/-- The place of a position in a line, among rows that start at `start` and are counted from `i`.
At the end of a row it is the start of the next one, if there is one. -/
def locate (position start i : Nat) : List (List Char) → Place
  | [] => {}
  | r :: rest =>
    let stop := start + r.length
    match rest with
    | next :: _ =>
      if position = stop then ⟨0, i + 1, position, next.length, width r⟩
      else if position ≤ stop then
        ⟨width (r.take (position - start)), i, start, r.length, width r⟩
      else locate position stop (i + 1) rest
    | [] => ⟨width (r.take (position - start)), i, start, r.length, width r⟩

/-- How many of the characters a cursor passes on the way to a column: it stops at the last column
before `columns`. -/
def passed (goal columns offset : Nat) : List Char → Nat
  | [] => 0
  | c :: cs =>
    if goal ≤ offset || columns ≤ offset + 1 then 0
    else passed goal columns (offset + charWidth c) cs + 1

/-- The position in the row of `position` that is nearest to the column `goal`. -/
def landing (limit : Nat) (line : List Char) (position goal : Nat) : Nat :=
  let p := locate position 0 0 (rows limit line)
  if p.size = 0 then p.start else p.start + passed goal p.columns 0 (line.drop p.start)

end QasmStudio.Wrap

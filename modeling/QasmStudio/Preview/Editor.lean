import QasmStudio.Preview.Wrap
import QasmStudio.Text.Case

/-!
# The text editor

A text with a cursor, kept as the characters before the cursor, nearest first, and those after it.
Moves up and down go by the rows that wrapped lines take. They aim at the furthest column that a run
of such moves has come from; a move or an edit inside of a line ends the run.
-/

namespace QasmStudio

structure Editor where
  before : List Char := []
  after : List Char := []
  /-- The column that moves up and down aim at. -/
  aim : Nat := 0
  width : Nat := 34

namespace Editor

def text (e : Editor) : List Char := e.before.reverse ++ e.after

/-- Control characters of the first 256. -/
def isControl (c : Char) : Bool := c.toNat < 32 || (127 ≤ c.toNat && c.toNat < 160)

/-- Text that the editor can hold: a tab becomes four spaces, a carriage return ends a line, and
other control characters are left out. -/
def clean (cs : List Char) : List Char :=
  cs.flatMap fun c =>
    if c = '\n' || c = '\r' then ['\n']
    else if c = '\t' then [' ', ' ', ' ', ' ']
    else if isControl c || c.toNat = 0xFFFD then []
    else [c]

def maxLines : Nat := 10000

def lineCount (e : Editor) : Nat := (e.before ++ e.after).count '\n' + 1

/-- The first `n` lines of a text, without the end of the last one. -/
def firstLines : Nat → List Char → List Char
  | 0, _ => []
  | _, [] => []
  | n + 1, c :: cs =>
    if c ≠ '\n' then c :: firstLines (n + 1) cs
    else if n = 0 then [] else c :: firstLines n cs

def column (e : Editor) : Nat := (e.before.takeWhile (· ≠ '\n')).length

def line (e : Editor) : List Char :=
  (e.before.takeWhile (· ≠ '\n')).reverse ++ e.after.takeWhile (· ≠ '\n')

def atLineStart (e : Editor) : Bool := e.before.head?.all (· = '\n')

def atLineEnd (e : Editor) : Bool := e.after.head?.all (· = '\n')

/-! ### Moves inside of a line -/

/-- Ends a run of moves up and down. -/
def settled (e : Editor) : Editor := { e with aim := 0 }

def back (n : Nat) (e : Editor) : Editor :=
  { e with before := e.before.drop n, after := (e.before.take n).reverse ++ e.after }

def forth (n : Nat) (e : Editor) : Editor :=
  { e with before := (e.after.take n).reverse ++ e.before, after := e.after.drop n }

def left (e : Editor) : Editor := if e.before.isEmpty then e else (e.back 1).settled

def right (e : Editor) : Editor := if e.after.isEmpty then e else (e.forth 1).settled

def home (e : Editor) : Editor := (e.back e.column).settled

def finish (e : Editor) : Editor := (e.forth (e.after.takeWhile (· ≠ '\n')).length).settled

def top (e : Editor) : Editor := (e.back e.before.length).settled

def bottom (e : Editor) : Editor := (e.forth e.after.length).settled

def inWord (c : Char) : Bool := c ≠ '\n' && !Text.isBlank c

def wordLeft (e : Editor) : Editor :=
  let gap := e.before.takeWhile (!inWord ·)
  let word := (e.before.drop gap.length).takeWhile inWord
  (e.back (gap.length + word.length)).settled

/-- Moves behind the next word, whose characters are changed by `f`, given their numbers. -/
def throughWord (f : Nat → Char → Char) (e : Editor) : Editor :=
  let gap := e.after.takeWhile (!inWord ·)
  let e := if gap.isEmpty then e else (e.forth gap.length).settled
  let word := e.after.takeWhile inWord
  if word.isEmpty then e
  else
    let before := (word.mapIdx f).reverse ++ e.before
    { e with before := before, after := e.after.drop word.length, aim := 0 }

def wordRight (e : Editor) : Editor := e.throughWord fun _ c => c

/-! ### Moves up and down -/

def moveTo (position : Nat) (e : Editor) : Editor := (e.back e.column).forth position

/-- The place of the cursor among the rows of its line. -/
def place (e : Editor) : Wrap.Place := Wrap.locate e.column 0 0 (Wrap.rows e.width e.line)

/-- Moves into the row of a position of the line, as far as the aim. -/
def landAt (position : Nat) (e : Editor) : Editor :=
  e.moveTo (Wrap.landing e.width e.line position e.aim)

def up (e : Editor) : Editor :=
  let p := e.place
  let e := { e with aim := max e.aim p.offset }
  if p.row = 0 && e.column < e.before.length then
    let above := e.back (e.column + 1)
    above.landAt above.column
  else e.landAt (p.start - 2)

def down (e : Editor) : Editor :=
  let p := e.place
  let e := { e with aim := max e.aim p.offset }
  let rest := (e.after.takeWhile (· ≠ '\n')).length
  if (Wrap.rows e.width e.line).length ≤ p.row + 1 && rest < e.after.length then
    (e.forth (rest + 1)).landAt 0
  else e.landAt (min (p.start + p.size + 2) (e.line.length - 1))

/-! ### Edits -/

/-- Puts in a text, as far as the number of lines allows. -/
def insert (cs : List Char) (e : Editor) : Editor :=
  let cs := clean cs
  let free := maxLines + 1 - e.lineCount
  if free = 0 then e
  else { e with before := (firstLines free cs).reverse ++ e.before, aim := 0 }

def load (cs : List Char) (e : Editor) : Editor :=
  insert cs { e with before := [], after := [], aim := 0 }

def enter (e : Editor) : Editor := { e with before := '\n' :: e.before }

def removeBack (n : Nat) (e : Editor) : Editor := { e with before := e.before.drop n }

def removeForth (n : Nat) (e : Editor) : Editor := { e with after := e.after.drop n }

/-- Joins the line with the one above, if there is one, or else does as `m` says. -/
def joinAboveOr (m : Editor → Editor) (e : Editor) : Editor :=
  if e.atLineStart then e.removeBack 1 else (m e).settled

/-- Joins the line with the one below, if there is one, or else does as `m` says. -/
def joinBelowOr (m : Editor → Editor) (e : Editor) : Editor :=
  if e.atLineEnd then e.removeForth 1 else (m e).settled

def backspace (e : Editor) : Editor := e.joinAboveOr (removeBack 1)

/-- Removes the character after the cursor; at the end of the line that leaves, the line below is
joined to it. -/
def delete (e : Editor) : Editor :=
  let e := if e.atLineEnd then e else e.removeForth 1
  if e.atLineEnd then e.removeForth 1 else e

def deleteBefore (e : Editor) : Editor := e.joinAboveOr fun e => e.removeBack e.column

def deleteAfter (e : Editor) : Editor :=
  e.joinBelowOr fun e => e.removeForth (e.after.takeWhile (· ≠ '\n')).length

/-- How far back the word before the cursor reaches in the part of the line before it, blanks
included. A blank at the start of the line goes with the word. -/
def wordExtent (part : List Char) : Nat :=
  let gap := (part.takeWhile Text.isBlank).length
  let stop := gap + ((part.drop gap).takeWhile inWord).length
  if part.length ≤ stop + 1 then part.length else stop

def deleteWordLeft (e : Editor) : Editor :=
  e.joinAboveOr fun e => e.removeBack (wordExtent (e.before.takeWhile (· ≠ '\n')))

def deleteWordRight (e : Editor) : Editor :=
  e.joinBelowOr fun e =>
    let part := e.after.takeWhile (· ≠ '\n')
    let gap := (part.takeWhile Text.isBlank).length
    e.removeForth (gap + ((part.drop gap).takeWhile inWord).length)

/-- Exchanges the characters around the cursor and moves on; at the end of a line the last two. -/
def transpose (e : Editor) : Editor :=
  if e.atLineStart || e.line.length < 2 then e
  else
    let e := (if e.atLineEnd then e.back 1 else e).settled
    match e.before, e.after with
    | a :: before, b :: after => { e with before := a :: b :: before, after := after }
    | _, _ => e

def uppercase (e : Editor) : Editor := e.throughWord fun _ c => Text.toUpper c

def lowercase (e : Editor) : Editor := e.throughWord fun _ c => Text.toLower c

def capitalize (e : Editor) : Editor := e.throughWord fun i c => if i = 0 then Text.toTitle c else c

def bindings : List (String × (Editor → Editor)) :=
  [("right", right), ("ctrl+f", right), ("left", left), ("ctrl+b", left),
   ("alt+right", wordRight), ("alt+f", wordRight), ("alt+left", wordLeft), ("alt+b", wordLeft),
   ("down", down), ("ctrl+n", down), ("up", up), ("ctrl+p", up),
   ("alt+backspace", deleteWordLeft), ("ctrl+w", deleteWordLeft),
   ("alt+delete", deleteWordRight), ("alt+d", deleteWordRight),
   ("ctrl+k", deleteAfter), ("ctrl+u", deleteBefore), ("enter", enter), ("ctrl+m", enter),
   ("backspace", backspace), ("ctrl+h", backspace), ("delete", delete), ("ctrl+d", delete),
   ("home", home), ("ctrl+a", home), ("end", finish), ("ctrl+e", finish), ("ctrl+v", id),
   ("alt+<", top), ("ctrl+home", top), ("alt+>", bottom), ("ctrl+end", bottom),
   ("alt+c", capitalize), ("alt+l", lowercase), ("alt+u", uppercase), ("ctrl+t", transpose)]

def press (key : String) (e : Editor) : Editor :=
  match bindings.lookup key with
  | some f => f e
  | none => e.insert key.toList

end Editor

end QasmStudio

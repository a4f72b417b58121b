/-!
# Blanks

The characters with the white-space property, and trimming a text of them.
-/

namespace QasmStudio.Text

/-- White space: the ASCII controls tab to carriage return, the space, and the spaces and
separators beyond ASCII. -/
def isBlank (c : Char) : Bool :=
  let n := c.toNat
  (9 ≤ n && n ≤ 13) || n = 0x20 || n = 0x85 || n = 0xA0 || n = 0x1680 ||
    (0x2000 ≤ n && n ≤ 0x200A) || n = 0x2028 || n = 0x2029 || n = 0x202F || n = 0x205F ||
    n = 0x3000

/-- The white space of patterns: ASCII only, and without the vertical tab. -/
def isSpace (c : Char) : Bool :=
  c = ' ' || c = '\t' || c = '\n' || c = '\r' || c.toNat = 12

def trimLeft (cs : List Char) : List Char := cs.dropWhile isBlank

def trimRight (cs : List Char) : List Char := (cs.reverse.dropWhile isBlank).reverse

def trim (cs : List Char) : List Char := trimRight (trimLeft cs)

def words (cs : List Char) : List (List Char) :=
  (go [] cs).filter (· ≠ [])
where
  go (word : List Char) : List Char → List (List Char)
    | [] => [word.reverse]
    | c :: cs => if isBlank c then word.reverse :: go [] cs else go (c :: word) cs

end QasmStudio.Text

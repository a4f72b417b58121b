import QasmStudio.Text.Split

/-!
# Files

A tree of files and directories, as far as the program looks at it. A path is the list of its
parts from the top; a directory is there if it is listed or if something below it is.
-/

namespace QasmStudio

inductive Content where
  | text (s : String)
  | bytes (bs : List UInt8)
  deriving DecidableEq, Repr, Inhabited

abbrev Path := List String

inductive FileEntry where
  | file (c : Content)
  | directory
  deriving DecidableEq, Repr, Inhabited

inductive PathError where
  | notFound
  | notDirectory
  | isDirectory
  | tooLong
  /-- No path can be written like this. -/
  | malformed
  deriving DecidableEq, Repr, Inhabited

def PathError.message : PathError → String
  | notFound => "no such file or directory"
  | notDirectory => "not a directory"
  | isDirectory => "is a directory"
  | tooLong => "file name too long"
  | malformed => "invalid argument"

namespace Path

def render (p : Path) : String := "/".intercalate p

/-- The parts of a path in writing; empty parts and single dots mean nothing. -/
def parts (s : String) : List String :=
  ((Text.split '/' s.toList).map String.ofList).filter fun part => part ≠ "" && part ≠ "."

def endsWithSlash (s : String) : Bool := s.toList.getLast? = some '/'

def isDirectoryForm (s : String) : Bool :=
  endsWithSlash s || (Text.split '/' s.toList).getLast? = some ['.']

def maxPart : Nat := 255

def maxLength : Nat := 4095

def check (s : String) : Except PathError Unit :=
  if s.toList.contains (Char.ofNat 0) then .error .malformed
  else if maxLength < s.utf8ByteSize then .error .tooLong
  else .ok ()

def origin (base : Path) (s : String) : Path :=
  if "/".toList.isPrefixOf s.toList then [""] else base

/-- The path that `parts` lead to from `base`; two dots lead up. -/
def follow (base : Path) : List String → Path
  | [] => base
  | part :: parts => follow (if part = ".." then base.dropLast else base ++ [part]) parts

def clean (base : Path) (s : String) : Path := follow (origin base s) (parts s)

def parent (p : Path) : Path := if p.length ≤ 1 then p else p.dropLast

theorem length_parent_lt {p : Path} (h : p.parent ≠ p) : p.parent.length < p.length := by
  unfold parent at h ⊢
  split at h
  · exact absurd rfl h
  · rw [if_neg (by assumption), List.length_dropLast]
    omega

def ancestors (p : Path) : List Path := ((List.range p.length).map fun n => p.take (n + 1)).reverse

end Path

structure FileTree where
  entries : List (Path × FileEntry) := []

namespace FileTree

def entry? (t : FileTree) (p : Path) : Option FileEntry :=
  match t.entries.lookup p with
  | some e => some e
  | none => if t.entries.any fun (q, _) => p.isPrefixOf q then some .directory else none

def directory (t : FileTree) (p : Path) : Except PathError Path :=
  match t.entry? p with
  | none => .error .notFound
  | some (.file _) => .error .notDirectory
  | some .directory => .ok p

/-- Goes from one path to another, part by part; all that is passed must be a directory. -/
def walk (t : FileTree) (p : Path) : List String → Except PathError Path
  | [] => .ok p
  | part :: parts => do
    let p ← t.directory p
    if Path.maxPart < part.utf8ByteSize then .error .tooLong
    else t.walk (if part = ".." then p.dropLast else p ++ [part]) parts

/-- Where a path in writing leads from the directory `base`. If it says so, it must lead to a
directory. -/
def resolve (t : FileTree) (base : Path) (s : String) : Except PathError Path := do
  Path.check s
  let p ← t.walk (Path.origin base s) (Path.parts s)
  if Path.isDirectoryForm s then t.directory p else .ok p

def contains (t : FileTree) (base : Path) (s : String) : Bool :=
  match t.resolve base s with
  | .ok p => (t.entry? p).isSome
  | .error _ => false

/-- Reads the file at a path. The error says which step failed: opening or reading. -/
def readAt (t : FileTree) (p : Path) : Except (String × PathError) Content :=
  match t.entry? p with
  | none => .error ("open", .notFound)
  | some .directory => .error ("read", .isDirectory)
  | some (.file c) => .ok c

def read (t : FileTree) (base : Path) (s : String) : Except (String × PathError) Content :=
  match t.resolve base s with
  | .error e => .error ("open", e)
  | .ok p => t.readAt p

/-- The path of a file that can be created or replaced. A path that ends with a slash is refused as
soon as the directory is found that it would be in. -/
def creatable (t : FileTree) (base : Path) (s : String) : Except PathError Path := do
  Path.check s
  if Path.endsWithSlash s then
    let _ ← t.directory (← t.walk (Path.origin base s) (Path.parts s).dropLast)
    .error .isDirectory
  else
    let p ← t.resolve base s
    match t.entry? p with
    | some .directory => .error .isDirectory
    | _ => .ok p

def write (t : FileTree) (p : Path) (c : Content) : FileTree :=
  ⟨(p, .file c) :: t.entries.filter fun (q, _) => q ≠ p⟩

def files (t : FileTree) : List (Path × Content) :=
  (t.entries.filterMap fun
    | (p, .file c) => some (p, c)
    | (_, .directory) => none).reverse

def newFiles (t old : FileTree) : List (Path × Content) :=
  t.files.filter fun (p, _) => (old.entries.lookup p).isNone

def changedFiles (t old : FileTree) : List (Path × Content) :=
  t.files.filter fun (p, c) => old.entries.lookup p ≠ some (.file c)

end FileTree

end QasmStudio

import QasmStudio.Toml.Value

/-!
# The table of a document

`Table.ofDocument?` makes the table that headers and assignments describe. A table that was only
named on the way to another is pending, and may still be defined once. A key at which an array was
written last gives way if it is pending too.

What is noted of a path is noted by its keys: a note made in one element of an array of tables holds
in the next element as well.
-/

namespace QasmStudio.Toml

/-- Keys from the outermost table inwards. -/
abbrev KeyPath := List String

structure Draft where
  table : Table := []
  context : KeyPath := []
  pending : List KeyPath := []
  /-- Where an array was written last. -/
  arrays : List KeyPath := []

namespace Draft

def suspend (d : Draft) (path : KeyPath) : Draft := { d with pending := path :: d.pending }

def settle (d : Draft) (path : KeyPath) : Draft :=
  { d with pending := d.pending.filter (· ≠ path) }

/-- Notes whether the value at a path is an array. -/
def noteAt (d : Draft) (path : KeyPath) (array : Bool) : Draft :=
  let others := d.arrays.filter (· ≠ path)
  { d with arrays := if array then path :: others else others }

/-- Notes whether the value of a key is an array. A note on an empty key goes to the table itself. -/
def note (d : Draft) (key : String) (array : Bool) : Draft :=
  let path := if key = "" then d.context else d.context ++ [key]
  d.noteAt (if path = [] then [""] else path) array

/-- Writes a key whatever it holds. -/
def store (d : Draft) (key : String) (n : Node) : Option Draft := do
  return { d with table := ← Table.modifyAt (fun t => some (t.set key n)) d.context d.table }

/-- Defines a key of the context. A key that is taken must be pending: it keeps its value, unless an
array was written there. -/
def put (d : Draft) (key : String) (n : Node) : Option Draft := do
  let t ← Table.tableAt? d.context d.table
  let path := d.context ++ [key]
  if (t.lookup key).isNone then d.store key n
  else if !d.pending.contains path then none
  else if d.arrays.contains path then (d.settle path).store key n
  else some (d.settle path)

/-- Makes the tables on a path that are missing; they are pending. The context goes along. -/
def follow (d : Draft) : KeyPath → Option Draft
  | [] => some d
  | key :: rest => do
    let t ← Table.tableAt? d.context d.table
    let path := d.context ++ [key]
    let d ← if (t.lookup key).isNone then (d.suspend path).store key (.table []) else some d
    let _ ← Table.tableAt? path d.table
    follow { d with context := path } rest

/-- Opens the table at a path, defining it; the tables on the way may be missing. -/
def openTable (d : Draft) (path : KeyPath) : Option Draft := do
  let key ← path.getLast?
  let d ← ({ d with context := [] } : Draft).follow path.dropLast
  let d ← d.put key (.table [])
  return { d with context := path }

/-- Opens a further table in the array of tables at a path. -/
def openElement (d : Draft) (path : KeyPath) : Option Draft := do
  let key ← path.getLast?
  let d ← ({ d with context := [] } : Draft).follow path.dropLast
  let t ← Table.tableAt? d.context d.table
  let d ← match t.lookup key with
    | none => d.store key (.tables [[]])
    | some (.tables ts) => d.store key (.tables ([] :: ts))
    | some _ => none
  return { d with context := path }

/-- Goes from the context through the tables named before the last dot of a key. -/
def enter (d : Draft) : KeyPath → Option Draft
  | [] => some d
  | key :: rest => do
    let path := d.context ++ [key]
    let d ← (d.suspend path).openTable path
    enter d rest

end Draft

mutual
/-- The value of a key of the context. The tables in it are opened in the document while they are
read, so what they write is checked against what stands there; `nested` is for the value of an
array's entry. -/
def Literal.place (nested : Bool) (key : String) : Literal → Draft → Option (Node × Draft)
  | .string s, d => some (.string s, d)
  | .integer n, d => some (.integer n, d)
  | .float, d => some (.other, d)
  | .bool b, d => some (.bool b, d)
  | .time, d => some (.other, d)
  | .array items, d => do
    let (nodes, d) ← Literal.placeItems key items (d.note key true)
    return (.array nodes, d)
  | .table entries, d => do
    let path := d.context ++ [key]
    let inner := d.suspend path
    let inner ← if nested then inner.openElement path else inner.openTable path
    let (t, inner) ← Literal.placeEntries path [] entries inner
    return (.table t, { inner with context := d.context })

def Literal.placeItems (key : String) : List Literal → Draft → Option (List Node × Draft)
  | [], d => some ([], d)
  | x :: xs, d => do
    let (n, d) ← x.place true key d
    let (ns, d) ← Literal.placeItems key xs d
    return (n :: ns, d)

def Literal.placeEntries (path : KeyPath) (t : Table) :
    List (KeyPath × Literal) → Draft → Option (Table × Draft)
  | [], d => some (t, d)
  | (keys, x) :: rest, d => do
    let key ← keys.getLast?
    let d ← ({ d with context := path } : Draft).enter keys.dropLast
    let (n, d) ← x.place false key d
    let d ← d.put key n
    let t ← t.insertPath n keys
    Literal.placeEntries path t rest (d.note key x.isArray)
end

namespace Draft

def line (d : Draft) : Line → Option Draft
  | .table path => do
    let d ← d.openTable path
    return d.noteAt path false
  | .element path => do
    let d ← d.openElement path
    return d.noteAt path false
  | .assign keys value => do
    let key ← keys.getLast?
    let inner ← d.enter keys.dropLast
    let (n, inner) ← value.place false key inner
    let inner ← inner.put key n
    return { inner.note key value.isArray with context := d.context }

end Draft

def Table.ofDocument? (lines : List Line) : Option Table :=
  (lines.foldlM Draft.line {}).map (·.table)

end QasmStudio.Toml

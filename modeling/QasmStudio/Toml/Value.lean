import QasmStudio.Number.Word

/-!
# TOML values

A document is a list of headers and assignments of literals; a table holds nodes. A path of keys
leads through tables, and through an array of tables by way of its last element.
-/

namespace QasmStudio.Toml

/-- A value as it is written. -/
inductive Literal where
  | string (s : String)
  | integer (n : Int)
  | float
  | bool (b : Bool)
  | time
  | array (items : List Literal)
  /-- An inline table: keys with their values. -/
  | table (entries : List (List String × Literal))
  deriving Inhabited

def Literal.isArray : Literal → Bool
  | .array _ => true
  | _ => false

inductive Line where
  | table (path : List String)
  /-- The next table of an array of tables. -/
  | element (path : List String)
  | assign (path : List String) (value : Literal)

inductive Node where
  | string (s : String)
  | integer (n : Int)
  | bool (b : Bool)
  /-- A number with a fraction or a time. -/
  | other
  | array (items : List Node)
  | table (entries : List (String × Node))
  /-- An array of tables, the last one first. -/
  | tables (elements : List (List (String × Node)))
  deriving Inhabited

abbrev Table := List (String × Node)

namespace Table

/-- Sets a key that is there or adds it. -/
def set (t : Table) (key : String) (n : Node) : Table :=
  match t with
  | [] => [(key, n)]
  | (k, m) :: rest => if k = key then (k, n) :: rest else (k, m) :: set rest key n

/-- Changes the table a node is, or the last one of an array of tables. -/
def inNode (n : Node) (f : Table → Option Table) : Option Node :=
  match n with
  | .table t => (f t).map .table
  | .tables (t :: ts) => (f t).map fun t => .tables (t :: ts)
  | _ => none

/-- Changes the table at the end of a path, if the path leads to one. -/
def modifyAt (f : Table → Option Table) : List String → Table → Option Table
  | [], t => f t
  | key :: path, t => do
    return t.set key (← inNode (← t.lookup key) (modifyAt f path))

/-- The table at the end of a path, if the path leads to one. -/
def tableAt? : List String → Table → Option Table
  | [], t => some t
  | key :: path, t =>
    match t.lookup key with
    | some (.table t) => tableAt? path t
    | some (.tables (t :: _)) => tableAt? path t
    | _ => none

/-- Sets the key at the end of a path; tables that are missing on the way are made. -/
def insertPath (t : Table) (n : Node) : List String → Option Table
  | [] => none
  | [key] => some (t.set key n)
  | key :: path => do
    match t.lookup key with
    | none => return t.set key (.table (← insertPath [] n path))
    | some (.table inner) => return t.set key (.table (← insertPath inner n path))
    | some _ => none

end Table

end QasmStudio.Toml

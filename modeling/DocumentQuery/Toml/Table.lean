import DocumentQuery.Toml.Value
/-!
# Tables under construction

The statements of a document add to tables that earlier statements made. What
a statement may add to depends on how a table came about: by a header of its
own, on the way to the table of another header, or by a dotted key.

Main definitions:
* `Node`: a value, a table with its origin, or an array of tables.
* `insertKey`: what a key and value add, `openTable` and `openElement`: what a
  header adds.
* `Node.toValue`: the finished value.
-/
namespace DocumentQuery.Toml

/-- How a table came about. -/
inductive Origin where
  /-- By a header of its own. -/
  | header
  /-- On the way to the table of a header. -/
  | implied
  /-- By a dotted key. -/
  | dotted
deriving DecidableEq, Repr

/-- A part of a document under construction; the latest element of an array of tables is first. -/
inductive Node where
  | value (v : Value)
  | table (origin : Origin) (entries : List (String × Node))
  | elements (tables : List (List (String × Node)))

/-- The entries of a table under construction. -/
abbrev Table := List (String × Node)

/-- Replaces the node at a key, or adds one, by `f`; fails where `f` does. -/
def alter (key : String) (f : Option Node → Option Node) : Table → Option Table
  | [] => (f none).map fun n => [(key, n)]
  | (k, n) :: t =>
    if k = key then (f (some n)).map fun n => (k, n) :: t
    else (alter key f t).map fun t => (k, n) :: t

/-- Adds a value at a new key. -/
def insertNew (key : String) (v : Value) : Table → Option Table :=
  alter key fun
    | none => some (.value v)
    | some _ => none

/-- Adds a value at a dotted key. The last table on the way has to come from a dotted key, and no
table on the way may have a header of its own, unless it is an element of an array. -/
def insertKey (v : Value) : List String → String → Table → Option Table
  | [], key, t => insertNew key v t
  | k :: path, key, t =>
    alter k (fun
      | none => (insertKey v path key []).map (.table .dotted)
      | some (.table origin entries) =>
        if origin = .header ∨ (path = [] ∧ origin ≠ .dotted) then none
        else (insertKey v path key entries).map (.table origin)
      | some (.elements (latest :: earlier)) =>
        if path = [] then none
        else (insertKey v path key latest).map fun t => .elements (t :: earlier)
      | some _ => none) t

/-- Changes the table at the path of a header; the way leads through the latest elements of arrays
and adds tables that are missing. -/
def modifyAt (f : Table → Option Table) : List String → Table → Option Table
  | [], t => f t
  | k :: path, t =>
    alter k (fun
      | none => (modifyAt f path []).map (.table .implied)
      | some (.table origin entries) => (modifyAt f path entries).map (.table origin)
      | some (.elements (latest :: earlier)) =>
        (modifyAt f path latest).map fun t => .elements (t :: earlier)
      | some _ => none) t

/-- Makes the table of a header, or takes over one that is only implied. -/
def openTable (path : List String) (key : String) : Table → Option Table :=
  modifyAt (alter key fun
    | none => some (.table .header [])
    | some (.table .implied entries) => some (.table .header entries)
    | some _ => none) path

/-- Adds an element to the array of tables of a header. -/
def openElement (path : List String) (key : String) : Table → Option Table :=
  modifyAt (alter key fun
    | none => some (.elements [[]])
    | some (.elements tables) => some (.elements ([] :: tables))
    | some _ => none) path

mutual

/-- The finished value. -/
def Node.toValue : Node → Value
  | .value v => v
  | .table _ entries => .table (finishEntries entries)
  | .elements tables => .array (finishElements tables).reverse

/-- The finished entries of a table. -/
def finishEntries : List (String × Node) → List (String × Value)
  | [] => []
  | (k, n) :: t => (k, n.toValue) :: finishEntries t

/-- The finished elements of an array, in the order given. -/
def finishElements : List (List (String × Node)) → List Value
  | [] => []
  | t :: ts => .table (finishEntries t) :: finishElements ts

end

end DocumentQuery.Toml

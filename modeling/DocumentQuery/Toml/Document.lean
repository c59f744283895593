import DocumentQuery.Toml.Scalar
import DocumentQuery.Toml.Table
/-!
# TOML documents

A document is a list of statements, each on a line: a key with a value, the
header of a table, or the header of an element of an array of tables.

Main definitions:
* `value`: a value, nested to a limited depth.
* `statements`: the statements of a text.
* `parse?`: the root table that the statements make, or `none` if the text is
  malformed or two statements contradict each other.
-/
namespace DocumentQuery.Toml

open DocumentQuery.Parser

/-! ## Values -/

/-- The items of an array, given the parser of one. -/
def arrayOf (item : Parser Value) : Parser Value := do
  char '['
  let items ← separated (do gap; let v ← item; gap; pure v) (char ',')
  let _ ← optional (do guard (!items.isEmpty); char ',')
  gap
  char ']'
  pure (.array items)

/-- A key with a value, given the parser of values: the path, the last segment and the value. -/
def keyValue (item : Parser Value) : Parser (List String × String × Value) := do
  let segments ← key
  char '='
  space
  let v ← item
  let last ← ofOption segments.getLast?
  pure (segments.dropLast, last, v)

/-- The table of keys with values. -/
def tableOf (pairs : List (List String × String × Value)) : Option Table :=
  pairs.foldlM (fun t p => insertKey p.2.2 p.1 p.2.1 t) []

/-- A table on one line, given the parser of values. -/
def inlineTableOf (item : Parser Value) : Parser Value := do
  char '\x7b'
  let pairs ← separated (do let p ← keyValue item; space; pure p) (char ',')
  space
  char '\x7d'
  let t ← ofOption (tableOf pairs)
  pure (.table (finishEntries t))

/-- A value, with arrays and tables nested at most `depth` deep. -/
def value : Nat → Parser Value
  | 0 => scalar
  | depth + 1 => scalar <|> arrayOf (value depth) <|> inlineTableOf (value depth)

/-! ## Statements -/

/-- A line of a document. -/
inductive Statement where
  | blank
  | assignment (path : List String) (key : String) (v : Value)
  | table (path : List String) (key : String)
  | element (path : List String) (key : String)

/-- A key in brackets, as its path and its last segment. -/
def header (opening closing : String) : Parser (List String × String) := do
  literal opening
  let segments ← key
  literal closing
  let last ← ofOption segments.getLast?
  pure (segments.dropLast, last)

/-- The header of a table or of an element of an array. -/
def headerStatement : Parser Statement :=
  (do let (path, last) ← header "[[" "]]"; pure (.element path last))
    <|> (do let (path, last) ← header "[" "]"; pure (.table path last))

/-- A statement with its line end, and the blanks in front of the next line. -/
def statement : Parser Statement := do
  let s ← (do newline; pure .blank)
    <|> (do comment; lineEnd; pure .blank)
    <|> (do let s ← headerStatement; trailing; pure s)
    <|> (do
      let (path, last, v) ← keyValue (value (depthLimit - 1))
      trailing
      pure (.assignment path last v))
  space
  pure s

/-- The statements of a whole text, which may start with a byte-order mark. -/
def statements : Parser (List Statement) := do
  let _ ← optional (char '\uFEFF')
  space
  let list ← many statement
  endOfText
  pure list

/-! ## Documents -/

/-- A document under construction, with the path of the table that keys are added to. -/
structure Draft where
  root : Table
  current : List String

namespace Draft

/-- The document after one more statement. -/
def add (d : Draft) : Statement → Option Draft
  | .blank => some d
  | .assignment path key v => do
    let root ← modifyAt (insertKey v path key) d.current d.root
    pure { d with root }
  | .table path key => do
    let root ← openTable path key d.root
    pure { root, current := path ++ [key] }
  | .element path key => do
    let root ← openElement path key d.root
    pure { root, current := path ++ [key] }

end Draft

/-- The value of a document. -/
def parse? (text : String) : Option Value := do
  let (list, _) ← statements text.toList
  let draft ← list.foldlM Draft.add ⟨[], []⟩
  pure (.table (finishEntries draft.root))

end DocumentQuery.Toml

import DocumentQuery.Dialect.Render
import DocumentQuery.Schema.Catalog
/-!
# Reports

The texts that the commands print: the fields of a catalog, the result of a
check, what a dialect can express, and a rendered query. Columns are filled
with blanks to a fixed width.
-/
namespace DocumentQuery.Report

/-- The text with blanks after it, up to a width. -/
def pad (width : Nat) (s : String) : String :=
  s ++ String.ofList (List.replicate (width - s.length) ' ')

/-- A line of text. -/
def line (s : String) : String := s ++ "\n"

/-- The lines of a text. -/
def lines (l : List String) : String := String.join (l.map line)

/-- The text after a mark of success. -/
def passed (s : String) : String := line ("✓ " ++ s)

/-! ## Catalogs -/

/-- The line of a field. -/
def fieldLine (path : String) (type : String) (required : Bool) : String :=
  "  " ++ pad 30 path ++ " " ++ pad 10 type ++ " " ++ (if required then "required" else "")

/-- The lines of a collection and its fields. -/
def collectionLines (t : String × FieldTable) : List String :=
  t.1 :: t.2.entries.map fun e => fieldLine e.1 e.2.type.name e.2.required

/-- All collections with their fields. -/
def catalog (c : Catalog) : String :=
  if c.tables.isEmpty then line "(no collections)" else lines (c.tables.flatMap collectionLines)

/-! ## Capabilities -/

/-- A line with a name and what belongs to it. -/
def entryLine (name value : String) : String := "  " ++ pad 16 name ++ " " ++ value

/-- Tokens in a row, or a dash for none. -/
def tokenRow (tokens : List String) : String :=
  if tokens.isEmpty then "-" else " ".intercalate tokens

/-- What a dialect can express. -/
def capabilities (d : Dialect) : String :=
  let operations := (Vocabulary.all : List Operation).map fun op =>
    entryLine op.token (if d.supportsOperation op then "yes" else "no")
  lines (d.name :: operations ++
    [entryLine "filters" (tokenRow (Dialect.tokensWhere d.supportsFilter)),
      entryLine "logic" (tokenRow (Dialect.tokensWhere d.supportsLogic)),
      entryLine "updates" (tokenRow (Dialect.tokensWhere d.supportsUpdate)),
      entryLine "stages" (tokenRow (Dialect.tokensWhere d.supportsStage)), ""])

/-! ## Queries -/

/-- The numbered list of parameters, if there are any. -/
def parameterLines (names : List String) : List String :=
  if names.isEmpty then []
  else "" :: "Parameters:" :: (names.zipIdx 1).map fun p => "  " ++ toString p.2 ++ " :" ++ p.1

/-- A rendered query and its parameters. -/
def rendered (d : Dialect) (r : Rendered) : String :=
  lines (("Rendered for " ++ d.name) :: r.body.pretty :: parameterLines r.paramNames)

end DocumentQuery.Report

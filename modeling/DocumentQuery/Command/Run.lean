import DocumentQuery.Command.Arguments
import DocumentQuery.Command.Report
import DocumentQuery.Schema.Encoding
/-!
# Running a command

`Command.run` gives what a command prints, from the text of the schema file.

Main definitions:
* `ReadFault`: why the schema file cannot be read.
* `Failure`: why a command fails, and `Failure.message`: the failure with its
  causes.
* `conditionOf`: a filter as written on the command line, `path:op:param`.
* `FindRequest.build`: the find that a command line asks for.
-/
namespace DocumentQuery

/-! ## Failures -/

/-- Why a file cannot be read. -/
inductive ReadFault where
  | missing
  | denied
  | notDirectory
  | directory
  | nameTooLong
  | notText
deriving DecidableEq

namespace ReadFault

/-- The fault in words, with the system's number for it where there is one. -/
def message : ReadFault → String
  | .missing => "No such file or directory (os error 2)"
  | .denied => "Permission denied (os error 13)"
  | .notDirectory => "Not a directory (os error 20)"
  | .directory => "Is a directory (os error 21)"
  | .nameTooLong => "File name too long (os error 36)"
  | .notText => "stream did not contain valid UTF-8"

end ReadFault

/-- Why a command fails. -/
inductive Failure where
  | error (e : Error)
  | malformedFilter (text : String)
  | unreadableSchema (path : String) (fault : ReadFault)
  | malformedSchema (path : String)
deriving DecidableEq

namespace Failure

/-- The cause behind an error, if it wraps one. -/
def cause : Error → String
  | .invalidQuery fault => ": " ++ fault.message
  | _ => ""

/-- The failure in words, each cause after what it led to. -/
def message : Failure → String
  | .error e => e.message ++ cause e
  | .malformedFilter text => "invalid filter '" ++ text ++ "': expected path:op:param"
  | .unreadableSchema path fault =>
    "failed to load schema from " ++ path ++ ": IO error: " ++ fault.message ++ ": "
      ++ fault.message
  | .malformedSchema path => "failed to load schema from " ++ path ++ ": " ++ Error.malformedToml.message

/-- The failure as it is reported. -/
def report (f : Failure) : String := "Error: " ++ f.message

end Failure

/-- Takes an error for a failure. -/
def liftError {α : Type} (x : Except Error α) : Except Failure α := x.mapError .error

/-! ## Schemas -/

/-- A schema file: its path, and its text or why that cannot be read. -/
structure SchemaFile where
  path : String
  text : Except ReadFault String

namespace SchemaFile

/-- The catalog of the schema in the file. -/
def catalog (f : SchemaFile) : Except Failure Catalog := do
  let text ← f.text.mapError (.unreadableSchema f.path)
  let some schema := Schema.ofToml? text | throw (.malformedSchema f.path)
  liftError (Catalog.ofSchema schema)

end SchemaFile

/-! ## Finds -/

/-- The parts of a text before and after its first colon. -/
def splitColon? (cs : List Char) : Option (List Char × List Char) :=
  match cs.span (· != ':') with
  | (_, []) => none
  | (before, _ :: after) => some (before, after)

/-- The path, operator and parameter of a written filter: the text between its first two colons
and on either side. -/
def splitCondition? (text : String) : Option (String × String × String) := do
  let (path, rest) ← splitColon? text.toList
  let (op, param) ← splitColon? rest
  pure (String.ofList path, String.ofList op, String.ofList param)

/-- The token of an operator that may be written without `$`. -/
def operatorToken (op : String) : String :=
  if op.toList.head? == some '$' then op else "$" ++ op

/-- The condition of a written filter; the operator is read before the names. -/
def conditionOf (c : Catalog) (collection text : String) : Except Failure Filter := do
  let some (path, op, param) := splitCondition? text | throw (.malformedFilter text)
  let operator ← liftError (readToken (operatorToken op))
  let field ← liftError (c.field collection path)
  let value ← liftError (Param.ofName param)
  pure (.condition field operator value)

/-- The path and order of a written sort: a dash in front turns it round. -/
def splitSort (text : String) : String × SortOrder :=
  match text.toList with
  | '-' :: path => (String.ofList path, .descending)
  | _ => (text, .ascending)

/-- The call of a written sort. -/
def sortOf (c : Catalog) (collection text : String) : Except Failure Call := do
  let (path, order) := splitSort text
  let field ← liftError (c.field collection path)
  pure (.sort field order)

namespace FindRequest

/-- The find that is asked for. -/
def build (r : FindRequest) (c : Catalog) : Except Failure Builder := do
  let target ← liftError (c.collection r.collection)
  let filters ← r.filters.mapM (conditionOf c r.collection)
  let sorts ← r.sorts.mapM (sortOf c r.collection)
  let calls := filters.map Call.filter ++ sorts ++ (r.limit.map Call.limit).toList
    ++ (r.skip.map Call.skip).toList
  pure ((Builder.start .find target).run calls)

/-- The find in its dialect. -/
def render (r : FindRequest) (c : Catalog) : Except Failure Rendered := do
  let b ← r.build c
  liftError (b.render r.dialect)

end FindRequest

/-! ## Commands -/

namespace Command

/-- What a check prints. -/
def runCheck (c : Catalog) (collection : String) : Option String → Except Failure String
  | none => do
    let target ← liftError (c.collection collection)
    pure (Report.passed target.name)
  | some path => do
    let field ← liftError (c.field collection path)
    let type := ((c.fieldType? collection path).map FieldType.name).getD ""
    pure (Report.passed (field.text ++ " " ++ type))

/-- What a command prints, given the schema file. -/
def run (file : SchemaFile) : Command → Except Failure String
  | .schema => do
    let c ← file.catalog
    pure (Report.catalog c)
  | .check collection field => do
    let c ← file.catalog
    runCheck c collection field
  | .param name => do
    let p ← liftError (Param.ofName name)
    pure (Report.passed p.placeholder)
  | .capabilities (some d) => pure (Report.capabilities d)
  | .capabilities none => pure (String.join (Dialect.all.map Report.capabilities))
  | .find request => do
    let c ← file.catalog
    let r ← request.render c
    pure (Report.rendered request.dialect r)

end Command

/-! ## Command lines -/

/-- How the program ends: its exit code and what it prints. -/
structure Outcome where
  exitCode : UInt32
  output : String
  errors : String

namespace Outcome

/-- The name and version of the program. -/
def versionLine : String := Report.line "docql 0.1.0"

/-- How the program is called. -/
def usage : String :=
  Report.lines ["Usage: docql [--schema FILE] [--verbose] COMMAND", "", "Commands:", "  schema",
    "  check COLLECTION [FIELD]", "  param NAME", "  caps [DIALECT]",
    "  find COLLECTION [--filter PATH:OP:PARAM]... [--sort [-]PATH]... [--limit N] [--skip N] [--dialect DIALECT]"]

/-- The outcome of a command. -/
def ofResult : Except Failure String → Outcome
  | .ok text => ⟨0, text, ""⟩
  | .error f => ⟨1, "", Report.line f.report⟩

/-- The outcome of what a command line asks for; `open_` gives the schema file at the path asked
for, if one is. -/
def ofReading (open_ : Option String → SchemaFile) : Option Reading → Outcome
  | none => ⟨2, "", usage⟩
  | some .help => ⟨0, usage, ""⟩
  | some .version => ⟨0, versionLine, ""⟩
  | some (.command path c) => ofResult (c.run (open_ path))

end Outcome

end DocumentQuery

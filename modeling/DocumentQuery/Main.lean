import DocumentQuery.Command.Run
/-!
# The program

Reads the command line and the schema file, and prints what the command gives.
The schema file is the one on the command line, else the one in the variable
`DOCQL_SCHEMA`, else `docql/schema.toml` in the configuration directory.
-/
namespace DocumentQuery

/-- The configuration directory; a relative one in the environment does not count. -/
def configDirectory : IO String := do
  let given ← IO.getEnv "XDG_CONFIG_HOME"
  match given.filter (·.startsWith "/") with
  | some directory => pure directory
  | none =>
    let home ← IO.getEnv "HOME"
    pure (home.getD "" ++ "/.config")

/-- The path of the schema file, unless the command line gives one. -/
def defaultSchemaPath : IO String := do
  match ← IO.getEnv "DOCQL_SCHEMA" with
  | some path => pure path
  | none => pure ((← configDirectory) ++ "/docql/schema.toml")

/-- Why a file cannot be read, from the error of reading it. -/
def readFault : IO.Error → ReadFault
  | .permissionDenied .. => .denied
  | .inappropriateType _ 21 _ => .directory
  | .inappropriateType .. => .notDirectory
  | .invalidArgument .. => .nameTooLong
  | .userError _ => .notText
  | _ => .missing

/-- The text of a file, or why it cannot be read. -/
def readText (path : String) : IO (Except ReadFault String) := do
  try
    let text ← IO.FS.readFile path
    pure (.ok text)
  catch e => pure (.error (readFault e))

/-- The schema file that a command needs. -/
def schemaFile (r : Option Reading) : IO SchemaFile := do
  match r with
  | some (.command asked c) =>
    if c.usesSchema then
      let path ← match asked with
        | some path => pure path
        | none => defaultSchemaPath
      pure ⟨path, ← readText path⟩
    else pure ⟨"", .error .missing⟩
  | _ => pure ⟨"", .error .missing⟩

end DocumentQuery

/-- Runs the program. -/
def main (arguments : List String) : IO UInt32 := do
  let reading := DocumentQuery.Reading.ofArguments? arguments
  let file ← DocumentQuery.schemaFile reading
  let outcome := DocumentQuery.Outcome.ofReading (fun _ => file) reading
  IO.print outcome.output
  IO.eprint outcome.errors
  pure outcome.exitCode

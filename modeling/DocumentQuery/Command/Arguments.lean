import DocumentQuery.Dialect.Basic
/-!
# Command lines

Main definitions:
* `Command`: what the program is asked to do.
* `Reading.ofArguments?`: reads a command line, or gives `none` where it is
  not one: an unknown command or option, a missing or surplus argument, an
  option repeated that may not be, a malformed number or dialect.

Options may stand before and after the command, as far as they apply there. A
value follows its option as the next argument, after `=`, or after the letter
of the option; letters of options without value may be run together. The next
argument is no value if it starts with `-`, except after an option that takes
any. After `--`, every argument is a word.
-/
namespace DocumentQuery

/-! ## Options -/

/-- The options of the command line. -/
inductive OptionName where
  | schema
  | verbose
  | help
  | version
  | filter
  | sort
  | limit
  | skip
  | dialect
deriving DecidableEq, Repr

namespace OptionName

/-- The name after two dashes. -/
def long : OptionName → String
  | .schema => "schema"
  | .verbose => "verbose"
  | .help => "help"
  | .version => "version"
  | .filter => "filter"
  | .sort => "sort"
  | .limit => "limit"
  | .skip => "skip"
  | .dialect => "dialect"

/-- The letter after one dash, if there is one. -/
def letter? : OptionName → Option Char
  | .schema => some 's'
  | .verbose => some 'v'
  | .help => some 'h'
  | .version => some 'V'
  | .filter => some 'f'
  | .limit => some 'l'
  | .dialect => some 'd'
  | .sort | .skip => none

/-- Whether the option takes a value. -/
def takesValue : OptionName → Bool
  | .verbose | .help | .version => false
  | _ => true

/-- Whether the option asks for a text instead of a command. -/
def asksForText : OptionName → Bool
  | .help | .version => true
  | _ => false

/-- Whether the value may start with a dash where it is an argument of its own. -/
def takesDash : OptionName → Bool
  | .sort => true
  | _ => false

/-- The options that apply before the command. -/
def beforeCommand : List OptionName := [.schema, .verbose, .help, .version]

/-- The options that apply after every command. -/
def afterCommand : List OptionName := [.schema, .verbose, .help]

/-- The options that apply after a find. -/
def afterFind : List OptionName :=
  afterCommand ++ [.filter, .sort, .limit, .skip, .dialect]

end OptionName

/-! ## Values -/

/-- The unsigned numbers of 64 bits lie below this one. -/
def wordSize : Nat := Nat.pow 2 64

/-- An unsigned number of 64 bits in decimal digits, with or without a plus sign. -/
def readNumber? (s : String) : Option Nat :=
  let digits := match s.toList with
    | '+' :: cs => cs
    | cs => cs
  if digits.isEmpty || !digits.all Char.isDigit then none
  else
    let n := digits.foldl (fun n c => 10 * n + (c.toNat - 48)) 0
    if n < wordSize then some n else none

/-- The options read so far, with their values. -/
structure Options where
  schema : Option String := none
  verbose : Bool := false
  help : Bool := false
  version : Bool := false
  filters : List String := []
  sorts : List String := []
  limit : Option Nat := none
  skip : Option Nat := none
  dialect : Option Dialect := none

namespace Options

/-- Sets a value that has not been set. -/
def setOnce {α : Type} (slot value : Option α) : Option (Option α) :=
  match slot, value with
  | none, some a => some (some a)
  | _, _ => none

/-- Adds an option with a value. -/
def addValue (o : Options) (name : OptionName) (value : String) : Option Options :=
  match name with
  | .schema =>
    (setOnce o.schema (if value.isEmpty then none else some value)).map ({ o with schema := · })
  | .filter => some { o with filters := o.filters ++ [value] }
  | .sort => some { o with sorts := o.sorts ++ [value] }
  | .limit => (setOnce o.limit (readNumber? value)).map ({ o with limit := · })
  | .skip => (setOnce o.skip (readNumber? value)).map ({ o with skip := · })
  | .dialect => (setOnce o.dialect (Dialect.ofName? value)).map ({ o with dialect := · })
  | .verbose | .help | .version => none

/-- Adds an option without value. -/
def addFlag (o : Options) : OptionName → Option Options
  | .verbose => if o.verbose then none else some { o with verbose := true }
  | .help => some { o with help := true }
  | .version => some { o with version := true }
  | _ => none

/-- Whether an option asks for a text instead of a command. -/
def asksForText (o : Options) : Bool := o.help || o.version

end Options

/-! ## Arguments -/

/-- What an argument is: a word, the end of all options, or options, of which the last may still
need its value. -/
inductive Argument where
  | word
  | endOfOptions
  | options (flags : List OptionName) (last : Option (OptionName × Option String))

namespace Argument

/-- An option by name, with the value after `=` if there is one. -/
def ofLong? (known : List OptionName) (text : List Char) : Option Argument := do
  let (name, rest) := text.span (· != '=')
  let option ← known.find? fun o => o.long.toList == name
  let attached := match rest with
    | [] => none
    | _ :: value => some (String.ofList value)
  if option.takesValue then pure (.options [] (some (option, attached)))
  else if attached.isNone then pure (.options [option] none)
  else none

/-- Options by letter: any number without value, then at most one with a value. The letters after
one that asks for a text are not looked at. -/
def ofLetters? (known : List OptionName) : List Char → Option Argument
  | [] => some (.options [] none)
  | c :: cs => do
    let option ← known.find? fun o => o.letter? == some c
    if option.asksForText then pure (.options [option] none)
    else if option.takesValue then
      let attached := match cs with
        | [] => none
        | '=' :: value => some (String.ofList value)
        | value => some (String.ofList value)
      pure (.options [] (some (option, attached)))
    else
      match ← ofLetters? known cs with
      | .options flags last => pure (.options (option :: flags) last)
      | other => pure other

/-- What an argument is where the options in `known` apply. -/
def ofText? (known : List OptionName) (text : String) : Option Argument :=
  match text.toList with
  | ['-', '-'] => some .endOfOptions
  | '-' :: '-' :: name => ofLong? known name
  | '-' :: c :: cs => ofLetters? known (c :: cs)
  | _ => some .word

end Argument

/-- Whether an argument can be the value of an option before it. -/
def isValueFor (o : OptionName) (text : String) : Bool :=
  o.takesDash ||
    match text.toList with
    | '-' :: _ :: _ => false
    | _ => true

/-! ## Commands -/

/-- The names of the commands. -/
inductive CommandName where
  | schema
  | check
  | param
  | caps
  | find
deriving DecidableEq, Repr

namespace CommandName

/-- The command by the word that asks for it. -/
def ofWord? : String → Option CommandName
  | "schema" => some .schema
  | "check" => some .check
  | "param" => some .param
  | "caps" => some .caps
  | "find" => some .find
  | _ => none

/-- Whether a word names what help can be asked for: a command, or help itself. -/
def isTopic (word : String) : Bool := word == "help" || (ofWord? word).isSome

/-- The options that apply after the command. -/
def options : CommandName → List OptionName
  | .find => OptionName.afterFind
  | _ => OptionName.afterCommand

/-- Whether words may stand after the command, as far as they go: there are not too many of them,
and one that names a dialect does. -/
def acceptsWords : CommandName → List String → Bool
  | .schema, words => words.isEmpty
  | .check, words => words.length ≤ 2
  | .param, words | .find, words => words.length ≤ 1
  | .caps, words => words.length ≤ 1 && words.all fun w => (Dialect.ofName? w).isSome

end CommandName

/-- What has been read of the arguments of a command. -/
structure Arguments where
  options : Options := {}
  words : List String := []

namespace Arguments

/-- Adds words that may stand after the command. -/
def addWords (a : Arguments) (name : CommandName) (words : List String) : Option Arguments :=
  let all := a.words ++ words
  if name.acceptsWords all then some { a with words := all } else none

/-- Adds options without value. -/
def addFlags (a : Arguments) (flags : List OptionName) : Option Arguments :=
  (flags.foldlM Options.addFlag a.options).map ({ a with options := · })

/-- Adds an option with a value. -/
def addValue (a : Arguments) (o : OptionName) (value : String) : Option Arguments :=
  (a.options.addValue o value).map ({ a with options := · })

/-- Reads the arguments of a command from left to right, up to an option that asks for a text. -/
def read? (name : CommandName) (a : Arguments) : List String → Option Arguments
  | [] => some a
  | text :: rest => do
    match ← Argument.ofText? name.options text with
    | .word =>
      let a ← a.addWords name [text]
      read? name a rest
    | .endOfOptions => a.addWords name rest
    | .options flags last =>
      let a ← a.addFlags flags
      if a.options.asksForText then pure a
      else
        match last with
        | none => read? name a rest
        | some (o, some value) =>
          let a ← a.addValue o value
          read? name a rest
        | some (o, none) =>
          match rest with
          | [] => none
          | value :: rest =>
            if isValueFor o value then do
              let a ← a.addValue o value
              read? name a rest
            else none

end Arguments

/-- A find as asked for on the command line. -/
structure FindRequest where
  collection : String
  filters : List String
  sorts : List String
  limit : Option Nat
  skip : Option Nat
  dialect : Dialect

/-- What the program is asked to do. -/
inductive Command where
  /-- List the collections and fields of the schema. -/
  | schema
  /-- Check that a collection, and a field if one is given, is in the schema. -/
  | check (collection : String) (field : Option String)
  /-- Check the name of a parameter. -/
  | param (name : String)
  /-- Show what a dialect, or each of them, can express. -/
  | capabilities (dialect : Option Dialect)
  /-- Build and render a find. -/
  | find (request : FindRequest)

namespace Command

/-- Whether the command looks at the schema. -/
def usesSchema : Command → Bool
  | .schema | .check .. | .find _ => true
  | .param _ | .capabilities _ => false

/-- The command of a name, with the words and options after it. -/
def ofArguments? (name : CommandName) (a : Arguments) : Option Command :=
  match name, a.words with
  | .schema, [] => some .schema
  | .check, [collection] => some (.check collection none)
  | .check, [collection, field] => some (.check collection (some field))
  | .param, [name] => some (.param name)
  | .caps, [] => some (.capabilities none)
  | .caps, [dialect] => (Dialect.ofName? dialect).map fun d => .capabilities (some d)
  | .find, [collection] =>
    some (.find
      { collection, filters := a.options.filters, sorts := a.options.sorts,
        limit := a.options.limit, skip := a.options.skip,
        dialect := a.options.dialect.getD default })
  | _, _ => none

end Command

/-! ## Whole command lines -/

/-- What a command line asks for. -/
inductive Reading where
  | version
  | help
  | command (schemaPath : Option String) (c : Command)

namespace Reading

/-- Reads what follows the word that asks for help: nothing, or one topic. -/
def ofTopic? : List String → Option Reading
  | [] => some .help
  | [word] => if CommandName.isTopic word then some .help else none
  | _ => none

/-- Reads what follows the name of a command. A schema given there counts before one in front, and
help asked for there before a value refused in front. -/
def ofCommand? (outer : Option Options) (name : CommandName) (rest : List String) :
    Option Reading := do
  let a ← Arguments.read? name {} rest
  if a.options.help then pure .help
  else
    let outer ← outer
    let c ← Command.ofArguments? name a
    pure (.command (a.options.schema <|> outer.schema) c)

/-- Reads a command line after the options in front, which are `none` if the value of the last one
is refused. A value that is an argument of its own is looked at when something other than a
command follows, so help comes first. -/
def afterOptions? (o : Option Options) : List String → Option Reading
  | [] => none
  | text :: rest => do
    match ← Argument.ofText? OptionName.beforeCommand text with
    | .word =>
      if text == "help" then ofTopic? rest
      else
        let name ← CommandName.ofWord? text
        ofCommand? o name rest
    | .endOfOptions => none
    | .options flags last =>
      let o ← flags.foldlM Options.addFlag (← o)
      if o.version then pure .version
      else if o.help then pure .help
      else
        match last with
        | none => afterOptions? (some o) rest
        | some (name, some value) =>
          let o ← o.addValue name value
          afterOptions? (some o) rest
        | some (name, none) =>
          match rest with
          | [] => none
          | value :: rest =>
            if isValueFor name value then afterOptions? (o.addValue name value) rest
            else none

/-- Reads a command line. -/
def ofArguments? (arguments : List String) : Option Reading := afterOptions? (some {}) arguments

end Reading

end DocumentQuery

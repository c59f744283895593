import DocumentQuery.Json.Basic
/-!
# JSON text

A value is written in one of two layouts: `Json.compact` without any space and
`Json.pretty` with two spaces for each level and one entry on a line. Both
write a string by `Json.quote`: a quotation mark and a backslash are escaped,
five control characters have a letter of their own, the others below U+0020
are written as four hexadecimal digits, and every other character stands as
it is.
-/
namespace DocumentQuery.Json

/-- The hexadecimal digit of a number below sixteen, in lower case. -/
def hexDigit (n : Nat) : Char :=
  if n < 10 then Char.ofNat (48 + n) else Char.ofNat (87 + n)

/-- A character as it stands between quotation marks. -/
def escapeChar (c : Char) : String :=
  if c = '"' then "\\\""
  else if c = '\\' then "\\\\"
  else if c = '\x08' then "\\b"
  else if c = '\x0c' then "\\f"
  else if c = '\n' then "\\n"
  else if c = '\r' then "\\r"
  else if c = '\t' then "\\t"
  else if c.toNat < 32 then
    "\\u00" ++ String.ofList [hexDigit (c.toNat / 16), hexDigit (c.toNat % 16)]
  else c.toString

/-- A string in quotation marks. -/
def quote (s : String) : String :=
  s.toList.foldl (fun text c => text ++ escapeChar c) "\"" ++ "\""

/-- Pieces between two marks, with a separator between neighbours. -/
def enclose (opening separator closing : String) (parts : List String) : String :=
  opening ++ separator.intercalate parts ++ closing

mutual

/-- The text without spaces. -/
def compact : Json → String
  | .null => "null"
  | .bool true => "true"
  | .bool false => "false"
  | .int n => toString n
  | .str s => quote s
  | .arr items => enclose "[" "," "]" (compactItems items)
  | .obj entries => enclose "\x7b" "," "\x7d" (compactEntries entries)

/-- The texts of the items of an array. -/
def compactItems : List Json → List String
  | [] => []
  | v :: items => compact v :: compactItems items

/-- The texts of the entries of an object. -/
def compactEntries : List (String × Json) → List String
  | [] => []
  | (k, v) :: entries => (quote k ++ ":" ++ compact v) :: compactEntries entries

end

/-- A new line, indented by two spaces for each level. -/
def newline (level : Nat) : String :=
  "\n" ++ String.ofList (List.replicate (2 * level) ' ')

/-- Pieces on lines of their own, one level below `level`; nothing between the marks if there are none. -/
def block (level : Nat) (opening closing : String) (parts : List String) : String :=
  if parts.isEmpty then opening ++ closing
  else enclose (opening ++ newline (level + 1)) ("," ++ newline (level + 1))
    (newline level ++ closing) parts

mutual

/-- The text in lines, for a value that starts at the given level. -/
def prettyAt (level : Nat) : Json → String
  | .arr items => block level "[" "]" (prettyItems (level + 1) items)
  | .obj entries => block level "\x7b" "\x7d" (prettyEntries (level + 1) entries)
  | .null => compact .null
  | .bool b => compact (.bool b)
  | .int n => compact (.int n)
  | .str s => compact (.str s)

/-- The items of an array, in lines. -/
def prettyItems (level : Nat) : List Json → List String
  | [] => []
  | v :: items => prettyAt level v :: prettyItems level items

/-- The entries of an object, in lines. -/
def prettyEntries (level : Nat) : List (String × Json) → List String
  | [] => []
  | (k, v) :: entries => (quote k ++ ": " ++ prettyAt level v) :: prettyEntries level entries

end

/-- The text in lines, two spaces for each level. -/
def pretty (v : Json) : String := prettyAt 0 v

end DocumentQuery.Json

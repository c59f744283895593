import DocumentQuery.Text.Parser
/-!
# Lexical grammar of TOML

White space, line ends, comments, strings and keys. A character beyond ASCII
is allowed wherever a printable one is; control characters other than the tab
are not.
-/
namespace DocumentQuery.Toml

open DocumentQuery.Parser

/-! ## Space and comments -/

/-- A blank inside a line. -/
def isSpace (c : Char) : Bool := c == ' ' || c == '\t'

/-- A character of a comment: a tab, or anything printable. -/
def isPrintable (c : Char) : Bool := c == '\t' || (0x20 ≤ c.toNat && c.toNat != 0x7F)

/-- Blanks inside a line. -/
def space : Parser Unit := do
  let _ ← takeWhile isSpace
  pure ()

/-- The end of a line: a line feed, with or without a carriage return before it. -/
def newline : Parser Unit := char '\n' <|> literal "\r\n"

/-- A comment, up to the end of its line. -/
def comment : Parser Unit := do
  char '#'
  let _ ← takeWhile isPrintable
  pure ()

/-- The end of a line or of the text. -/
def lineEnd : Parser Unit := newline <|> endOfText

/-- What may follow a statement on its line. -/
def trailing : Parser Unit := do
  space
  let _ ← optional comment
  lineEnd

/-- One step through blanks, line ends and comments. -/
def gapStep : Parser Unit :=
  (do let _ ← takeWhile1 isSpace; pure ()) <|> newline <|> (do comment; newline)

/-- Blanks, line ends and comments, as between the items of an array. -/
def gap : Parser Unit := do
  let _ ← many gapStep
  pure ()

/-! ## Digits -/

/-- The value of a hexadecimal digit. -/
def hexValue? (c : Char) : Option Nat :=
  if c.isDigit then some (c.toNat - 48)
  else if 'a' ≤ c && c ≤ 'f' then some (c.toNat - 87)
  else if 'A' ≤ c && c ≤ 'F' then some (c.toNat - 55)
  else none

/-- Whether the character is a hexadecimal digit. -/
def isHexDigit (c : Char) : Bool := (hexValue? c).isSome

/-- The number that digits stand for in a base. -/
def natOfDigits (base : Nat) (digits : List Char) : Nat :=
  digits.foldl (fun n c => base * n + (hexValue? c).getD 0) 0

/-! ## Strings -/

/-- The character with the given code, unless the code is a surrogate or too great. -/
def charOfCode (n : Nat) : Parser Char :=
  if n < 0xD800 || (0xDFFF < n && n < 0x110000) then pure (Char.ofNat n) else fail

/-- A character given by its code in a fixed number of digits. -/
def codePoint (digits : Nat) : Parser Char := do
  let cs ← exactly digits isHexDigit
  charOfCode (natOfDigits 16 cs)

/-- What follows the backslash of an escape. -/
def escapeBody : Parser Char :=
  (do char 'b'; pure '\x08') <|> (do char 't'; pure '\t') <|> (do char 'n'; pure '\n')
    <|> (do char 'f'; pure '\x0c') <|> (do char 'r'; pure '\r') <|> (do char '"'; pure '"')
    <|> (do char '\\'; pure '\\') <|> (do char 'u'; codePoint 4) <|> (do char 'U'; codePoint 8)

/-- An escape. -/
def escape : Parser Char := do
  char '\\'
  escapeBody

/-- A character that stands for itself between quotation marks. -/
def isBasicChar (c : Char) : Bool := isPrintable c && c != '"' && c != '\\'

/-- A character that stands for itself between apostrophes. -/
def isLiteralChar (c : Char) : Bool := isPrintable c && c != '\''

/-- A string between quotation marks. -/
def basicString : Parser String := do
  char '"'
  let cs ← many (satisfy isBasicChar <|> escape)
  char '"'
  pure (String.ofList cs)

/-- A string between apostrophes, without escapes. -/
def literalString : Parser String := do
  char '\''
  let cs ← takeWhile isLiteralChar
  char '\''
  pure (String.ofList cs)

/-- A line end inside a string, which always reads as a line feed. -/
def lineFeed : Parser (List Char) := do
  newline
  pure ['\n']

/-- One or two quotes that do not end a string in lines. -/
def innerQuotes (quote : Char) : Parser (List Char) :=
  (do char quote; char quote; notAhead (· == quote); pure [quote, quote])
    <|> (do char quote; notAhead (· == quote); pure [quote])

/-- The three quotes that end a string in lines, after up to two that belong to it. -/
def closingQuotes (quote : Char) : Parser (List Char) := do
  char quote
  char quote
  char quote
  let one ← optional (char quote)
  let two ← optional (char quote)
  pure ((one.map fun _ => quote).toList ++ (two.map fun _ => quote).toList)

/-- A backslash at the end of a line, with all blanks and line ends after it. -/
def lineContinuation : Parser (List Char) := do
  char '\\'
  space
  newline
  let _ ← many ((do let _ ← takeWhile1 isSpace; pure ()) <|> newline)
  pure []

/-- A string in lines: pieces between triple quotes, without a line end right after the first. -/
def linesString (quote : Char) (piece : Parser (List Char)) : Parser String := do
  char quote
  char quote
  char quote
  let _ ← optional newline
  let pieces ← many (piece <|> innerQuotes quote)
  let last ← closingQuotes quote
  pure (String.ofList (pieces.flatten ++ last))

/-- A string between triple quotation marks. -/
def basicLines : Parser String :=
  linesString '"' (takeWhile1 isBasicChar <|> lineContinuation
    <|> (do let c ← escape; pure [c]) <|> lineFeed)

/-- A string between triple apostrophes, without escapes. -/
def literalLines : Parser String :=
  linesString '\'' (takeWhile1 isLiteralChar <|> lineFeed)

/-- A string in any of its four forms. -/
def string : Parser String := basicLines <|> basicString <|> literalLines <|> literalString

/-! ## Keys -/

/-- A character of a key without quotes. -/
def isBareChar (c : Char) : Bool := c.isAlphanum || c == '-' || c == '_'

/-- A key without quotes. -/
def bareKey : Parser String := do
  let cs ← takeWhile1 isBareChar
  pure (String.ofList cs)

/-- One segment of a key. -/
def simpleKey : Parser String := basicString <|> literalString <|> bareKey

/-- The depth to which values nest and keys have segments, less one. -/
def depthLimit : Nat := 80

/-- A key: its segments, with a dot between neighbours. -/
def key : Parser (List String) := do
  let segments ← separated1 (do space; let k ← simpleKey; space; pure k) (char '.')
  guard (segments.length < depthLimit)
  pure segments

end DocumentQuery.Toml

import DocumentQuery.Toml.Lexical
import DocumentQuery.Toml.Value
/-!
# Numbers, dates and other scalars of TOML

Integers have 64 bits with a sign, floats those of double precision. A float
may not be so great that it rounds to infinity, while one that rounds to minus
infinity is let through; infinity may be written as such.
-/
namespace DocumentQuery.Toml

open DocumentQuery.Parser

/-! ## Integers -/

/-- Digits of a class, with single underscores between them. -/
def digitGroups (isDigit : Char → Bool) : Parser (List Char) := do
  let c ← satisfy isDigit
  let cs ← many (satisfy isDigit <|> (do char '_'; satisfy isDigit))
  pure (c :: cs)

/-- The sign of a number, if it has one. -/
def sign : Parser (Option Char) := optional (satisfy fun c => c == '+' || c == '-')

/-- Decimal digits without a zero in front. -/
def decimalDigits : Parser (List Char) :=
  (do notAhead (· == '0'); digitGroups Char.isDigit) <|> (do char '0'; pure ['0'])

/-- Whether the integer has 64 bits with a sign. -/
def inRange (n : Int) : Bool :=
  let bound : Int := Nat.pow 2 63
  0 ≤ n + bound && n < bound

/-- An integer within range. -/
def ranged (n : Int) : Parser Value := do
  guard (inRange n)
  pure (.integer n)

/-- A decimal integer. -/
def decimalInteger : Parser Value := do
  let s ← sign
  let digits ← decimalDigits
  let n : Int := natOfDigits 10 digits
  ranged (if s == some '-' then -n else n)

/-- An integer in another base, after its mark. -/
def basedInteger (mark : String) (base : Nat) (isDigit : Char → Bool) : Parser Value := do
  literal mark
  let digits ← digitGroups isDigit
  ranged (natOfDigits base digits)

/-- An integer. -/
def integer : Parser Value :=
  basedInteger "0x" 16 isHexDigit
    <|> basedInteger "0o" 8 (fun c => '0' ≤ c && c ≤ '7')
    <|> basedInteger "0b" 2 (fun c => c == '0' || c == '1')
    <|> decimalInteger

/-! ## Floats -/

/-- Whether `digits · 10 ^ exponent` rounds to infinity in double precision: it is at least half a
unit above the greatest finite number. -/
def overflows (digits : Nat) (exponent : Int) : Bool :=
  let size : Int := (toString digits).length + exponent
  if digits == 0 || size < 300 then false
  else if 320 < size then true
  else
    let threshold := Nat.pow 2 1024 - Nat.pow 2 970
    if 0 ≤ exponent then threshold ≤ digits * Nat.pow 10 exponent.toNat
    else threshold * Nat.pow 10 (-exponent).toNat ≤ digits

/-- The part of a float after its point. -/
def fraction : Parser (List Char) := do
  char '.'
  digitGroups Char.isDigit

/-- The power of ten of a float. -/
def exponent : Parser Int := do
  let _ ← satisfy fun c => c == 'e' || c == 'E'
  let s ← sign
  let digits ← digitGroups Char.isDigit
  let n : Int := natOfDigits 10 digits
  pure (if s == some '-' then -n else n)

/-- A float with a point, a power of ten, or both. -/
def decimalFloat : Parser Value := do
  let s ← sign
  let whole ← decimalDigits
  let (part, power) ←
    (do let e ← exponent; pure ([], e))
      <|> (do let f ← fraction; let e ← optional exponent; pure (f, e.getD 0))
  let digits := natOfDigits 10 (whole ++ part)
  guard (s == some '-' || !overflows digits (power - part.length))
  pure (.float (String.ofList (s.toList ++ whole ++ ['.'] ++ part) ++ "e" ++ toString power))

/-- Infinity, or the float that is no number. -/
def specialFloat : Parser Value := do
  let s ← sign
  let word ← (do literal "inf"; pure "inf") <|> (do literal "nan"; pure "nan")
  pure (.float (String.ofList s.toList ++ word))

/-! ## Dates and times -/

/-- A number of a fixed number of digits within bounds. -/
def field (digits low high : Nat) : Parser Nat := do
  let cs ← exactly digits Char.isDigit
  let n := natOfDigits 10 cs
  guard (low ≤ n && n ≤ high)
  pure n

/-- Whether February has 29 days. -/
def isLeap (year : Nat) : Bool := year % 4 == 0 && (year % 100 != 0 || year % 400 == 0)

/-- The number of days of a month. -/
def daysIn (year month : Nat) : Nat :=
  if month == 2 then (if isLeap year then 29 else 28)
  else if month == 4 || month == 6 || month == 9 || month == 11 then 30
  else 31

/-- A date. -/
def date : Parser String := do
  let year ← field 4 0 9999
  char '-'
  let month ← field 2 1 12
  char '-'
  let day ← field 2 1 31
  guard (day ≤ daysIn year month)
  pure (toString year ++ "-" ++ toString month ++ "-" ++ toString day)

/-- A time of day, with or without a part of a second. -/
def time : Parser String := do
  let hour ← field 2 0 23
  char ':'
  let minute ← field 2 0 59
  char ':'
  let second ← field 2 0 60
  let part ← optional do
    char '.'
    takeWhile1 Char.isDigit
  pure (toString hour ++ ":" ++ toString minute ++ ":" ++ toString second ++ "."
    ++ String.ofList (part.getD ['0']))

/-- The distance of a time from universal time. -/
def offset : Parser String :=
  (do let _ ← satisfy (fun c => c == 'Z' || c == 'z'); pure "Z")
    <|> (do
      let s ← satisfy fun c => c == '+' || c == '-'
      let hours ← field 2 0 23
      char ':'
      let minutes ← field 2 0 59
      pure (s.toString ++ toString hours ++ ":" ++ toString minutes))

/-- The time that may follow a date. -/
def timeAfterDate : Parser String := do
  let _ ← satisfy fun c => c == 'T' || c == 't' || c == ' '
  let t ← time
  let o ← optional offset
  pure ("T" ++ t ++ o.getD "")

/-- A date, a time, or both. -/
def dateTime : Parser Value :=
  (do
    let d ← date
    let t ← optional timeAfterDate
    pure (.datetime (d ++ t.getD "")))
    <|> (do let t ← time; pure (.datetime t))

/-! ## Scalars -/

/-- A value without parts. -/
def scalar : Parser Value :=
  (do let s ← string; pure (.string s))
    <|> dateTime <|> decimalFloat <|> specialFloat <|> integer
    <|> (do literal "true"; pure (.boolean true))
    <|> (do literal "false"; pure (.boolean false))

end DocumentQuery.Toml

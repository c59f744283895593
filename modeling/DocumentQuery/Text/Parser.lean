/-!
# Parsers

A parser takes a text as a list of characters and fails, or gives a result and
the rest of the text. `Parser.many` runs a parser as often as it succeeds; a
run on a text of some length repeats at most that often, so it ends.
-/
namespace DocumentQuery

/-- A function from a text to a result and the rest of the text, which may fail. -/
def Parser (α : Type) : Type := List Char → Option (α × List Char)

namespace Parser

variable {α β : Type}

/-- The parser that reads nothing. -/
protected def pure (a : α) : Parser α := fun cs => some (a, cs)

/-- One parser after the other. -/
protected def bind (p : Parser α) (f : α → Parser β) : Parser β := fun cs =>
  match p cs with
  | none => none
  | some (a, rest) => f a rest

instance : Monad Parser where
  pure := Parser.pure
  bind := Parser.bind

/-- The parser that always fails. -/
def fail : Parser α := fun _ => none

/-- The second parser, if the first fails. -/
protected def orElse (p : Parser α) (q : Unit → Parser α) : Parser α := fun cs =>
  match p cs with
  | none => q () cs
  | some r => some r

instance : OrElse (Parser α) where
  orElse := Parser.orElse

/-- The value, if there is one. -/
def ofOption : Option α → Parser α
  | none => fail
  | some a => pure a

/-- Succeeds if the condition holds. -/
def guard (cond : Bool) : Parser Unit := if cond then pure () else fail

/-- One character of a class. -/
def satisfy (p : Char → Bool) : Parser Char
  | [] => none
  | c :: cs => if p c then some (c, cs) else none

/-- One given character. -/
def char (c : Char) : Parser Unit := do
  let _ ← satisfy (· == c)
  pure ()

/-- A given text. -/
def literal (s : String) : Parser Unit := fun cs =>
  if s.toList.isPrefixOf cs then some ((), cs.drop s.toList.length) else none

/-- All characters of a class at the start of the text, which may be none. -/
def takeWhile (p : Char → Bool) : Parser (List Char) := fun cs => some (cs.span p)

/-- All characters of a class at the start of the text, at least one. -/
def takeWhile1 (p : Char → Bool) : Parser (List Char) := do
  let c ← satisfy p
  let cs ← takeWhile p
  pure (c :: cs)

/-- A given number of characters of a class. -/
def exactly (n : Nat) (p : Char → Bool) : Parser (List Char) := fun cs =>
  let taken := cs.take n
  if taken.length == n && taken.all p then some (taken, cs.drop n) else none

/-- The result of a parser, or `none` where it fails. -/
def optional (p : Parser α) : Parser (Option α) := fun cs =>
  match p cs with
  | none => some (none, cs)
  | some (a, rest) => some (some a, rest)

/-- Succeeds where the text does not start with a character of the class. -/
def notAhead (p : Char → Bool) : Parser Unit
  | [] => some ((), [])
  | c :: cs => if p c then none else some ((), c :: cs)

/-- Succeeds at the end of the text. -/
def endOfText : Parser Unit
  | [] => some ((), [])
  | _ :: _ => none

/-- Runs a parser as often as it succeeds, but at most `n` times. -/
def atMost (p : Parser α) : Nat → List Char → List α × List Char
  | 0, cs => ([], cs)
  | n + 1, cs =>
    match p cs with
    | none => ([], cs)
    | some (a, rest) =>
      let r := atMost p n rest
      (a :: r.1, r.2)

/-- Runs a parser that reads at least one character as often as it succeeds. -/
def many (p : Parser α) : Parser (List α) := fun cs => some (atMost p cs.length cs)

/-- One or more results with a separator between neighbours. -/
def separated1 (p : Parser α) (separator : Parser Unit) : Parser (List α) := do
  let a ← p
  let as ← many do
    separator
    p
  pure (a :: as)

/-- Any number of results with a separator between neighbours. -/
def separated (p : Parser α) (separator : Parser Unit) : Parser (List α) :=
  separated1 p separator <|> pure []

end Parser

end DocumentQuery

import DocumentQuery.Text.Blank
/-!
# Identifiers and field paths

An identifier is a letter or underscore, then letters, digits and underscores,
all ASCII. A field path is one or more such segments with a dot between
neighbours; a segment of a path may also start with `$`. Neither may contain a
suspicious pattern in any letter case.

Main definitions:
* `Identifier.fault?`, `FieldPath.fault?`: why a text is rejected, or `none`.
  The whole text is looked at for emptiness and white space first, then the
  segments from the left, and the patterns last.
* `Identifier.Valid`, `FieldPath.Valid`: the texts without a fault.

Results:
* `intercalate_dotSegments`: the segments of a text, with dots put back between
  them, are the text.
-/
namespace DocumentQuery

/-- Why a name is rejected. -/
inductive NameFault where
  | empty
  | whitespace
  | emptySegment
  | invalidStart (c : Char)
  | invalidChar (c : Char)
  | suspicious (pattern : String)
deriving DecidableEq, Repr

/-- The fault in words, to follow the name. -/
def NameFault.message : NameFault → String
  | .empty => "must not be empty"
  | .whitespace => "must not contain whitespace"
  | .emptySegment => "path segments must not be empty"
  | .invalidStart c => "must start with a letter or underscore, found '" ++ c.toString ++ "'"
  | .invalidChar c => "contains invalid character '" ++ c.toString ++ "'"
  | .suspicious p => "contains suspicious pattern '" ++ p ++ "'"

/-! ## Segments -/

/-- A character that starts an identifier. -/
def isNameStart (c : Char) : Bool := c.isAlpha || c == '_'

/-- A character that continues an identifier. -/
def isNameChar (c : Char) : Bool := c.isAlphanum || c == '_'

/-- The first fault of a segment; `starts` says which characters may come first. -/
def segmentFault? (starts : Char → Bool) : List Char → Option NameFault
  | [] => none
  | c :: cs =>
    if starts c then (cs.find? fun d => !isNameChar d).map .invalidChar
    else some (.invalidStart c)

/-- The pieces of a text between its dots; always at least one. -/
def dotSegments : List Char → List (List Char)
  | [] => [[]]
  | c :: cs =>
    if c = '.' then [] :: dotSegments cs
    else match dotSegments cs with
      | [] => [[c]]
      | s :: rest => (c :: s) :: rest

theorem dotSegments_ne_nil (cs : List Char) : dotSegments cs ≠ [] := by
  induction cs with
  | nil => simp [dotSegments]
  | cons c cs ih =>
    unfold dotSegments
    split
    · simp
    · split <;> simp

theorem intercalate_dotSegments (cs : List Char) : ['.'].intercalate (dotSegments cs) = cs := by
  induction cs with
  | nil => rfl
  | cons c cs ih =>
    have hne := dotSegments_ne_nil cs
    cases h : dotSegments cs with
    | nil => exact absurd h hne
    | cons s rest =>
      rw [h] at ih
      by_cases hc : c = '.'
      · subst hc
        simp [dotSegments, h, List.intercalate] at ih ⊢
        exact ih
      · cases rest <;> simp_all [dotSegments, List.intercalate]

/-! ## Suspicious patterns -/

/-- Patterns that no name may contain, compared in lower case; the first one found is reported. -/
def suspiciousPatterns : List String :=
  [";", "--", "/*", "*/", "'", "\"", "\x60", "\\", " or ", " and ", "drop ", "delete ", "insert ",
    "update ", "select ", "union ", "exec"]

/-- Whether a pattern occurs somewhere in a text. -/
def occursIn (pattern : List Char) : List Char → Bool
  | [] => pattern.isEmpty
  | c :: cs => pattern.isPrefixOf (c :: cs) || occursIn pattern cs

/-- The first suspicious pattern of the text. Only ASCII letters have two cases here, because
every other character is a fault of its own before the patterns are looked at. -/
def patternFault? (cs : List Char) : Option NameFault :=
  (suspiciousPatterns.find? fun p => occursIn p.toList (cs.map Char.toLower)).map .suspicious

/-- The faults of the whole text, whatever its segments are. -/
def blankFault? (cs : List Char) : Option NameFault :=
  if cs.isEmpty then some .empty
  else if cs.any Text.isBlank then some .whitespace
  else none

theorem blankFault?_eq_none_iff {cs : List Char} :
    blankFault? cs = none ↔ cs ≠ [] ∧ ∀ c ∈ cs, Text.isBlank c = false := by
  cases cs with
  | nil => simp [blankFault?]
  | cons c cs => simp [blankFault?]

/-! ## Names -/

namespace Identifier

/-- Why the text is no identifier. -/
def fault? (s : String) : Option NameFault :=
  let cs := s.toList
  blankFault? cs <|> segmentFault? isNameStart cs <|> patternFault? cs

/-- The text is an identifier. -/
def Valid (s : String) : Prop := fault? s = none

instance (s : String) : Decidable (Valid s) := inferInstanceAs (Decidable (fault? s = none))

theorem valid_iff {s : String} : Valid s ↔ blankFault? s.toList = none ∧
    segmentFault? isNameStart s.toList = none ∧ patternFault? s.toList = none := by
  simp [Valid, fault?]

end Identifier

namespace FieldPath

/-- The mark that may start a segment of a path. -/
def marker : Char := '$'

/-- Why a piece between two dots is no segment. -/
def pieceFault? : List Char → Option NameFault
  | [] => some .emptySegment
  | c :: cs => segmentFault? (fun d => isNameStart d || d == marker) (c :: cs)

/-- Why the text is no field path. -/
def fault? (s : String) : Option NameFault :=
  let cs := s.toList
  blankFault? cs <|> (dotSegments cs).findSome? pieceFault? <|> patternFault? cs

/-- The text is a field path. -/
def Valid (s : String) : Prop := fault? s = none

instance (s : String) : Decidable (Valid s) := inferInstanceAs (Decidable (fault? s = none))

theorem valid_iff {s : String} : Valid s ↔ blankFault? s.toList = none ∧
    (dotSegments s.toList).findSome? pieceFault? = none ∧ patternFault? s.toList = none := by
  simp [Valid, fault?]

end FieldPath

end DocumentQuery

/-!
# Suggestions

The edit distance of two texts is the least number of insertions, removals and
replacements of one character that lead from one to the other. A misspelt name
is offered the nearest candidate, the first of equally near ones, if it is near
enough for the length of the name.
-/
namespace DocumentQuery

/-! ## Edit distance -/

/-- The distances of a text with one more character to the later beginnings of `b`, from those of
the text itself (`row`) and the distance just before (`left`). -/
def extendRow (c : Char) (left : Nat) : List Char → List Nat → List Nat
  | d :: b, diagonal :: above :: row =>
    let here := min (min (left + 1) (above + 1)) (if c = d then diagonal else diagonal + 1)
    here :: extendRow c here b (above :: row)
  | _, _ => []

/-- The distances of a text with one more character to all beginnings of `b`. -/
def nextRow (b : List Char) (row : List Nat) (c : Char) : List Nat :=
  match row with
  | [] => []
  | first :: _ => (first + 1) :: extendRow c (first + 1) b row

/-- The distances of a text to all beginnings of `b`, shortest first. -/
def distanceRow (a b : List Char) : List Nat :=
  a.foldl (nextRow b) (List.range (b.length + 1))

/-- The edit distance of two texts. -/
def editDistance (s t : String) : Nat := ((distanceRow s.toList t.toList).getLast?).getD 0

/-! ## The nearest candidate -/

/-- The greatest distance at which a candidate is offered for a name of the given length. -/
def suggestionThreshold (length : Nat) : Nat :=
  if length ≤ 2 then 0 else if length ≤ 5 then 2 else 3

/-- The nearer of the best candidate so far and the next one, which has to be within `limit`. -/
def nearer (input : String) (limit : Nat) (best : Option (String × Nat)) (candidate : String) :
    Option (String × Nat) :=
  let distance := editDistance input candidate
  if distance ≤ limit && (best.all fun b => distance < b.2) then some (candidate, distance)
  else best

/-- The first candidate at the least distance, if that is small enough. -/
def suggest (input : String) (candidates : List String) : Option String :=
  (candidates.foldl (nearer input (suggestionThreshold input.length)) none).map Prod.fst

end DocumentQuery

import DocumentQuery.Dialect.Rendering
/-!
# Conditions for dynamo

A condition expression names no path and no value. It speaks of aliases,
`#n0`, `#n1`, … for paths and `:v0`, `:v1`, … for values, which two maps beside
it resolve.

Main definitions:
* `Condition`: an expression with paths and parameters still in place, and
  `condition`: the expression of a filter.
* `Condition.paths`, `Condition.values`: what the aliases stand for, in the
  order of their numbers.
* `Condition.text`: the expression with aliases, numbered from given starts.
-/
namespace DocumentQuery.Dynamo

/-! ## Aliases -/

/-- How an alias starts, which tells what it stands for. -/
inductive Mark where
  | name
  | value
deriving DecidableEq, Repr

namespace Mark

/-- The mark in front of the number. -/
def text : Mark → String
  | .name => "#n"
  | .value => ":v"

end Mark

/-- The alias with a mark and a number. -/
def aliasWith (mark : Mark) (i : Nat) : String := mark.text ++ toString i

/-- The alias of the path with number `i`. -/
abbrev nameAlias (i : Nat) : String := aliasWith .name i

/-- The alias of the value with number `i`. -/
abbrev valueAlias (i : Nat) : String := aliasWith .value i

/-! ## Expressions -/

/-- How the parts of a condition combine. -/
inductive Joiner where
  | and
  | or
deriving DecidableEq, Repr

namespace Joiner

/-- The joiner between two parts. -/
def text : Joiner → String
  | .and => " AND "
  | .or => " OR "

/-- The joiner of a group, if there is one. -/
def ofLogic? : LogicOperator → Option Joiner
  | .and => some .and
  | .or => some .or
  | .nor | .not => none

end Joiner

/-- A condition: comparisons of one path that all have to hold, whether a path is there, or parts
that combine. -/
inductive Condition where
  | compare (path : String) (comparisons : List (String × Param))
  | presence (path : String) (present : Bool)
  | group (joiner : Joiner) (parts : List Condition)

namespace Condition

mutual

/-- The paths, in the order of their aliases. -/
def paths : Condition → List String
  | .compare path _ => [path]
  | .presence path _ => [path]
  | .group _ parts => pathsOfAll parts

/-- The paths of several conditions. -/
def pathsOfAll : List Condition → List String
  | [] => []
  | c :: cs => paths c ++ pathsOfAll cs

end

mutual

/-- The parameters, in the order of their aliases. -/
def values : Condition → List Param
  | .compare _ comparisons => comparisons.map Prod.snd
  | .presence _ _ => []
  | .group _ parts => valuesOfAll parts

/-- The parameters of several conditions. -/
def valuesOfAll : List Condition → List Param
  | [] => []
  | c :: cs => values c ++ valuesOfAll cs

end

/-- Comparisons of the path with alias number `n`; the values are numbered from `v`. -/
def comparisonTexts (n v : Nat) : List (String × Param) → List String
  | [] => []
  | (sign, _) :: rest =>
    (nameAlias n ++ " " ++ sign ++ " " ++ valueAlias v) :: comparisonTexts n (v + 1) rest

/-- The function that tests whether a path is there. -/
def presenceFunction (present : Bool) : String :=
  if present then "attribute_exists" else "attribute_not_exists"

mutual

/-- The expression, with paths numbered from `n` and values from `v`. -/
def text (n v : Nat) : Condition → String
  | .compare _ comparisons => Joiner.and.text.intercalate (comparisonTexts n v comparisons)
  | .presence _ present => presenceFunction present ++ "(" ++ nameAlias n ++ ")"
  | .group joiner parts => joiner.text.intercalate (textsOfAll n v parts)

/-- Several expressions in parentheses, numbered on from one to the next. -/
def textsOfAll (n v : Nat) : List Condition → List String
  | [] => []
  | c :: cs =>
    ("(" ++ text n v c ++ ")") :: textsOfAll (n + (paths c).length) (v + (values c).length) cs

end

end Condition

/-! ## Filters -/

/-- The comparison of a test, if the test has a sign. -/
def comparison (operator : FilterOperator) (value : Param) : Except Error (String × Param) :=
  match sign? operator with
  | some sign => .ok (sign, value)
  | none => .error (.unsupported .dynamo (.filterOperator operator))

/-- The condition of a range, which needs a bound. -/
def rangeCondition (r : RangeFilter) : Except Error Condition := do
  let comparisons ← r.bounds.mapM fun b => comparison b.1 b.2
  if comparisons.isEmpty then .error (.unsupported .dynamo .unboundedRange)
  else .ok (.compare r.field.path comparisons)

mutual

/-- The condition of a filter. -/
def condition : Filter → Except Error Condition
  | .condition field operator value => do
    let c ← comparison operator value
    pure (.compare field.path [c])
  | .group logic conditions =>
    match Joiner.ofLogic? logic with
    | some joiner => do
      let parts ← conditionsOfAll conditions
      pure (.group joiner parts)
    | none => .error (.unsupported .dynamo (.logicOperator logic))
  | .range r => rangeCondition r
  | .presence field present => .ok (.presence field.path present)
  | .regex .. => .error (.unsupported .dynamo (.filter .regex))
  | .textSearch _ => .error (.unsupported .dynamo (.filter .textSearch))
  | .geo _ => .error (.unsupported .dynamo (.filter .geo))
  | .array .. => .error (.unsupported .dynamo (.filter .array))
  | .elemMatch .. => .error (.unsupported .dynamo (.filter .elemMatch))

/-- The conditions of several filters. -/
def conditionsOfAll : List Filter → Except Error (List Condition)
  | [] => .ok []
  | f :: fs => do
    let c ← condition f
    let cs ← conditionsOfAll fs
    pure (c :: cs)

end

end DocumentQuery.Dynamo

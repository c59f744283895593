import DocumentQuery.Error
/-!
# Filters

A filter is a tree of tests on the documents of a collection. Groups combine
filters by logic, and an element match asks for one element of an array that
passes all its conditions; all other filters are leaves.

Main definitions:
* `RangeFilter.bounds`: the comparisons a range stands for.
* `Filter.nesting`: how far the deepest condition lies below the root.
* `Filter.emptyGroup?`: the logic of the first group without conditions, from
  the root down and from left to right.
-/
namespace DocumentQuery

/-- A field between two bounds, either of which may be missing. -/
structure RangeFilter where
  field : Field
  min : Option Param
  max : Option Param
  /-- Whether the lower bound itself fails the test. -/
  minExclusive : Bool
  /-- Whether the upper bound itself fails the test. -/
  maxExclusive : Bool

namespace RangeFilter

/-- The test of the lower bound. -/
def minOperator (r : RangeFilter) : FilterOperator := if r.minExclusive then .gt else .gte

/-- The test of the upper bound. -/
def maxOperator (r : RangeFilter) : FilterOperator := if r.maxExclusive then .lt else .lte

/-- The comparisons that a range stands for, the lower bound first. -/
def bounds (r : RangeFilter) : List (FilterOperator × Param) :=
  (r.min.map fun p => (r.minOperator, p)).toList ++ (r.max.map fun p => (r.maxOperator, p)).toList

end RangeFilter

/-- A search in the text index of a collection. -/
structure TextSearch where
  search : Param
  language : Option Param
  caseSensitive : Bool
  diacriticSensitive : Bool

/-- A test of a location against a point. -/
structure GeoFilter where
  field : Field
  operator : FilterOperator
  lon : Param
  lat : Param
  radius : Option Param
  maxDistance : Option Param
  minDistance : Option Param

/-- A test on documents. -/
inductive Filter where
  | condition (field : Field) (operator : FilterOperator) (value : Param)
  | group (logic : LogicOperator) (conditions : List Filter)
  | range (r : RangeFilter)
  | regex (field : Field) (pattern : Param) (options : Option Param)
  | textSearch (t : TextSearch)
  | geo (g : GeoFilter)
  | array (field : Field) (operator : FilterOperator) (value : Param)
  | elemMatch (field : Field) (conditions : List Filter)
  | presence (field : Field) (present : Bool)

namespace Filter

/-- The shape of a filter. -/
def kind : Filter → FilterKind
  | .condition .. => .condition
  | .group .. => .group
  | .range .. => .range
  | .regex .. => .regex
  | .textSearch .. => .textSearch
  | .geo .. => .geo
  | .array .. => .array
  | .elemMatch .. => .elemMatch
  | .presence .. => .presence

mutual

/-- The greatest number of steps from the root to a condition below it. -/
def nesting : Filter → Nat
  | .group _ conditions => nestingBelow conditions
  | .elemMatch _ conditions => nestingBelow conditions
  | _ => 0

/-- The nesting of a filter with the given conditions; none at all count as a leaf. -/
def nestingBelow : List Filter → Nat
  | [] => 0
  | f :: fs => max (nesting f + 1) (nestingBelow fs)

end

mutual

/-- The logic of the first group without conditions, depth first. -/
def emptyGroup? : Filter → Option LogicOperator
  | .group logic conditions =>
    if conditions.isEmpty then some logic else emptyGroupIn? conditions
  | .elemMatch _ conditions => emptyGroupIn? conditions
  | _ => none

/-- The logic of the first empty group in a list of filters. -/
def emptyGroupIn? : List Filter → Option LogicOperator
  | [] => none
  | f :: fs => emptyGroup? f <|> emptyGroupIn? fs

end

end Filter

end DocumentQuery

import DocumentQuery.Vocabulary
/-!
# Operators

The vocabularies of a query below its operation: tests on a field, logic
between tests, changes of a field, accumulators of a group, kinds of pipeline
stage, and the two sort orders. Their tokens start with `$`.
-/
namespace DocumentQuery

/-! ## Tests on a field -/

/-- A test of a field against a value. -/
inductive FilterOperator where
  | eq
  | ne
  | gt
  | gte
  | lt
  | lte
  | isIn
  | notIn
  | present
  | type
  | regex
  | text
  | mod
  | all
  | elemMatch
  | size
  | geoWithin
  | geoIntersects
  | near
  | nearSphere
deriving DecidableEq, Repr

namespace FilterOperator

/-- The token of a test. -/
def token : FilterOperator → String
  | .eq => "$eq"
  | .ne => "$ne"
  | .gt => "$gt"
  | .gte => "$gte"
  | .lt => "$lt"
  | .lte => "$lte"
  | .isIn => "$in"
  | .notIn => "$nin"
  | .present => "$exists"
  | .type => "$type"
  | .regex => "$regex"
  | .text => "$text"
  | .mod => "$mod"
  | .all => "$all"
  | .elemMatch => "$elemMatch"
  | .size => "$size"
  | .geoWithin => "$geoWithin"
  | .geoIntersects => "$geoIntersects"
  | .near => "$near"
  | .nearSphere => "$nearSphere"

instance : Vocabulary FilterOperator where
  all := [.eq, .ne, .gt, .gte, .lt, .lte, .isIn, .notIn, .present, .type, .regex, .text, .mod,
    .all, .elemMatch, .size, .geoWithin, .geoIntersects, .near, .nearSphere]
  token := token
  mem_all a := by cases a <;> decide
  distinct := by decide +kernel

/-- Whether the test is one of the six scalar comparisons. -/
def isComparison : FilterOperator → Bool
  | .eq | .ne | .gt | .gte | .lt | .lte => true
  | _ => false

end FilterOperator

/-! ## Logic between tests -/

/-- How the conditions of a group combine. -/
inductive LogicOperator where
  | and
  | or
  | nor
  | not
deriving DecidableEq, Repr

namespace LogicOperator

/-- The token of a combination. -/
def token : LogicOperator → String
  | .and => "$and"
  | .or => "$or"
  | .nor => "$nor"
  | .not => "$not"

instance : Vocabulary LogicOperator where
  all := [.and, .or, .nor, .not]
  token := token
  mem_all a := by cases a <;> decide
  distinct := by decide +kernel

/-- Conditions combine by conjunction unless told otherwise. -/
instance : Inhabited LogicOperator := ⟨.and⟩

end LogicOperator

/-! ## Changes of a field -/

/-- A change of a field. -/
inductive UpdateOperator where
  | set
  | unset
  | setOnInsert
  | inc
  | mul
  | min
  | max
  | rename
  | currentDate
  | addToSet
  | pop
  | pull
  | push
  | pullAll
deriving DecidableEq, Repr

namespace UpdateOperator

/-- The token of a change. -/
def token : UpdateOperator → String
  | .set => "$set"
  | .unset => "$unset"
  | .setOnInsert => "$setOnInsert"
  | .inc => "$inc"
  | .mul => "$mul"
  | .min => "$min"
  | .max => "$max"
  | .rename => "$rename"
  | .currentDate => "$currentDate"
  | .addToSet => "$addToSet"
  | .pop => "$pop"
  | .pull => "$pull"
  | .push => "$push"
  | .pullAll => "$pullAll"

instance : Vocabulary UpdateOperator where
  all := [.set, .unset, .setOnInsert, .inc, .mul, .min, .max, .rename, .currentDate, .addToSet,
    .pop, .pull, .push, .pullAll]
  token := token
  mem_all a := by cases a <;> decide
  distinct := by decide +kernel

end UpdateOperator

/-! ## Accumulators -/

/-- How a group or a bucket gathers an output. -/
inductive AccumulatorOperator where
  | sum
  | avg
  | min
  | max
  | first
  | last
  | push
  | addToSet
  | count
deriving DecidableEq, Repr

namespace AccumulatorOperator

/-- The token of an accumulator. -/
def token : AccumulatorOperator → String
  | .sum => "$sum"
  | .avg => "$avg"
  | .min => "$min"
  | .max => "$max"
  | .first => "$first"
  | .last => "$last"
  | .push => "$push"
  | .addToSet => "$addToSet"
  | .count => "$count"

instance : Vocabulary AccumulatorOperator where
  all := [.sum, .avg, .min, .max, .first, .last, .push, .addToSet, .count]
  token := token
  mem_all a := by cases a <;> decide
  distinct := by decide +kernel

end AccumulatorOperator

/-! ## Pipeline stages -/

/-- The kind of a pipeline stage. -/
inductive StageKind where
  | «match»
  | project
  | group
  | sort
  | limit
  | skip
  | unwind
  | lookup
  | addFields
  | replaceRoot
  | count
  | facet
  | bucket
deriving DecidableEq, Repr

namespace StageKind

/-- The token of a kind of stage. -/
def token : StageKind → String
  | .match => "$match"
  | .project => "$project"
  | .group => "$group"
  | .sort => "$sort"
  | .limit => "$limit"
  | .skip => "$skip"
  | .unwind => "$unwind"
  | .lookup => "$lookup"
  | .addFields => "$addFields"
  | .replaceRoot => "$replaceRoot"
  | .count => "$count"
  | .facet => "$facet"
  | .bucket => "$bucket"

instance : Vocabulary StageKind where
  all := [.match, .project, .group, .sort, .limit, .skip, .unwind, .lookup, .addFields,
    .replaceRoot, .count, .facet, .bucket]
  token := token
  mem_all a := by cases a <;> decide
  distinct := by decide +kernel

end StageKind

/-! ## Sort orders -/

/-- The direction of a sort. -/
inductive SortOrder where
  | ascending
  | descending
deriving DecidableEq, Repr

namespace SortOrder

/-- The direction as a number: `1` up, `-1` down. -/
def sign : SortOrder → Int
  | .ascending => 1
  | .descending => -1

/-- The direction as a word. -/
def word : SortOrder → String
  | .ascending => "asc"
  | .descending => "desc"

end SortOrder

end DocumentQuery

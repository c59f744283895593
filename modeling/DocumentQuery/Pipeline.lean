import DocumentQuery.Expression
import DocumentQuery.Selection
/-!
# Pipelines

An aggregation runs documents through a list of stages. Two kinds of stage
hold pipelines of their own: a look-up in another collection and the facets of
an analysis.

Main definitions:
* `Stage.ownNames`: the names that a stage introduces as keys of its output.
* `Stage.invalidName?`: the first introduced name that is no identifier; a
  stage's own names come before those of the stages inside it.
-/
namespace DocumentQuery

/-- Values by name, in name order. -/
abbrev Named (α : Type) := OrderedMap String α

/-- A stage of an aggregation. -/
inductive Stage where
  | filter (f : Filter)
  | project (projection : Projection) (computed : Named Expression)
  | group (id : Option Expression) (accumulators : Named Accumulator)
  | sort (sorts : List SortClause)
  | limit (value : Pagination)
  | skip (value : Pagination)
  | unwind (path : Field) (includeArrayIndex : Option String) (preserveNullAndEmptyArrays : Bool)
  | lookup (source : Collection) (localField foreignField : Field) (output : String)
    (pipeline : List Stage) (bindings : Named Expression)
  | addFields (fields : Named Expression)
  | replaceRoot (newRoot : Expression)
  | count (name : String)
  | facet (facets : List (String × List Stage))
  | bucket (groupBy : Expression) (boundaries : List Param) (fallback : Option Param)
    (output : Named Accumulator)

namespace Stage

/-- The kind of a stage. -/
def kind : Stage → StageKind
  | .filter .. => .match
  | .project .. => .project
  | .group .. => .group
  | .sort .. => .sort
  | .limit .. => .limit
  | .skip .. => .skip
  | .unwind .. => .unwind
  | .lookup .. => .lookup
  | .addFields .. => .addFields
  | .replaceRoot .. => .replaceRoot
  | .count .. => .count
  | .facet .. => .facet
  | .bucket .. => .bucket

/-- The stage with facets in name order; of equal names the last counts. -/
def ofFacets (facets : List (String × List Stage)) : Stage :=
  .facet (OrderedMap.ofList facets).entries

/-- The names that a stage itself introduces as keys of its output. -/
def ownNames : Stage → List String
  | .group _ accumulators => accumulators.keys
  | .project _ computed => computed.keys
  | .lookup _ _ _ output _ bindings => output :: bindings.keys
  | .addFields fields => fields.keys
  | .count name => [name]
  | .facet facets => facets.map Prod.fst
  | .bucket _ _ _ output => output.keys
  | .unwind _ includeArrayIndex _ => includeArrayIndex.toList
  | .filter .. | .sort .. | .limit .. | .skip .. | .replaceRoot .. => []

/-- The first name that is no identifier, with its fault. -/
def firstInvalid? (names : List String) : Option (String × NameFault) :=
  names.findSome? fun name => (Identifier.fault? name).map fun fault => (name, fault)

mutual

/-- The first invalid name that a stage or a stage inside it introduces. -/
def invalidName? : Stage → Option (String × NameFault)
  | .lookup source localField foreignField output pipeline bindings =>
    firstInvalid? (ownNames (.lookup source localField foreignField output pipeline bindings))
      <|> invalidNameIn? pipeline
  | .facet facets => firstInvalid? (ownNames (.facet facets)) <|> invalidNameInFacets? facets
  | s => firstInvalid? (ownNames s)

/-- The first invalid name that the stages of a list introduce. -/
def invalidNameIn? : List Stage → Option (String × NameFault)
  | [] => none
  | s :: rest => invalidName? s <|> invalidNameIn? rest

/-- The first invalid name that the stages inside facets introduce. -/
def invalidNameInFacets? : List (String × List Stage) → Option (String × NameFault)
  | [] => none
  | (_, stages) :: rest => invalidNameIn? stages <|> invalidNameInFacets? rest

end

mutual

/-- The logic of the first empty group in the filters of a stage, the stages inside it included. -/
def emptyGroup? : Stage → Option LogicOperator
  | .filter f => f.emptyGroup?
  | .lookup _ _ _ _ pipeline _ => emptyGroupIn? pipeline
  | .facet facets => emptyGroupInFacets? facets
  | _ => none

/-- The logic of the first empty group in a list of stages. -/
def emptyGroupIn? : List Stage → Option LogicOperator
  | [] => none
  | s :: rest => emptyGroup? s <|> emptyGroupIn? rest

/-- The logic of the first empty group in the facets. -/
def emptyGroupInFacets? : List (String × List Stage) → Option LogicOperator
  | [] => none
  | (_, stages) :: rest => emptyGroupIn? stages <|> emptyGroupInFacets? rest

end

end Stage

end DocumentQuery

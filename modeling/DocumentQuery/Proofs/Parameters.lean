import DocumentQuery.Proofs.QueryParts
import DocumentQuery.Proofs.RenderedQuery
/-!
# The parameters of a query

Values are bound by position, so the order of the parameters is part of what a
rendered query says. It is read off the query, part by part, and the dialects
differ in it only as far as they leave parts of a find out.

Main definitions:
* `Filter.params`, `Projection.params`, `Stage.params`, …: the parameters of
  each part of a query, in the order of a walk through it.
* `Query.params`: the parameters that a dialect binds.

Results:
* `Query.params_of_write`: the parameters of a write are the same for all
  dialects.
* `params_of_pagination`, `params_of_document`: parts that all dialects render
  alike bind them.
-/
namespace DocumentQuery

open Render (gives_pure)

/-! ## The parameters of each part -/

mutual

/-- The parameters of a filter: bounds from below, a pattern before its options, a search before
its language, and a place before its greatest and its least distance. -/
def Filter.params : Filter → List Param
  | .condition _ _ value => [value]
  | .group _ conditions => Filter.paramsOfAll conditions
  | .range r => r.min.toList ++ r.max.toList
  | .regex _ pattern options => pattern :: options.toList
  | .textSearch t => t.search :: t.language.toList
  | .geo g => g.lon :: g.lat :: ((g.radius <|> g.maxDistance).toList ++ g.minDistance.toList)
  | .array _ _ value => [value]
  | .elemMatch _ conditions => Filter.paramsOfAll conditions
  | .presence _ _ => []

/-- The parameters of several filters. -/
def Filter.paramsOfAll : List Filter → List Param
  | [] => []
  | f :: fs => f.params ++ Filter.paramsOfAll fs

end

/-- The parameters of a slice: its length first, wherever the length is written. -/
def Slice.params (s : Slice) : List Param := s.count :: s.skip.toList

/-- The parameters of a field of a projection. -/
def ProjectionField.params (p : ProjectionField) : List Param :=
  match p.slice, p.elemMatch with
  | some s, _ => s.params
  | none, some conditions => Filter.paramsOfAll conditions
  | none, none => []

/-- The parameters of a projection. -/
def Projection.params (p : Projection) : List Param := p.fields.flatMap ProjectionField.params

/-- The parameter of a count of documents, if it is not a number. -/
def Pagination.params : Pagination → List Param
  | .fixed _ => []
  | .bound p => [p]

/-- The parameters of a document, by field. -/
def Document.params (d : Document) : List Param := d.fields.values

/-- The parameters of an update operation, by field. -/
def UpdateOperation.params (op : UpdateOperation) : List Param :=
  op.fields.values.flatMap Option.toList

mutual

/-- The parameters of an expression. -/
def Expression.params : Expression → List Param
  | .field _ => []
  | .literal value => [value]
  | .operator _ args => Expression.paramsOfAll args
  | .conditional condition consequence alternative =>
    condition.params ++ (consequence.params ++ alternative.params)

/-- The parameters of several expressions. -/
def Expression.paramsOfAll : List Expression → List Param
  | [] => []
  | e :: es => e.params ++ Expression.paramsOfAll es

end

/-- The parameters of an accumulator. -/
def Accumulator.params (a : Accumulator) : List Param := a.expression.elim [] Expression.params

mutual

/-- The parameters of a stage; those of named values come in the order of the names. -/
def Stage.params : Stage → List Param
  | .filter f => f.params
  | .project projection computed => projection.params ++ computed.values.flatMap Expression.params
  | .group id accumulators =>
    id.elim [] Expression.params ++ accumulators.values.flatMap Accumulator.params
  | .limit value => value.params
  | .skip value => value.params
  | .lookup _ _ _ _ pipeline bindings =>
    bindings.values.flatMap Expression.params ++ Stage.paramsOfAll pipeline
  | .addFields fields => fields.values.flatMap Expression.params
  | .replaceRoot newRoot => newRoot.params
  | .facet facets => Stage.paramsOfFacets facets
  | .bucket groupBy boundaries fallback output =>
    groupBy.params ++ (boundaries ++ (fallback.toList ++ output.values.flatMap Accumulator.params))
  | .sort _ | .unwind .. | .count _ => []

/-- The parameters of a list of stages. -/
def Stage.paramsOfAll : List Stage → List Param
  | [] => []
  | s :: rest => s.params ++ Stage.paramsOfAll rest

/-- The parameters of facets. -/
def Stage.paramsOfFacets : List (String × List Stage) → List Param
  | [] => []
  | (_, stages) :: rest => Stage.paramsOfAll stages ++ Stage.paramsOfFacets rest

end

namespace Query

/-- The parameters of the filter. -/
def filterParams (q : Query) : List Param := q.filter.elim [] Filter.params

/-- The parameters of the projection. -/
def projectionParams (q : Query) : List Param := q.projection.elim [] Projection.params

/-- The parameter of the offset. -/
def skipParams (q : Query) : List Param := q.skip.elim [] Pagination.params

/-- The parameter of the limit. -/
def limitParams (q : Query) : List Param := q.limit.elim [] Pagination.params

/-- The parameters of the documents. -/
def documentParams (q : Query) : List Param := q.documents.flatMap Document.params

/-- The parameters of the update operations. -/
def updateParams (q : Query) : List Param := q.updates.flatMap UpdateOperation.params

/-- The parameters that a dialect binds. Only mongo takes parameters in a projection, and dynamo
has no offset. -/
def params (dialect : Dialect) (q : Query) : List Param :=
  match q.operation with
  | .find | .findOne =>
    match dialect with
    | .mongo => q.filterParams ++ q.projectionParams ++ q.skipParams ++ q.limitParams
    | .firestore | .couch => q.filterParams ++ q.limitParams ++ q.skipParams
    | .dynamo => q.filterParams ++ q.limitParams
  | .insert | .insertMany => q.documentParams
  | .update | .updateMany => q.filterParams ++ q.updateParams
  | .delete | .deleteMany | .count | .distinct => q.filterParams
  | .aggregate => Stage.paramsOfAll q.pipeline

/-- The parameters of a write are the same in all dialects. -/
theorem params_of_write {q : Query} (h : q.operation.isRead = false) (dialect other : Dialect) :
    q.params dialect = q.params other := by
  unfold params
  cases hq : q.operation <;> first | rfl | (rw [hq] at h; cases h)

end Query

theorem RangeFilter.map_snd_bounds (r : RangeFilter) :
    r.bounds.map Prod.snd = r.min.toList ++ r.max.toList := by
  unfold RangeFilter.bounds
  cases r.min <;> cases r.max <;> rfl

/-! ## Parts that all dialects render alike -/

theorem params_of_pagination (value : Pagination) (v : Json) (ps : List Param)
    (h : (Render.pagination value).Gives v ps) : ps = value.params := by
  cases value with
  | fixed n => exact (gives_pure.mp h).2
  | bound p => exact (Render.gives_placeholder.mp h).2

theorem params_of_document (d : Document) (v : Json) (ps : List Param)
    (h : (Render.document d).Gives v ps) : ps = d.params :=
  (Render.document_gives.mp h).2

/-- An insertion that passed validation has one document. -/
theorem Query.documentParams_of_insert {q : Query} (hop : q.operation = .insert)
    (h : q.validate = .ok ()) : q.documents.head?.elim [] Document.params = q.documentParams := by
  have hone : q.documents.length = 1 := by
    have hdemand := Query.validateOperation_of_validate h
    rw [Query.validateOperation, hop] at hdemand
    exact beq_iff_eq.mp (Query.require_eq_ok_iff.mp hdemand)
  obtain ⟨d, hd⟩ := List.length_eq_one_iff.mp hone
  simp [hd, Query.documentParams]

end DocumentQuery

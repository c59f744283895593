import DocumentQuery.Proofs.Failures
import DocumentQuery.Proofs.Mongo.EmptyArrays
import DocumentQuery.Proofs.Probes
/-!
# What mongo cannot express

Three things have no form in mongo: a negated group, a test of location with two
greatest distances, and an operator of an expression that is not `$` and an
identifier. A well-formed query fails to render exactly if one of them is among the
parts that its operation renders, and it fails with the error of the first.

Main definitions:
* `Part`: a node of a filter or of an expression.
* `Part.Inexpressible`, `Part.error?`: whether a part has no form, and with which
  error it fails.
* `parts`: the parts that are rendered, in that order.

Results:
* `error?_renderFilter`, `error?_renderExpression`, `error?_renderStages`: each tree
  fails with the error of its first part that has no form.
* `render_eq_error_iff_first`: so does a query.
-/
namespace DocumentQuery.Mongo

open Render (error?_bind error?_map error?_pure error?_two)

/-! ## Parts -/

/-- A node of a filter or of an expression. -/
inductive Part where
  | filter (node : Filter)
  | expression (node : Expression)

namespace Part

/-- The node itself, apart from what is below it, has no form. -/
def Inexpressible : Part → Prop
  | .filter (.group logic _) => logic = .not
  | .filter (.geo g) => g.radius.isSome = true ∧ g.maxDistance.isSome = true
  | .expression (.operator name _) => ¬ ∃ id, name = "$" ++ id ∧ Identifier.Valid id
  | _ => False

/-- The error of a node that has no form. -/
def error? : Part → Option Error
  | .filter (.group .not _) => some (.unsupported .mongo (.logicOperator .not))
  | .filter (.geo g) =>
    if g.radius.isSome && g.maxDistance.isSome then
      some (.construction (.conflictingDistances g.field.path))
    else none
  | .expression (.operator name _) => (operatorFault? name).map (.invalidName .alias name)
  | _ => none

/-- The parts with an error are those that have no form. -/
theorem error?_eq_none_iff {p : Part} : p.error? = none ↔ ¬ p.Inexpressible := by
  rcases p with f | e
  · cases f with
    | group logic conditions => cases logic <;> simp [error?, Inexpressible]
    | geo g => simp [error?, Inexpressible]
    | _ => simp [error?, Inexpressible]
  · cases e with
    | operator name args => simp [error?, Inexpressible, operatorFault?_eq_none_iff]
    | _ => simp [error?, Inexpressible]

end Part

/-- The parts of several filters. -/
def filterParts (fs : List Filter) : List Part := fs.flatMap fun f => f.nodes.map .filter

/-- The parts of several expressions. -/
def expressionParts (es : List Expression) : List Part := es.flatMap fun e => e.nodes.map .expression

/-- The parts of a stage, those of the stages inside it left out. -/
def stageParts (s : Stage) : List Part := filterParts s.rendered ++ expressionParts s.expressions

/-- The parts of a query that are rendered, in that order. -/
def parts (q : Query) : List Part :=
  match q.operation with
  | .aggregate => (Stage.nodesIn q.pipeline).flatMap stageParts
  | _ => filterParts q.rendered

/-! ## The first error -/

/-- The error of the first part that has no form. -/
def firstError? (ps : List Part) : Option Error := ps.findSome? Part.error?

@[simp] theorem firstError?_nil : firstError? [] = none := rfl

@[simp] theorem firstError?_cons (p : Part) (ps : List Part) :
    firstError? (p :: ps) = p.error?.or (firstError? ps) := by
  rw [firstError?, List.findSome?_cons]
  cases p.error? <;> rfl

@[simp] theorem firstError?_append (ps qs : List Part) :
    firstError? (ps ++ qs) = (firstError? ps).or (firstError? qs) := List.findSome?_append

theorem firstError?_flatMap {α : Type} (f : α → List Part) (as : List α) :
    firstError? (as.flatMap f) = as.findSome? fun a => firstError? (f a) := by
  induction as with
  | nil => rfl
  | cons a as ih =>
    rw [List.flatMap_cons, firstError?_append, ih, List.findSome?_cons]
    cases firstError? (f a) <;> rfl

theorem map_nodesOfAll (fs : List Filter) :
    (Filter.nodesOfAll fs).map .filter = filterParts fs := by
  rw [Filter.nodesOfAll_eq, List.map_flatMap, filterParts]

/-! ## Filters -/

mutual

theorem error?_renderFilter : ∀ f : Filter,
    (renderFilter f).error? = firstError? (f.nodes.map .filter)
  | .group .not _ => rfl
  | .group .and conditions | .group .or conditions | .group .nor conditions => by
    rw [renderFilter, if_pos (by rfl), bind_pure_comp, error?_map,
      error?_renderFilters conditions, ← map_nodesOfAll]
    rfl
  | .elemMatch _ conditions => by
    rw [renderFilter, bind_pure_comp, error?_map, error?_renderFilters conditions,
      ← map_nodesOfAll]
    rfl
  | .geo ⟨_, _, _, _, radius, maxDistance, minDistance⟩ => by
    cases radius <;> cases maxDistance <;> cases minDistance <;> rfl
  | .range ⟨_, min, max, _, _⟩ => by cases min <;> cases max <;> rfl
  | .regex _ _ options => by cases options <;> rfl
  | .textSearch ⟨_, language, _, _⟩ => by cases language <;> rfl
  | .condition .. | .array .. | .presence .. => rfl

theorem error?_renderFilters : ∀ fs : List Filter,
    (renderFilters fs).error? = firstError? (filterParts fs)
  | [] => rfl
  | f :: fs => by
    rw [renderFilters, error?_two, error?_renderFilter f, error?_renderFilters fs, filterParts,
      filterParts, List.flatMap_cons, firstError?_append]

end

/-! ## Projections -/

theorem error?_renderProjectionField (p : ProjectionField) :
    (renderProjectionField p).error? =
      firstError? (filterParts (if p.slice.isSome then [] else p.elemMatch.getD [])) := by
  obtain ⟨field, included, slice, elemMatch⟩ := p
  cases slice with
  | some s =>
    obtain ⟨count, skip⟩ := s
    cases skip <;> rfl
  | none =>
    cases elemMatch with
    | none => rfl
    | some conditions =>
      simp only [renderProjectionField, renderMerged, bind_assoc, pure_bind]
      rw [error?_bind fun vs => error?_pure _, Option.or_none, error?_renderFilters]
      rfl

theorem error?_renderProjectionEntries (p : Projection) :
    (renderProjectionEntries p).error? = firstError? (filterParts p.matched) := by
  rw [renderProjectionEntries, Render.error?_each, filterParts, Projection.matched,
    List.flatMap_assoc, firstError?_flatMap]
  simp only [error?_renderProjectionField, filterParts]

theorem error?_renderProjection (p : Projection) :
    (renderProjection p).error? = firstError? (filterParts p.matched) := by
  rw [renderProjection, bind_pure_comp, error?_map, error?_renderProjectionEntries]

/-! ## Expressions -/

mutual

theorem error?_renderExpression : ∀ e : Expression,
    (renderExpression e).error? = firstError? (e.nodes.map .expression)
  | .field _ | .literal _ => rfl
  | .operator name args => by
    have hargs : ∀ u : Unit, (do
        let vs ← renderExpressions args
        pure (.single name (.arr vs)) : Render Json).error? =
          firstError? (expressionParts args) := by
      intro u
      rw [bind_pure_comp, error?_map, error?_renderExpressions args]
    rw [renderExpression, error?_bind hargs, checkOperator, Expression.nodes,
      Expression.nodesOfAll_eq, List.map_cons, List.map_flatMap, firstError?_cons, Part.error?]
    cases operatorFault? name <;> rfl
  | .conditional condition consequence alternative => by
    rw [renderExpression, Render.error?_three, error?_renderExpression condition,
      error?_renderExpression consequence, error?_renderExpression alternative,
      ← firstError?_append, ← firstError?_append, ← List.map_append, ← List.map_append]
    rfl

theorem error?_renderExpressions : ∀ es : List Expression,
    (renderExpressions es).error? = firstError? (expressionParts es)
  | [] => rfl
  | e :: es => by
    rw [renderExpressions, error?_two, error?_renderExpression e, error?_renderExpressions es,
      expressionParts, expressionParts, List.flatMap_cons, firstError?_append]

end

theorem error?_renderNamed (m : Named Expression) :
    (renderNamed m).error? = firstError? (expressionParts m.values) := by
  rw [renderNamed, Render.error?_entriesBy, expressionParts, firstError?_flatMap]
  simp only [error?_renderExpression]

theorem error?_renderAccumulators (m : Named Accumulator) :
    (renderAccumulators m).error? =
      firstError? (expressionParts (m.values.filterMap Accumulator.expression)) := by
  rw [renderAccumulators, Render.error?_entriesBy]
  induction m.values with
  | nil => rfl
  | cons a as ih =>
    rw [List.findSome?_cons, renderAccumulator, bind_pure_comp, error?_map, Render.error?_optional]
    cases ha : a.expression with
    | none => rw [List.filterMap_cons_none ha]; exact ih
    | some e =>
      rw [List.filterMap_cons_some ha, expressionParts, List.flatMap_cons, firstError?_append,
        Option.bind_some, error?_renderExpression, ih, expressionParts]
      cases firstError? (e.nodes.map .expression) <;> rfl

/-! ## Stages -/

/-- The parts of a stage that has no filters are those of its expressions. -/
theorem stageParts_of_unfiltered {s : Stage} (hfilter : s.filter? = none)
    (hprojection : s.projection? = none) : stageParts s = expressionParts s.expressions := by
  rw [stageParts, Stage.rendered, hfilter, hprojection]
  rfl

/-- A stage with no stages inside it has only its own parts. -/
theorem stageParts_of_flat {s : Stage} (h : s.nodes = [s]) :
    s.nodes.flatMap stageParts = stageParts s := by
  rw [h, List.flatMap_singleton]

theorem error?_renderKey (id : Option Expression) :
    (Render.optional renderExpression id).error? = firstError? (expressionParts id.toList) := by
  rw [Render.error?_optional]
  cases id with
  | none => rfl
  | some e =>
    rw [Option.bind_some, error?_renderExpression, Option.toList_some, expressionParts,
      List.flatMap_singleton]

theorem error?_renderBucket (groupBy : Expression) (boundaries : List Param)
    (fallback : Option Param) (output : Named Accumulator) :
    (renderBucket groupBy boundaries fallback output).error? =
      firstError? (expressionParts
        (groupBy :: output.values.filterMap Accumulator.expression)) := by
  have hbounds : (Render.each Render.placeholder boundaries).error? = none :=
    Render.error?_eq_none_iff.mpr ⟨_, _, Render.gives_each_placeholder.mpr ⟨rfl, rfl⟩⟩
  have hfallback : (Render.optional Render.placeholder fallback).error? = none :=
    Render.error?_eq_none_iff.mpr ⟨_, _, Render.gives_optional_placeholder.mpr ⟨rfl, rfl⟩⟩
  rw [renderBucket, Render.error?_four, hbounds, hfallback, Option.none_or, Option.none_or,
    error?_renderExpression, error?_renderAccumulators, ← firstError?_append]
  rfl

mutual

theorem error?_renderStageBody : ∀ s : Stage,
    (renderStageBody s).error? = firstError? (s.nodes.flatMap stageParts)
  | .filter f => by
    rw [renderStageBody, error?_renderFilter f, stageParts_of_flat rfl]
    simp [stageParts, Stage.rendered, Stage.filter?, Stage.projection?, Stage.expressions,
      filterParts, expressionParts]
  | .project projection computed => by
    rw [renderStageBody, error?_two, error?_renderProjectionEntries, error?_renderNamed,
      stageParts_of_flat rfl]
    simp [stageParts, Stage.rendered, Stage.filter?, Stage.projection?, Stage.expressions]
  | .group id accumulators => by
    rw [renderStageBody, error?_two, error?_renderKey, error?_renderAccumulators,
      stageParts_of_flat rfl, stageParts_of_unfiltered rfl rfl, Stage.expressions, expressionParts,
      expressionParts, expressionParts, List.flatMap_append, firstError?_append]
  | .sort _ | .unwind .. | .count _ => rfl
  | .limit value | .skip value => by cases value <;> rfl
  | .lookup source localField foreignField output pipeline bindings => by
    rw [renderStageBody, error?_two, error?_renderNamed, error?_renderStages pipeline, Stage.nodes,
      List.flatMap_cons, stageParts_of_unfiltered rfl rfl, firstError?_append]
    rfl
  | .addFields fields => by
    rw [renderStageBody, bind_pure_comp, error?_map, error?_renderNamed,
      stageParts_of_flat rfl, stageParts_of_unfiltered rfl rfl]
    rfl
  | .replaceRoot newRoot => by
    rw [renderStageBody, bind_pure_comp, error?_map, error?_renderExpression,
      stageParts_of_flat rfl, stageParts_of_unfiltered rfl rfl, Stage.expressions, expressionParts,
      List.flatMap_singleton]
  | .facet facets => by
    rw [renderStageBody, bind_pure_comp, error?_map, error?_renderFacets facets, Stage.nodes,
      List.flatMap_cons, stageParts_of_unfiltered rfl rfl]
    rfl
  | .bucket groupBy boundaries fallback output => by
    rw [renderStageBody, error?_renderBucket, stageParts_of_flat rfl, stageParts_of_unfiltered rfl rfl]
    rfl

theorem error?_renderStages : ∀ stages : List Stage,
    (renderStages stages).error? = firstError? ((Stage.nodesIn stages).flatMap stageParts)
  | [] => rfl
  | s :: rest => by
    rw [renderStages, error?_two, error?_renderStageBody s, error?_renderStages rest,
      Stage.nodesIn, List.flatMap_append, firstError?_append]

theorem error?_renderFacets : ∀ facets : List (String × List Stage),
    (renderFacets facets).error? = firstError? ((Stage.nodesInFacets facets).flatMap stageParts)
  | [] => rfl
  | (_, stages) :: rest => by
    rw [renderFacets, error?_two, error?_renderStages stages, error?_renderFacets rest,
      Stage.nodesInFacets, List.flatMap_append, firstError?_append]

end

/-! ## Queries -/

theorem error?_optional_filter (o : Option Filter) :
    (Render.optional renderFilter o).error? = firstError? (filterParts o.toList) := by
  rw [Render.error?_optional]
  cases o with
  | none => rfl
  | some f =>
    rw [Option.bind_some, error?_renderFilter, Option.toList_some, filterParts,
      List.flatMap_singleton]

theorem error?_renderQueryFilter (q : Query) :
    (renderQueryFilter q).error? = firstError? (filterParts q.filter.toList) := by
  rw [← error?_optional_filter, Render.error?_optional, renderQueryFilter]
  cases q.filter <;> rfl

theorem error?_optional_projection (o : Option Projection) :
    (Render.optional renderProjection o).error? =
      firstError? (filterParts (o.toList.flatMap Projection.matched)) := by
  rw [Render.error?_optional]
  cases o with
  | none => rfl
  | some p =>
    rw [Option.bind_some, error?_renderProjection, Option.toList_some, List.flatMap_singleton]

theorem error?_renderFind (q : Query) :
    (renderFind q).error? =
      firstError? (filterParts (q.filter.toList ++ q.projection.toList.flatMap Projection.matched)) := by
  rw [renderFind, Render.error?_four, error?_renderQueryFilter, error?_optional_projection,
    (Render.succeeds_optional_pagination q.skip).error?,
    (Render.succeeds_optional_pagination q.limit).error?, Option.or_none, Option.or_none,
    ← firstError?_append, filterParts, filterParts, filterParts, List.flatMap_append]

theorem error?_renderUpdates (ops : List UpdateOperation) : (renderUpdates ops).error? = none :=
  Render.Succeeds.error? ⟨_, _, renderUpdates_gives.mpr ⟨rfl, rfl⟩⟩

/-- The parts of a query fail with the error of the first one that has no form. -/
theorem error?_renderParts (q : Query) : (renderParts q).error? = firstError? (parts q) := by
  have hdocument : ∀ d, (Render.document d).error? = none := fun d =>
    Render.Succeeds.error? ⟨_, _, Render.document_gives.mpr ⟨rfl, rfl⟩⟩
  unfold renderParts parts Query.rendered
  cases q.operation with
  | find | findOne => exact error?_renderFind q
  | insert =>
    simp only [bind_pure_comp, error?_map, Render.error?_optional, hdocument]
    cases q.documents.head? <;> rfl
  | insertMany =>
    simp only [bind_pure_comp, error?_map, Render.error?_each, hdocument]
    exact List.findSome?_eq_none_iff.mpr fun _ _ => rfl
  | update | updateMany =>
    simp only
    rw [error?_two, error?_renderUpdates, Option.or_none, error?_renderQueryFilter]
  | delete | deleteMany | count =>
    simp only [bind_pure_comp, error?_map, error?_renderQueryFilter]
  | aggregate =>
    simp only [renderPipeline, bind_pure_comp, error?_map, error?_renderStages]
  | distinct =>
    simp only [bind_pure_comp, error?_map, error?_optional_filter]

/-- A well-formed query fails to render exactly if one of its parts has no form, and the error is
that of the first such part. -/
theorem render_eq_error_iff_first {q : Query} (hvalid : q.validate = .ok ()) :
    ((∃ e, q.render .mongo = .error e) ↔ ∃ p ∈ parts q, p.Inexpressible) ∧
    ∀ e, q.render .mongo = .error e ↔
      ∃ before p after, parts q = before ++ p :: after ∧ p.error? = some e ∧
        ∀ b ∈ before, ¬ b.Inexpressible := by
  have hrender : ∀ e, q.render .mongo = .error e ↔ firstError? (parts q) = some e := by
    intro e
    rw [Query.render_eq_error_iff hvalid rfl, ← error?_renderParts]
    rfl
  constructor
  · simp only [hrender, ← Option.isSome_iff_exists, firstError?, List.findSome?_isSome_iff]
    refine exists_congr fun p => and_congr_right fun _ => ?_
    rw [← not_iff_not, Option.not_isSome_iff_eq_none, Part.error?_eq_none_iff]
  · intro e
    rw [hrender, firstError?, List.findSome?_eq_some_iff]
    simp only [Part.error?_eq_none_iff]

/-- An analysis of grown users with two parts that have no form: in one facet a factor whose
operator has no `$`, and after it a negated group. -/
def unnamedFactor : Query :=
  { Query.start .aggregate Users.collection with
    pipeline := [.filter (.condition Users.age .gte Users.least),
      .ofFacets [("totals",
        [.group none (.ofList
          [("total", ⟨.sum, some (.operator "multiply" [.literal Users.given])⟩)]),
          .filter (.group .not [.presence Users.email true])])]] }

theorem render_eq_error_iff_first_unnamedFactor :
    unnamedFactor.validate = .ok () ∧
      unnamedFactor.render .mongo =
        .error (.invalidName .alias "multiply" (.invalidStart 'm')) ∧
      ∃ p ∈ parts unnamedFactor, p.Inexpressible := by
  have hvalid : unnamedFactor.validate = .ok () := rfl
  obtain ⟨hfails, hfirst⟩ := render_eq_error_iff_first hvalid
  have herror := (hfirst (.invalidName .alias "multiply" (.invalidStart 'm'))).mpr
    ⟨[.filter (.condition Users.age .gte Users.least)],
      .expression (.operator "multiply" [.literal Users.given]), _, rfl, rfl,
      by simp [Part.Inexpressible]⟩
  exact ⟨hvalid, herror, hfails.mp ⟨_, herror⟩⟩

end DocumentQuery.Mongo

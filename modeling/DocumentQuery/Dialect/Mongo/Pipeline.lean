import DocumentQuery.Dialect.Mongo.Filter
/-!
# Selections and pipelines for mongo

Projections, sorts, expressions and the stages of an aggregation. A stage
becomes an object with one entry, whose key is the token of its kind.
-/
namespace DocumentQuery.Mongo

/-! ## Selections -/

/-- The sort clauses as one object; a path named again takes the later direction. -/
def sortObject (sorts : List SortClause) : Json :=
  .ofEntries (sorts.map fun s => (s.field.path, .int s.order.sign))

/-- A part of an array: its length, or how many elements are left out and its length. -/
def renderSlice (s : Slice) : Render Json := do
  let count ← Render.placeholder s.count
  let skip ← Render.optional Render.placeholder s.skip
  match skip with
  | some skip => pure (.single "$slice" (.arr [skip, count]))
  | none => pure (.single "$slice" count)

/-- One entry of a projection; a slice comes before an element match. -/
def renderProjectionField (p : ProjectionField) : Render (String × Json) := do
  let v ← match p.slice, p.elemMatch with
    | some s, _ => renderSlice s
    | none, some conditions => do
      let merged ← renderMerged conditions
      pure (.single "$elemMatch" merged)
    | none, none => pure (.nat (if p.included then 1 else 0))
  pure (p.field.path, v)

/-- The entries of a projection. -/
def renderProjectionEntries (p : Projection) : Render Entries :=
  Render.each renderProjectionField p.fields

/-- The object of a projection; a path named again takes the later entry. -/
def renderProjection (p : Projection) : Render Json := do
  let entries ← renderProjectionEntries p
  pure (.ofEntries entries)

/-! ## Expressions -/

/-- Why the operator of an expression is rejected: it has to be `$` and an identifier. -/
def operatorFault? (operator : String) : Option NameFault :=
  match operator.toList with
  | [] => some .empty
  | '$' :: name => Identifier.fault? (String.ofList name)
  | c :: _ => some (.invalidStart c)

/-- Fails if the operator of an expression is rejected. -/
def checkOperator (operator : String) : Except Error Unit :=
  match operatorFault? operator with
  | some fault => .error (.invalidName .alias operator fault)
  | none => .ok ()

/-- A reference to the value at a path. -/
def pathReference (field : Field) : Json := .str ("$" ++ field.path)

mutual

/-- The value of an expression. -/
def renderExpression : Expression → Render Json
  | .field field => pure (pathReference field)
  | .literal value => Render.placeholder value
  | .operator operator args => do
    let _ ← Render.ofExcept (checkOperator operator)
    let vs ← renderExpressions args
    pure (.single operator (.arr vs))
  | .conditional condition consequence alternative => do
    let c ← renderExpression condition
    let t ← renderExpression consequence
    let e ← renderExpression alternative
    pure (.single "$cond" (.obj [("if", c), ("then", t), ("else", e)]))

/-- The values of a list of expressions. -/
def renderExpressions : List Expression → Render (List Json)
  | [] => pure []
  | e :: es => do
    let v ← renderExpression e
    let vs ← renderExpressions es
    pure (v :: vs)

end

/-- The entries of expressions by name. -/
def renderNamed (m : Named Expression) : Render Entries :=
  Render.entriesBy (fun name => name) renderExpression m

/-- An accumulator; the one that counts takes an empty object. -/
def renderAccumulator (a : Accumulator) : Render Json := do
  let input ← Render.optional renderExpression a.expression
  pure (.single a.operator.token (input.getD (.obj [])))

/-- The entries of accumulators by name. -/
def renderAccumulators (m : Named Accumulator) : Render Entries :=
  Render.entriesBy (fun name => name) renderAccumulator m

/-! ## Stages -/

/-- The key of a group in its documents. -/
def groupKey : String := "_id"

/-- The body of a stage that joins another collection, given its own pipeline. -/
def lookupEntries (source : Collection) (localField foreignField : Field) (output : String)
    (bindings : Option Json) (pipeline : Option Json) : Entries :=
  [("from", .str source.name), ("localField", .str localField.path),
    ("foreignField", .str foreignField.path)]
    ++ Entries.optional "let" bindings ++ Entries.optional "pipeline" pipeline
    ++ [("as", .str output)]

/-- The body of a stage that sorts documents into buckets. -/
def renderBucket (groupBy : Expression) (boundaries : List Param) (fallback : Option Param)
    (output : Named Accumulator) : Render Json := do
  let by_ ← renderExpression groupBy
  let bounds ← Render.each Render.placeholder boundaries
  let other ← Render.optional Render.placeholder fallback
  let outputs ← renderAccumulators output
  pure (.obj ([("groupBy", by_), ("boundaries", .arr bounds)] ++ Entries.optional "default" other
    ++ Entries.when (!output.isEmpty) "output" (.ofEntries outputs)))

mutual

/-- The body of a stage. -/
def renderStageBody : Stage → Render Json
  | .filter f => renderFilter f
  | .project projection computed => do
    let fields ← renderProjectionEntries projection
    let values ← renderNamed computed
    pure (.ofEntries (fields ++ values))
  | .group id accumulators => do
    let key ← Render.optional renderExpression id
    let outputs ← renderAccumulators accumulators
    pure (.ofEntries ((groupKey, Json.ofOption key) :: outputs))
  | .sort sorts => pure (sortObject sorts)
  | .limit value => Render.pagination value
  | .skip value => Render.pagination value
  | .unwind path includeArrayIndex preserve =>
    pure (.obj (("path", pathReference path)
      :: Entries.optional "includeArrayIndex" (includeArrayIndex.map .str)
      ++ Entries.when preserve "preserveNullAndEmptyArrays" (.bool true)))
  | .lookup source localField foreignField output pipeline bindings => do
    let values ← renderNamed bindings
    let stages ← renderStages pipeline
    pure (.obj (lookupEntries source localField foreignField output
      (if bindings.isEmpty then none else some (.ofEntries values))
      (if pipeline.isEmpty then none else some (.arr stages))))
  | .addFields fields => do
    let values ← renderNamed fields
    pure (.ofEntries values)
  | .replaceRoot newRoot => do
    let v ← renderExpression newRoot
    pure (.single "newRoot" v)
  | .count name => pure (.str name)
  | .facet facets => do
    let entries ← renderFacets facets
    pure (.ofEntries entries)
  | .bucket groupBy boundaries fallback output => renderBucket groupBy boundaries fallback output

/-- The objects of a list of stages. -/
def renderStages : List Stage → Render (List Json)
  | [] => pure []
  | s :: rest => do
    let body ← renderStageBody s
    let bodies ← renderStages rest
    pure (.single s.kind.token body :: bodies)

/-- The entries of facets. -/
def renderFacets : List (String × List Stage) → Render Entries
  | [] => pure []
  | (name, stages) :: rest => do
    let objects ← renderStages stages
    let entries ← renderFacets rest
    pure ((name, .arr objects) :: entries)

end

/-- The object of a stage. -/
def renderStage (s : Stage) : Render Json := do
  let body ← renderStageBody s
  pure (.single s.kind.token body)

/-- The array of a pipeline. -/
def renderPipeline (stages : List Stage) : Render Json := do
  let objects ← renderStages stages
  pure (.arr objects)

end DocumentQuery.Mongo

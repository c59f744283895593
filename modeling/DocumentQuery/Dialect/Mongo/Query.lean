import DocumentQuery.Dialect.Mongo.Pipeline
/-!
# Queries for mongo

Every operation has a form here. `renderEntries` gives the object of a query
that has passed validation.
-/
namespace DocumentQuery.Mongo

/-- The filter of a query; none at all is the object that every document passes. -/
def renderQueryFilter (q : Query) : Render Json :=
  match q.filter with
  | none => pure (.obj [])
  | some f => renderFilter f

/-- The value of a changed field; a change without value writes an empty string. -/
def renderChange : Option Param → Render Json
  | some p => Render.placeholder p
  | none => pure (.str "")

/-- One update operation under its token. -/
def renderUpdate (op : UpdateOperation) : Render (String × Json) := do
  let entries ← Render.entriesBy Field.path renderChange op.fields
  pure (op.operator.token, .ofEntries entries)

/-- The object of a list of update operations. -/
def renderUpdates (ops : List UpdateOperation) : Render Json := do
  let entries ← Render.each renderUpdate ops
  pure (.ofEntries entries)

/-- The parts of a find. -/
def renderFind (q : Query) : Render Entries := do
  let filter ← renderQueryFilter q
  let projection ← Render.optional renderProjection q.projection
  let skip ← Render.optional Render.pagination q.skip
  let limit ← Render.optional Render.pagination q.limit
  pure (("filter", filter) :: Entries.optional "projection" projection
    ++ Entries.when (!q.sort.isEmpty) "sort" (sortObject q.sort)
    ++ Entries.optional "skip" skip ++ Entries.optional "limit" limit)

/-- The parts of a query below its collection and operation. -/
def renderParts (q : Query) : Render Entries :=
  match q.operation with
  | .find | .findOne => renderFind q
  | .insert => do
    let document ← Render.optional Render.document q.documents.head?
    pure (Entries.optional "document" document)
  | .insertMany => do
    let documents ← Render.each Render.document q.documents
    pure [("documents", .arr documents)]
  | .update | .updateMany => do
    let filter ← renderQueryFilter q
    let update ← renderUpdates q.updates
    pure ([("filter", filter), ("update", update)] ++ Entries.when q.upsert "upsert" (.bool true))
  | .delete | .deleteMany | .count => do
    let filter ← renderQueryFilter q
    pure [("filter", filter)]
  | .aggregate => do
    let pipeline ← renderPipeline q.pipeline
    pure [("pipeline", pipeline)]
  | .distinct => do
    let filter ← Render.optional renderFilter q.filter
    pure (Entries.optional "field" (q.distinctField.map fun f => .str f.path)
      ++ Entries.optional "filter" filter)

/-- The object of a query. -/
def renderEntries (q : Query) : Render Entries := do
  let parts ← renderParts q
  pure ([("collection", .str q.target.name), ("operation", .str q.operation.token)] ++ parts)

end DocumentQuery.Mongo

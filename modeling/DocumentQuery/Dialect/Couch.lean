import DocumentQuery.Dialect.Rendering
/-!
# Queries for couch

Finds by a selector, and single writes. A selector has the tests and groups of
`Dialect.supportsFilter` and `Dialect.supportsLogic`; everything else fails.
-/
namespace DocumentQuery.Couch

/-- A test of a field against a value. -/
def renderTest (field : Field) (operator : FilterOperator) (value : Param) : Render Json :=
  if Dialect.couch.supportsFilter operator then do
    let v ← Render.placeholder value
    pure (.single field.path (.single operator.token v))
  else Render.unsupported .couch (.filterOperator operator)

/-- The comparisons of a range. -/
def renderRange (r : RangeFilter) : Render Json := do
  let bounds ← Render.each (fun b => do
    let v ← Render.placeholder b.2
    pure (b.1.token, v)) r.bounds
  pure (.single r.field.path (.obj bounds))

/-- A pattern, which takes no options. -/
def renderRegex (field : Field) (pattern : Param) (options : Option Param) : Render Json :=
  if options.isSome then Render.unsupported .couch .regexOptions
  else do
    let p ← Render.placeholder pattern
    pure (.single field.path (.single FilterOperator.regex.token p))

mutual

/-- The object of a filter. -/
def renderSelector : Filter → Render Json
  | .condition field operator value => renderTest field operator value
  | .group logic conditions =>
    if Dialect.couch.supportsLogic logic then do
      let objects ← renderSelectors conditions
      pure (.single logic.token (.arr objects))
    else Render.unsupported .couch (.logicOperator logic)
  | .range r => renderRange r
  | .regex field pattern options => renderRegex field pattern options
  | .presence field present =>
    pure (.single field.path (.single FilterOperator.present.token (.bool present)))
  | .textSearch _ => Render.unsupported .couch (.filter .textSearch)
  | .geo _ => Render.unsupported .couch (.filter .geo)
  | .array .. => Render.unsupported .couch (.filter .array)
  | .elemMatch .. => Render.unsupported .couch (.filter .elemMatch)

/-- The objects of a list of filters. -/
def renderSelectors : List Filter → Render (List Json)
  | [] => pure []
  | f :: fs => do
    let v ← renderSelector f
    let vs ← renderSelectors fs
    pure (v :: vs)

end

/-- The fields of an update operation that have a value, by path. -/
def valued (op : UpdateOperation) : List (String × Param) :=
  op.fields.entries.filterMap fun e => e.2.map fun p => (e.1.path, p)

/-- The fields that one update operation sets; only setting is known. -/
def renderUpdate (op : UpdateOperation) : Render Entries :=
  if Dialect.couch.supportsUpdate op.operator then
    Render.each (fun e => do
      let v ← Render.placeholder e.2
      pure (e.1, v)) (valued op)
  else Render.unsupported .couch (.updateOperator op.operator)

/-- The parts of a find. -/
def renderFind (q : Query) : Render Entries := do
  let selector ← Render.optional renderSelector q.filter
  let fields ← Render.ofExcept (q.projection.mapM (selectedPaths .couch))
  let limit ← Render.optional Render.pagination q.limit
  let skip ← Render.optional Render.pagination q.skip
  let paths := fields.getD []
  pure (("selector", selector.getD (.obj []))
    :: Entries.when (!paths.isEmpty) "fields" (.strings paths)
    ++ Entries.when (!q.sort.isEmpty) "sort"
      (.arr (q.sort.map fun s => .single s.field.path (.str s.order.word)))
    ++ Entries.optional "limit" limit ++ Entries.optional "skip" skip)

/-- The parts of a query below its database. -/
def renderParts (q : Query) : Render Entries :=
  match q.operation with
  | .find | .findOne => renderFind q
  | .insert => do
    let document ← Render.optional Render.document q.documents.head?
    pure (("operation", .str "insert") :: Entries.optional "doc" document)
  | .update => do
    let selector ← Render.optional renderSelector q.filter
    let updates ← Render.each renderUpdate q.updates
    pure (("operation", .str "update") :: Entries.optional "selector" selector
      ++ [("updates", .ofEntries updates.flatten)])
  | .delete => do
    let selector ← Render.optional renderSelector q.filter
    pure (("operation", .str "delete") :: Entries.optional "selector" selector)
  | op => Render.unsupported .couch (.operation op)

/-- The object of a query. -/
def renderEntries (q : Query) : Render Entries := do
  let parts ← renderParts q
  pure (("database", .str q.target.name) :: parts)

end DocumentQuery.Couch

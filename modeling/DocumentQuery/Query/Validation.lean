import DocumentQuery.Query.Basic
/-!
# Well-formed queries

`Query.validate` looks at the shape of a query only, never at a dialect: no
group may be empty, and each operation has demands of its own on the parts
that it uses. The first demand that fails is reported.
-/
namespace DocumentQuery.Query

/-- Fails with `fault` unless the condition holds. -/
def require (cond : Bool) (fault : QueryFault) : Except QueryFault Unit :=
  if cond then .ok () else .error fault

/-- The demands on a find: bounds on the limit, the projection, the sort and the filter. -/
def validateFind (q : Query) : Except QueryFault Unit := do
  match q.limit with
  | some (.fixed n) => require (n ≤ maxLimit) (.limitTooLarge n)
  | _ => pure ()
  match q.projection with
  | some p =>
    require (p.fields.length ≤ maxProjectionFields) (.tooManyProjectionFields p.fields.length)
  | none => pure ()
  require (q.sort.length ≤ maxSortFields) (.tooManySortFields q.sort.length)
  match q.filter with
  | some f => require (f.nesting ≤ maxFilterDepth) (.filterTooDeep f.nesting)
  | none => pure ()

/-- An update changes something. -/
def requireUpdates (q : Query) : Except QueryFault Unit :=
  require (!q.updates.isEmpty) (.noUpdateOperations q.operation)

/-- An operation on many documents says which. -/
def requireFilter (q : Query) : Except QueryFault Unit :=
  require q.filter.isSome (.missingFilter q.operation)

/-- The demands of the operation on the parts it uses. -/
def validateOperation (q : Query) : Except QueryFault Unit :=
  match q.operation with
  | .find | .findOne => q.validateFind
  | .insert => require (q.documents.length == 1) (.insertDocumentCount q.documents.length)
  | .insertMany => do
    require (!q.documents.isEmpty) (.noDocuments q.operation)
    require (q.documents.length ≤ maxBatchSize) (.batchTooLarge q.documents.length)
  | .update => q.requireUpdates
  | .updateMany => do
    q.requireUpdates
    q.requireFilter
  | .delete | .count => .ok ()
  | .deleteMany => q.requireFilter
  | .aggregate => do
    require (!q.pipeline.isEmpty) .emptyPipeline
    require (q.pipeline.length ≤ maxPipelineStages) (.tooManyStages q.pipeline.length)
  | .distinct => require q.distinctField.isSome .missingDistinctField

/-- The logic of the first empty group: the filter comes before the stages. -/
def emptyGroup? (q : Query) : Option LogicOperator :=
  q.filter.bind Filter.emptyGroup? <|> Stage.emptyGroupIn? q.pipeline

/-- The first fault of the query. -/
def validate (q : Query) : Except QueryFault Unit := do
  require (!q.target.name.isEmpty) .missingTarget
  match q.emptyGroup? with
  | some logic => .error (.emptyGroup logic)
  | none => q.validateOperation

end DocumentQuery.Query

import DocumentQuery.Dialect.Dynamo.Condition
/-!
# Queries for dynamo

Finds and single writes. Paths and values of the filter take the first aliases;
those of a projection or an update follow. There is no sort and no offset here,
and a find leaves them out.

Main definitions:
* `Action`, `actions`: what an update does, one action for each field.
* `updateText`: the update expression, `SET` before `REMOVE`.
-/
namespace DocumentQuery.Dynamo

/-! ## Updates -/

/-- What an update does to one path. -/
inductive Action where
  | set (path : String) (value : Param)
  | add (path : String) (value : Param)
  | remove (path : String)

namespace Action

/-- The path of an action. -/
def path : Action → String
  | .set path _ => path
  | .add path _ => path
  | .remove path => path

/-- The parameter of an action. -/
def value? : Action → Option Param
  | .set _ value => some value
  | .add _ value => some value
  | .remove _ => none

end Action

/-- The action of an operator that needs a value. -/
def valueAction (operator : UpdateOperator) (make : String → Param → Action) (field : Field)
    (value : Option Param) : Except Error Action :=
  match value with
  | some p => .ok (make field.path p)
  | none => .error (.construction (.missingValue operator field.path))

/-- The actions of an operation, one for each field. -/
def operationActions (op : UpdateOperation) : Except Error (List Action) :=
  match op.operator with
  | .set => op.fields.entries.mapM fun e => valueAction .set .set e.1 e.2
  | .inc => op.fields.entries.mapM fun e => valueAction .inc .add e.1 e.2
  | .unset => .ok (op.fields.keys.map fun f => .remove f.path)
  | other => .error (.unsupported .dynamo (.updateOperator other))

/-- The actions of all operations, in order. -/
def actions (ops : List UpdateOperation) : Except Error (List Action) := do
  let lists ← ops.mapM operationActions
  pure lists.flatten

/-- The assignments among the actions, with paths numbered from `n` and values from `v`. -/
def assignmentTexts (n v : Nat) : List Action → List String
  | [] => []
  | .set _ _ :: rest =>
    (nameAlias n ++ " = " ++ valueAlias v) :: assignmentTexts (n + 1) (v + 1) rest
  | .add _ _ :: rest =>
    (nameAlias n ++ " = " ++ nameAlias n ++ " + " ++ valueAlias v)
      :: assignmentTexts (n + 1) (v + 1) rest
  | .remove _ :: rest => assignmentTexts (n + 1) v rest

/-- The removed paths among the actions, numbered from `n`. -/
def removalTexts (n : Nat) : List Action → List String
  | [] => []
  | .remove _ :: rest => nameAlias n :: removalTexts (n + 1) rest
  | .set _ _ :: rest => removalTexts (n + 1) rest
  | .add _ _ :: rest => removalTexts (n + 1) rest

/-- A clause of an update, left out if it has no parts. -/
def clauseText (keyword : String) (parts : List String) : List String :=
  if parts.isEmpty then [] else [keyword ++ " " ++ ", ".intercalate parts]

/-- The update expression of the actions, numbered from `n` and `v`. -/
def updateText (n v : Nat) (acts : List Action) : String :=
  " ".intercalate
    (clauseText "SET" (assignmentTexts n v acts) ++ clauseText "REMOVE" (removalTexts n acts))

/-! ## Aliases of a query -/

/-- The map of path aliases, left out if it is empty. -/
def nameEntries (paths : List String) : Entries :=
  Entries.when (!paths.isEmpty) "ExpressionAttributeNames"
    (.obj (paths.zipIdx.map fun p => (nameAlias p.2, .str p.1)))

/-- The map of value aliases, left out if it is empty. -/
def valueEntries (values : List Param) : Render Entries := do
  let placeholders ← Render.each Render.placeholder values
  pure (Entries.when (!placeholders.isEmpty) "ExpressionAttributeValues"
    (.obj (placeholders.zipIdx.map fun p => (valueAlias p.2, p.1))))

/-! ## Queries -/

/-- The condition of a query's filter. -/
def queryCondition (q : Query) : Except Error (Option Condition) := q.filter.mapM condition

/-- The entry of a condition, left out if its text is empty. -/
def conditionEntries (key : String) (c : Option Condition) : Entries :=
  let text := (c.map fun c => c.text 0 0).getD ""
  Entries.when (!text.isEmpty) key (.str text)

/-- The paths of a condition that may be missing. -/
def pathsOf (c : Option Condition) : List String := (c.map Condition.paths).getD []

/-- The parameters of a condition that may be missing. -/
def valuesOf (c : Option Condition) : List Param := (c.map Condition.values).getD []

/-- The parts of a find. -/
def renderFind (q : Query) : Render Entries := do
  let c ← Render.ofExcept (queryCondition q)
  let fields ← Render.ofExcept (q.projection.mapM (selectedPaths .dynamo))
  let selected := fields.getD []
  let start := (pathsOf c).length
  let values ← valueEntries (valuesOf c)
  let limit ← Render.optional Render.pagination q.limit
  let projection := ", ".intercalate (selected.zipIdx.map fun p => nameAlias (start + p.2))
  pure (conditionEntries "FilterExpression" c ++ nameEntries (pathsOf c ++ selected) ++ values
    ++ Entries.optional "Limit" limit
    ++ Entries.when (!selected.isEmpty) "ProjectionExpression" (.str projection))

/-- The parts of an update. -/
def renderUpdate (q : Query) : Render Entries := do
  let c ← Render.ofExcept (queryCondition q)
  let acts ← Render.ofExcept (actions q.updates)
  let values ← valueEntries (valuesOf c ++ acts.filterMap Action.value?)
  let update := updateText (pathsOf c).length (valuesOf c).length acts
  pure (("UpdateExpression", .str update) :: conditionEntries "ConditionExpression" c
    ++ nameEntries (pathsOf c ++ acts.map Action.path) ++ values)

/-- The parts of a deletion. -/
def renderDelete (q : Query) : Render Entries := do
  let c ← Render.ofExcept (queryCondition q)
  let values ← valueEntries (valuesOf c)
  pure (conditionEntries "ConditionExpression" c ++ nameEntries (pathsOf c) ++ values)

/-- The parts of a query below its table. -/
def renderParts (q : Query) : Render Entries :=
  match q.operation with
  | .find | .findOne => renderFind q
  | .insert => do
    let item ← Render.optional Render.document q.documents.head?
    pure (Entries.optional "Item" item)
  | .update => renderUpdate q
  | .delete => renderDelete q
  | op => Render.unsupported .dynamo (.operation op)

/-- The object of a query. -/
def renderEntries (q : Query) : Render Entries := do
  let parts ← renderParts q
  pure (("TableName", .str q.target.name) :: parts)

end DocumentQuery.Dynamo

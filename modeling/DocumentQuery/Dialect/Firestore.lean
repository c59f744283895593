import DocumentQuery.Dialect.Rendering
/-!
# Queries for firestore

A filter flattens into a list of clauses that all have to hold, so groups are
known as far as they are conjunctions. A negated group is flattened like a
conjunction: it renders to the clauses themselves and not to their negation.

Main definitions:
* `clauses`: the clauses of a filter, from left to right.
* `assignments`: what an update writes, each path once.
-/
namespace DocumentQuery.Firestore

/-! ## Filters -/

/-- One test that a document has to pass. -/
structure Clause where
  field : Field
  sign : String
  value : Param

/-- The clause of a test, if the test has a sign. -/
def clause (field : Field) (operator : FilterOperator) (value : Param) :
    Except Error (List Clause) :=
  match whereSign? operator with
  | some sign => .ok [⟨field, sign, value⟩]
  | none => .error (.unsupported .firestore (.filterOperator operator))

/-- The clauses of a range, one for each bound. -/
def rangeClauses (r : RangeFilter) : Except Error (List Clause) :=
  r.bounds.foldr (fun b rest => do
    let c ← clause r.field b.1 b.2
    let cs ← rest
    pure (c ++ cs)) (pure [])

mutual

/-- The clauses that a filter stands for. -/
def clauses : Filter → Except Error (List Clause)
  | .condition field operator value => clause field operator value
  | .array field operator value => clause field operator value
  | .group logic conditions =>
    match logic with
    | .and | .not => clausesOfAll conditions
    | .or | .nor => .error (.unsupported .firestore (.logicOperator logic))
  | .range r => rangeClauses r
  | .regex .. => .error (.unsupported .firestore (.filter .regex))
  | .textSearch _ => .error (.unsupported .firestore (.filter .textSearch))
  | .geo _ => .error (.unsupported .firestore (.filter .geo))
  | .elemMatch .. => .error (.unsupported .firestore (.filter .elemMatch))
  | .presence .. => .error (.unsupported .firestore (.filter .presence))

/-- The clauses that a list of filters stands for. -/
def clausesOfAll : List Filter → Except Error (List Clause)
  | [] => .ok []
  | f :: fs => do
    let cs ← clauses f
    let rest ← clausesOfAll fs
    pure (cs ++ rest)

end

/-- A clause as an object. -/
def renderClause (c : Clause) : Render Json := do
  let v ← Render.placeholder c.value
  pure (.obj [("field", .str c.field.path), ("operator", .str c.sign), ("value", v)])

/-- The list of clauses of a filter. -/
def renderWhere (f : Filter) : Render Json := do
  let cs ← Render.ofExcept (clauses f)
  let objects ← Render.each renderClause cs
  pure (.arr objects)

/-- The list of clauses of a query, if it has a filter. -/
def whereEntries (q : Query) : Render Entries := do
  let list ← Render.optional renderWhere q.filter
  pure (Entries.optional "where" list)

/-! ## Updates -/

/-- The value that removes a field. -/
def removal : String := "FieldValue.delete()"

/-- What an update writes to a field. -/
inductive Assignment where
  | value (p : Param)
  | removal

/-- What an operation writes to a field, given its value. -/
def assignment (operator : UpdateOperator) (path : String) (value : Option Param) :
    Except Error Assignment :=
  match operator, value with
  | .unset, _ => .ok .removal
  | .set, some p => .ok (.value p)
  | .set, none => .error (.construction (.missingValue .set path))
  | op, _ => .error (.unsupported .firestore (.updateOperator op))

/-- Every change of an update: operations in order, and the fields of each in theirs. -/
def changes (ops : List UpdateOperation) : List (UpdateOperator × String × Option Param) :=
  ops.flatMap fun op => op.fields.entries.map fun e => (op.operator, e.1.path, e.2)

/-- What the changes write by path, after those in `written`; no path may come twice. -/
def assignments (written : List (String × Assignment)) :
    List (UpdateOperator × String × Option Param) → Except Error (List (String × Assignment))
  | [] => .ok written
  | (operator, path, value) :: rest =>
    if (written.map Prod.fst).contains path then .error (.construction (.setAndUnset path))
    else do
      let a ← assignment operator path value
      assignments (written ++ [(path, a)]) rest

/-- An assignment as an entry. -/
def renderAssignment (a : String × Assignment) : Render (String × Json) :=
  match a.2 with
  | .value p => do
    let v ← Render.placeholder p
    pure (a.1, v)
  | .removal => pure (a.1, .str removal)

/-- The object of an update. -/
def renderData (ops : List UpdateOperation) : Render Json := do
  let list ← Render.ofExcept (assignments [] (changes ops))
  let entries ← Render.each renderAssignment list
  pure (.obj entries)

/-! ## Queries -/

/-- A sort clause as an object. -/
def orderClause (s : SortClause) : Json :=
  .obj [("field", .str s.field.path), ("direction", .str s.order.word)]

/-- The parts of a find. -/
def renderFind (q : Query) : Render Entries := do
  let conditions ← whereEntries q
  let limit ← Render.optional Render.pagination q.limit
  let offset ← Render.optional Render.pagination q.skip
  let fields ← Render.ofExcept (q.projection.mapM (selectedPaths .firestore))
  let paths := fields.getD []
  pure (conditions ++ Entries.when (!q.sort.isEmpty) "orderBy" (.arr (q.sort.map orderClause))
    ++ Entries.optional "limit" limit ++ Entries.optional "offset" offset
    ++ Entries.when (!paths.isEmpty) "select" (.strings paths))

/-- The parts of a query below its collection and operation. -/
def renderParts (q : Query) : Render Entries :=
  match q.operation with
  | .find | .findOne => renderFind q
  | .insert => do
    let document ← Render.optional Render.document q.documents.head?
    pure (Entries.optional "data" document)
  | .update => do
    let conditions ← whereEntries q
    let data ← renderData q.updates
    pure (conditions ++ [("data", data)])
  | .delete => whereEntries q
  | op => Render.unsupported .firestore (.operation op)

/-- The object of a query. -/
def renderEntries (q : Query) : Render Entries := do
  let parts ← renderParts q
  pure ([("collection", .str q.target.name), ("operation", .str q.operation.token)] ++ parts)

end DocumentQuery.Firestore

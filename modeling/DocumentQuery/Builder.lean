import DocumentQuery.Query.Validation
/-!
# Building queries

A query is built by a chain of calls on a builder. A call works on the query
and may fail, which it does if it does not apply to the operation or if its
argument is out of range. The builder keeps the query as the calls leave it and
the first failure, and calls after that one change nothing.

Main definitions:
* `Call`: the calls, and `Call.requirement`: the family of operations that a
  call applies to.
* `Builder`: a query under construction, with the first failure.
* `Call.apply`: what a call makes of a query.
* `Builder.run`: a whole chain, and `Builder.build`: the query it gives.

Results:
* `run_of_failure`: after a failure, no call changes the builder.
* `run_append`: a chain in two parts is run part by part.
-/
namespace DocumentQuery

/-! ## Starts -/

/-- How a chain starts. -/
inductive Start where
  | find
  | findOne
  | insert
  | insertMany
  | update
  | updateMany
  | delete
  | deleteMany
  | aggregate
  | count
  | distinct (field : Field)

namespace Start

/-- The operation of the chain. -/
def operation : Start → Operation
  | .find => .find
  | .findOne => .findOne
  | .insert => .insert
  | .insertMany => .insertMany
  | .update => .update
  | .updateMany => .updateMany
  | .delete => .delete
  | .deleteMany => .deleteMany
  | .aggregate => .aggregate
  | .count => .count
  | .distinct _ => .distinct

/-- The field whose distinct values are asked for. -/
def distinctField : Start → Option Field
  | .distinct field => some field
  | _ => none

/-- The query before any call. -/
def query (s : Start) (target : Collection) : Query :=
  { Query.start s.operation target with distinctField := s.distinctField }

end Start

/-! ## Calls -/

/-- A change of one field by one value. -/
inductive FieldChange where
  | set
  | inc
  | mul
  | push
  | pull
  | addToSet
deriving DecidableEq, Repr

namespace FieldChange

/-- The update operator of the change. -/
def operator : FieldChange → UpdateOperator
  | .set => .set
  | .inc => .inc
  | .mul => .mul
  | .push => .push
  | .pull => .pull
  | .addToSet => .addToSet

/-- The change as a call. -/
def method : FieldChange → String
  | .set => "set"
  | .inc => "inc"
  | .mul => "mul"
  | .push => "push"
  | .pull => "pull"
  | .addToSet => "add_to_set"

end FieldChange

/-- One call of a chain. -/
inductive Call where
  | filter (f : Filter)
  | select (fields : List Field)
  | exclude (fields : List Field)
  | projection (p : Projection)
  | sort (field : Field) (order : SortOrder)
  | skip (n : Nat)
  | skipParam (p : Param)
  | limit (n : Nat)
  | limitParam (p : Param)
  | document (d : Document)
  | documents (ds : List Document)
  | change (c : FieldChange) (field : Field) (value : Param)
  | unset (fields : List Field)
  | upsert
  | stage (s : Stage)
  | matching (f : Filter)
  | project (p : Projection)
  | group (id : Option Expression) (accumulators : List (String × Accumulator))
  | lookup (source : Collection) (localField foreignField : Field) (output : String)
  | unwind (path : Field)

namespace Call

/-- The call in messages. -/
def method : Call → String
  | .filter _ => "filter"
  | .select _ => "select"
  | .exclude _ => "exclude"
  | .projection _ => "projection"
  | .sort .. => "sort"
  | .skip _ => "skip"
  | .skipParam _ => "skip_param"
  | .limit _ => "limit"
  | .limitParam _ => "limit_param"
  | .document _ => "document"
  | .documents _ => "documents"
  | .change c _ _ => c.method
  | .unset _ => "unset"
  | .upsert => "upsert"
  | .stage _ => "stage"
  | .matching _ => "match_"
  | .project _ => "project"
  | .group .. => "group"
  | .lookup .. => "lookup"
  | .unwind _ => "unwind"

/-- The family of operations that a call applies to; a filter applies to all. -/
def requirement : Call → Option OperationFamily
  | .filter _ => none
  | .select _ | .exclude _ | .projection _ | .sort .. | .skip _ | .skipParam _ | .limit _
  | .limitParam _ => some .read
  | .document _ => some .insert
  | .documents _ => some .insertMany
  | .change .. | .unset _ | .upsert => some .update
  | .stage _ | .matching _ | .project _ | .group .. | .lookup .. | .unwind _ => some .aggregate

end Call

/-! ## What calls do -/

/-- A query under construction, with the first failure. -/
structure Builder where
  query : Query
  failure : Option Error := none

namespace Query

/-- The query that must pass one more filter. -/
def restrict (q : Query) (f : Filter) : Query :=
  match q.filter with
  | none => { q with filter := some f }
  | some g => { q with filter := some (.group .and [g, f]) }

/-- The query with one more field changed. -/
def change (q : Query) (operator : UpdateOperator) (field : Field) (value : Option Param) : Query :=
  { q with updates := UpdateOperation.modify operator (·.set field value) q.updates }

/-- The query that removes some more fields. -/
def unset (q : Query) (fields : List Field) : Query :=
  let remove (op : UpdateOperation) := fields.foldl (fun op f => op.set f none) op
  { q with updates := UpdateOperation.modify .unset remove q.updates }

/-- The query with one more stage, whose names have to be identifiers. -/
def pushStage (q : Query) (s : Stage) : Builder :=
  match s.invalidName? with
  | some (name, fault) => ⟨q, some (.invalidName .alias name fault)⟩
  | none => ⟨{ q with pipeline := q.pipeline ++ [s] }, none⟩

end Query

namespace Call

/-- What a call that applies makes of a query, and whether it fails. -/
def perform (q : Query) : Call → Builder
  | .filter f => ⟨q.restrict f, none⟩
  | .select fields => ⟨{ q with projection := some (.including fields) }, none⟩
  | .exclude fields => ⟨{ q with projection := some (.excluding fields) }, none⟩
  | .projection p => ⟨{ q with projection := some p }, none⟩
  | .sort field order => ⟨{ q with sort := q.sort ++ [⟨field, order⟩] }, none⟩
  | .skip n => ⟨{ q with skip := some (.fixed n) }, none⟩
  | .skipParam p => ⟨{ q with skip := some (.bound p) }, none⟩
  | .limit n =>
    if maxLimit < n then ⟨q, some (.invalidQuery (.limitTooLarge n))⟩
    else ⟨{ q with limit := some (.fixed n) }, none⟩
  | .limitParam p => ⟨{ q with limit := some (.bound p) }, none⟩
  | .document d => ⟨{ q with documents := q.documents ++ [d] }, none⟩
  | .documents ds => ⟨{ q with documents := q.documents ++ ds }, none⟩
  | .change c field value => ⟨q.change c.operator field (some value), none⟩
  | .unset fields => ⟨q.unset fields, none⟩
  | .upsert => ⟨{ q with upsert := true }, none⟩
  | .stage s => q.pushStage s
  | .matching f => q.pushStage (.filter f)
  | .project p => q.pushStage (.project p ∅)
  | .group id accumulators => q.pushStage (.group id (.ofList accumulators))
  | .lookup source localField foreignField output =>
    q.pushStage (.lookup source localField foreignField output [] ∅)
  | .unwind path => q.pushStage (.unwind path none false)

/-- What a call makes of a query, and whether it fails. -/
def apply (q : Query) (c : Call) : Builder :=
  match c.requirement with
  | none => c.perform q
  | some family =>
    if family.allows q.operation then c.perform q
    else ⟨q, some (.incompatible c.method q.operation family)⟩

end Call

/-! ## Chains -/

namespace Builder

/-- The builder before any call. -/
def start (s : Start) (target : Collection) : Builder := { query := s.query target }

/-- The builder after one more call. -/
def call (b : Builder) (c : Call) : Builder :=
  match b.failure with
  | some _ => b
  | none => c.apply b.query

/-- The builder after a chain of calls. -/
def run (b : Builder) (calls : List Call) : Builder := calls.foldl call b

/-- The query, if no call failed and it is well formed. -/
def build (b : Builder) : Except Error Query :=
  match b.failure with
  | some e => .error e
  | none =>
    match b.query.validate with
    | .error fault => .error (.invalidQuery fault)
    | .ok () => .ok b.query

theorem call_of_failure {b : Builder} {e : Error} (h : b.failure = some e) (c : Call) :
    b.call c = b := by
  simp [call, h]

theorem run_of_failure {b : Builder} {e : Error} (h : b.failure = some e) (calls : List Call) :
    b.run calls = b := by
  induction calls with
  | nil => rfl
  | cons c calls ih =>
    show (b.call c).run calls = b
    rw [call_of_failure h, ih]

theorem run_append (b : Builder) (calls later : List Call) :
    b.run (calls ++ later) = (b.run calls).run later := List.foldl_append

end Builder

end DocumentQuery

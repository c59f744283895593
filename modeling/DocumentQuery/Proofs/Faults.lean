import DocumentQuery.Proofs.RenderedQuery
/-!
# What faults say

Validation reports one fault, with the count, the operation or the logic that is to
blame. The report is true of the query.

Main definitions:
* `Query.Has`: the query has the fault.
* `Query.Blames`: a check reports only faults that the query has.

Results:
* `Query.has_of_validate`: a query has the fault that is reported for it.
-/
namespace DocumentQuery.Query

/-- The query has the fault. -/
def Has (q : Query) : QueryFault → Prop
  | .missingTarget => q.target.name = ""
  | .limitTooLarge n => q.limit = some (.fixed n) ∧ maxLimit < n
  | .tooManyProjectionFields n =>
    (∃ p, q.projection = some p ∧ p.fields.length = n) ∧ maxProjectionFields < n
  | .tooManySortFields n => q.sort.length = n ∧ maxSortFields < n
  | .filterTooDeep n => (∃ f, q.filter = some f ∧ f.nesting = n) ∧ maxFilterDepth < n
  | .insertDocumentCount n => q.documents.length = n ∧ n ≠ 1
  | .noDocuments op => q.operation = op ∧ q.documents = []
  | .batchTooLarge n => q.documents.length = n ∧ maxBatchSize < n
  | .noUpdateOperations op => q.operation = op ∧ q.updates = []
  | .missingFilter op => q.operation = op ∧ q.filter = none
  | .emptyPipeline => q.pipeline = []
  | .tooManyStages n => q.pipeline.length = n ∧ maxPipelineStages < n
  | .missingDistinctField => q.operation = .distinct ∧ q.distinctField = none
  | .emptyGroup logic => q.emptyGroup? = some logic

/-- The check fails only with faults that the query has. -/
def Blames (q : Query) (check : Except QueryFault Unit) : Prop :=
  ∀ fault, check = .error fault → q.Has fault

variable {q : Query}

/-! ## Checks -/

namespace Blames

theorem ok : q.Blames (.ok ()) := by
  intro fault h
  cases h

theorem require {cond : Bool} {fault : QueryFault} (h : cond = false → q.Has fault) :
    q.Blames (Query.require cond fault) := by
  intro fault' hfails
  obtain ⟨hcond, rfl⟩ := require_eq_error_iff.mp hfails
  exact h hcond

theorem bind {check : Except QueryFault Unit} {next : Unit → Except QueryFault Unit}
    (hcheck : q.Blames check) (hnext : ∀ u, q.Blames (next u)) : q.Blames (check >>= next) := by
  intro fault hfails
  rcases bind_eq_error_iff.mp hfails with h | ⟨u, -, h⟩
  · exact hcheck fault h
  · exact hnext u fault h

theorem elim {α : Type} {o : Option α} {check : α → Except QueryFault Unit}
    (h : ∀ a, o = some a → q.Blames (check a)) : q.Blames (o.elim (.ok ()) check) := by
  cases o with
  | none => exact ok
  | some a => exact h a rfl

end Blames

/-! ## The demands of the operations -/

theorem blames_validateFind : q.Blames q.validateFind := by
  have hrest : ∀ p f, q.projection = p → q.filter = f → q.Blames (do
      p.elim (.ok ()) fun p =>
        Query.require (p.fields.length ≤ maxProjectionFields) (.tooManyProjectionFields p.fields.length)
      Query.require (q.sort.length ≤ maxSortFields) (.tooManySortFields q.sort.length)
      f.elim (.ok ()) fun f =>
        Query.require (f.nesting ≤ maxFilterDepth) (.filterTooDeep f.nesting)) := by
    intro p f hp hf
    refine .bind (.elim fun p' h => ?_) fun _ => .bind ?_ fun _ => .elim fun f' h => ?_
    · exact .require fun hfails => ⟨⟨p', hp.trans h, rfl⟩, by simpa using hfails⟩
    · exact .require fun hfails => ⟨rfl, by simpa using hfails⟩
    · exact .require fun hfails => ⟨⟨f', hf.trans h, rfl⟩, by simpa using hfails⟩
  unfold validateFind
  rcases hlimit : q.limit with _ | n | p <;> rcases hprojection : q.projection <;>
    rcases hfilter : q.filter
  case some.fixed.none.none | some.fixed.none.some | some.fixed.some.none | some.fixed.some.some =>
    exact .bind (.require fun h => ⟨hlimit, by simpa using h⟩) fun _ =>
      hrest _ _ hprojection hfilter
  all_goals exact hrest _ _ hprojection hfilter

theorem blames_requireUpdates : q.Blames q.requireUpdates :=
  .require fun h => ⟨rfl, by simpa using h⟩

theorem blames_requireFilter : q.Blames q.requireFilter :=
  .require fun h => ⟨rfl, by simpa using h⟩

theorem blames_validateOperation : q.Blames q.validateOperation := by
  unfold validateOperation
  cases hop : q.operation with
  | find | findOne => exact blames_validateFind
  | insert => exact .require fun h => ⟨rfl, by simpa using h⟩
  | insertMany =>
    refine .bind (.require fun h => ?_) fun _ => .require fun h => ⟨rfl, by simpa using h⟩
    exact ⟨hop, by simpa using h⟩
  | update => exact blames_requireUpdates
  | updateMany => exact .bind blames_requireUpdates fun _ => blames_requireFilter
  | delete | count => exact .ok
  | deleteMany => exact blames_requireFilter
  | aggregate =>
    refine .bind (.require fun h => ?_) fun _ => .require fun h => ⟨rfl, by simpa using h⟩
    show q.pipeline = []
    simpa using h
  | distinct => exact .require fun h => ⟨hop, by simpa using h⟩

/-- A query has the fault that validation reports. -/
theorem has_of_validate {fault : QueryFault} (h : q.validate = .error fault) : q.Has fault := by
  rcases validate_eq_error_iff.mp h with ⟨hname, rfl⟩ | ⟨-, ⟨logic, hlogic, rfl⟩ | ⟨-, hop⟩⟩
  · show q.target.name = ""
    simpa using hname
  · exact hlogic
  · exact blames_validateOperation fault hop

end DocumentQuery.Query

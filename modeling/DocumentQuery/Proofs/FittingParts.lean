import DocumentQuery.Proofs.Chain
/-!
# Parts that fit the operation

A call sets a part of the query only if the operation is of the family that the
part is for. So whatever the calls of a chain are, and wherever the first of them
fails, the query under construction has no parts that its operation does not take.
The filter is apart from this: it may be set for every operation.

Main definitions:
* `Query.Fitting`: the parts other than the filter fit the operation, and a fixed
  limit is in range.

Results:
* `Query.Fitting.apply`: every call keeps this, whether it fails or not.
* `fitting_run`: so does every chain.
* `fitting_of_build`: what a chain builds fits.
-/
namespace DocumentQuery

/-- Where the operation does not take a part, the part is as it was at the start. -/
structure Query.Fitting (q : Query) : Prop where
  projection : q.operation.isRead = false → q.projection = none
  sort : q.operation.isRead = false → q.sort = []
  skip : q.operation.isRead = false → q.skip = none
  limit : q.operation.isRead = false → q.limit = none
  documents : q.operation.isInsert = false → q.documents = []
  updates : q.operation.isUpdate = false → q.updates = []
  upsert : q.operation.isUpdate = false → q.upsert = false
  pipeline : q.operation ≠ .aggregate → q.pipeline = []
  distinctField : q.distinctField.isSome = true ↔ q.operation = .distinct
  limit_le : ∀ n, q.limit = some (.fixed n) → n ≤ maxLimit

namespace Query.Fitting

variable {q : Query}

theorem start (s : Start) (target : Collection) : (s.query target).Fitting := by
  refine ⟨fun _ => rfl, fun _ => rfl, fun _ => rfl, fun _ => rfl, fun _ => rfl, fun _ => rfl,
    fun _ => rfl, fun _ => rfl, ?_, fun n h => by cases h⟩
  cases s <;> simp [Start.query, Query.start, Start.distinctField, Start.operation]

theorem restrict (h : q.Fitting) (f : Filter) : (q.restrict f).Fitting := by
  unfold Query.restrict
  cases q.filter with
  | none => exact { h with }
  | some g => exact { h with }

theorem pushStage (h : q.Fitting) (hop : q.operation = .aggregate) (s : Stage) :
    (q.pushStage s).query.Fitting := by
  unfold Query.pushStage
  cases s.invalidName? with
  | some name => exact h
  | none => exact { h with pipeline := fun hne => absurd hop hne }

/-- A call that applies sets parts that the operation takes. -/
theorem perform (h : q.Fitting) {c : Call}
    (hallows : ∀ family, c.requirement = some family → family.allows q.operation = true) :
    (c.perform q).query.Fitting := by
  cases c with
  | filter f => exact h.restrict f
  | select _ | exclude _ | projection _ =>
    have hread : q.operation.isRead = true := hallows .read rfl
    exact { h with projection := fun hnot => absurd hread (Bool.eq_false_iff.mp hnot) }
  | sort _ _ =>
    have hread : q.operation.isRead = true := hallows .read rfl
    exact { h with sort := fun hnot => absurd hread (Bool.eq_false_iff.mp hnot) }
  | skip _ | skipParam _ =>
    have hread : q.operation.isRead = true := hallows .read rfl
    exact { h with skip := fun hnot => absurd hread (Bool.eq_false_iff.mp hnot) }
  | limit n =>
    have hread : q.operation.isRead = true := hallows .read rfl
    rw [Call.perform]
    split
    · exact h
    · rename_i hle
      refine { h with
        limit := fun hnot => absurd hread (Bool.eq_false_iff.mp hnot)
        limit_le := ?_ }
      intro m hm
      cases hm
      exact Nat.le_of_not_lt hle
  | limitParam _ =>
    have hread : q.operation.isRead = true := hallows .read rfl
    refine { h with
      limit := fun hnot => absurd hread (Bool.eq_false_iff.mp hnot)
      limit_le := ?_ }
    intro m hm
    cases hm
  | document _ =>
    have hinsert : q.operation.isInsert = true := hallows .insert rfl
    exact { h with documents := fun hnot => absurd hinsert (Bool.eq_false_iff.mp hnot) }
  | documents _ =>
    have hmany : (q.operation == .insertMany) = true := hallows .insertMany rfl
    have hinsert : q.operation.isInsert = true := by
      rw [beq_iff_eq] at hmany
      rw [hmany]
      rfl
    exact { h with documents := fun hnot => absurd hinsert (Bool.eq_false_iff.mp hnot) }
  | change _ _ _ | unset _ =>
    have hupdate : q.operation.isUpdate = true := hallows .update rfl
    exact { h with updates := fun hnot => absurd hupdate (Bool.eq_false_iff.mp hnot) }
  | upsert =>
    have hupdate : q.operation.isUpdate = true := hallows .update rfl
    exact { h with upsert := fun hnot => absurd hupdate (Bool.eq_false_iff.mp hnot) }
  | stage _ | matching _ | project _ | group _ _ | lookup _ _ _ _ | unwind _ =>
    have haggregate : (q.operation == .aggregate) = true := hallows .aggregate rfl
    exact h.pushStage (beq_iff_eq.mp haggregate) _

/-- A call keeps the query fitting, whether it fails or not. -/
theorem apply (h : q.Fitting) (c : Call) : (c.apply q).query.Fitting := by
  unfold Call.apply
  cases hrequirement : c.requirement with
  | none =>
    exact h.perform fun family hfamily => by
      rw [hrequirement] at hfamily
      cases hfamily
  | some family =>
    by_cases hallows : family.allows q.operation = true
    · simp only [hallows, if_true]
      refine h.perform fun family' hfamily => ?_
      rw [hrequirement] at hfamily
      cases hfamily
      exact hallows
    · simp only [hallows]
      exact h

end Query.Fitting

/-- Whatever the calls of a chain are, the query has fitting parts after them. -/
theorem fitting_run {b : Builder} (h : b.query.Fitting) (calls : List Call) :
    (b.run calls).query.Fitting := by
  induction calls generalizing b with
  | nil => exact h
  | cons c calls ih =>
    refine ih (b := b.call c) ?_
    unfold Builder.call
    cases b.failure with
    | some _ => exact h
    | none => exact h.apply c

/-- What is built is the query as the chain left it. -/
theorem Builder.query_of_build {b : Builder} {q : Query} (h : b.build = .ok q) : b.query = q := by
  unfold Builder.build at h
  split at h
  · cases h
  · split at h
    · cases h
    · injection h

theorem fitting_of_build {start : Start} {target : Collection} {calls : List Call} {q : Query}
    (h : ((Builder.start start target).run calls).build = .ok q) : q.Fitting := by
  rw [← Builder.query_of_build h]
  exact fitting_run (b := Builder.start start target) (.start start target) calls

end DocumentQuery

import DocumentQuery.Proofs.Faults
import DocumentQuery.Proofs.FirstFailure
import DocumentQuery.Proofs.FittingParts
/-!
# Queries that chains lead to

A query is about one operation on one collection from its start on, and every other
part of it is set by calls of one family. So the query under construction keeps its
operation and its target whatever is called, it has no part that the operation does
not take, and a limit on it is in range. This holds after any calls, those included
that fail or that come after a failure.

Validation asks for a target, for the field of a distinct, and for a limit in range.
None of the three demands can fail on a query that a chain leads to.

Main definitions:
* `Query.About`: the query is about what its chain was started for.

Results:
* `about_run`: no chain changes what a query is about.
* `Query.validate_ne_missingTarget`, `Query.Fitting.validate_ne_missingDistinctField`,
  `Query.Fitting.validate_ne_limitTooLarge`: the faults that are never reported.
* `reachable_parts`: the parts of a query that a chain leads to.
-/
namespace DocumentQuery

/-! ## What a query is about -/

/-- The query is about what a chain was started for. -/
structure Query.About (start : Start) (target : Collection) (q : Query) : Prop where
  operation : q.operation = start.operation
  target : q.target = target
  distinctField : q.distinctField = start.distinctField

/-- A call leaves the field of a distinct as it is. -/
theorem Call.perform_distinctField (c : Call) (q : Query) :
    (c.perform q).query.distinctField = q.distinctField := by
  cases c with
  | filter f =>
    show (q.restrict f).distinctField = _
    rw [q.restrict_eq]
    rfl
  | limit n =>
    simp only [perform]
    split <;> rfl
  | stage _ | matching _ | project _ | group _ _ | lookup _ _ _ _ | unwind _ =>
    simp only [perform, Query.pushStage]
    split <;> rfl
  | _ => rfl

namespace Query.About

variable {start : Start} {target : Collection} {q : Query}

theorem perform (h : q.About start target) (c : Call) :
    (c.perform q).query.About start target := by
  obtain ⟨hoperation, htarget⟩ := c.perform_fixed q
  exact ⟨hoperation.trans h.operation, htarget.trans h.target,
    (c.perform_distinctField q).trans h.distinctField⟩

theorem apply (h : q.About start target) (c : Call) : (c.apply q).query.About start target := by
  rw [c.apply_eq]
  cases c.fault? q.operation with
  | some e => exact h
  | none => exact h.perform c

end Query.About

/-- No chain changes what a query is about, wherever the first of its calls fails. -/
theorem about_run {start : Start} {target : Collection} {b : Builder}
    (h : b.query.About start target) (calls : List Call) :
    (b.run calls).query.About start target := by
  induction calls generalizing b with
  | nil => exact h
  | cons c calls ih =>
    refine ih (b := b.call c) ?_
    unfold Builder.call
    cases b.failure with
    | some _ => exact h
    | none => exact h.apply c

/-! ## The parts that an operation takes -/

namespace Operation

variable {op : Operation}

theorem isRead_eq_false_iff :
    op.isRead = false ↔ op ∉ [.find, .findOne, .aggregate, .count, .distinct] := by
  cases op <;> decide

theorem isInsert_eq_false_iff : op.isInsert = false ↔ op ∉ [.insert, .insertMany] := by
  cases op <;> decide

theorem isUpdate_eq_false_iff : op.isUpdate = false ↔ op ∉ [.update, .updateMany] := by
  cases op <;> decide

end Operation

theorem Start.isSome_distinctField (start : Start) :
    start.distinctField.isSome = true ↔ ∃ field, start = .distinct field := by
  cases start <;> simp [distinctField]

/-! ## Demands that are always met -/

namespace Query

variable {q : Query}

theorem validate_ne_missingTarget : q.validate ≠ .error .missingTarget := by
  intro h
  have hname : q.target.name = "" := has_of_validate h
  have hnonempty := q.target.isEmpty_name
  rw [hname] at hnonempty
  cases hnonempty

theorem Fitting.validate_ne_missingDistinctField (h : q.Fitting) :
    q.validate ≠ .error .missingDistinctField := by
  intro hfault
  obtain ⟨hop, hnone⟩ : q.operation = .distinct ∧ q.distinctField = none := has_of_validate hfault
  have hsome := h.distinctField.mpr hop
  rw [hnone] at hsome
  cases hsome

theorem Fitting.validate_ne_limitTooLarge (h : q.Fitting) (n : Nat) :
    q.validate ≠ .error (.limitTooLarge n) := by
  intro hfault
  obtain ⟨hlimit, hlt⟩ : q.limit = some (.fixed n) ∧ maxLimit < n := has_of_validate hfault
  exact absurd (h.limit_le n hlimit) (Nat.not_le_of_lt hlt)

end Query

/-- Without a failed call, a fault of the query can only come from validation. -/
theorem Builder.build_ne_of_validate_ne {b : Builder} {fault : QueryFault}
    (hfailure : b.failure = none) (h : b.query.validate ≠ .error fault) :
    b.build ≠ .error (.invalidQuery fault) := by
  intro hbuild
  unfold Builder.build at hbuild
  rw [hfailure] at hbuild
  cases hvalidate : b.query.validate with
  | ok u => simp [hvalidate] at hbuild
  | error fault' =>
    simp only [hvalidate] at hbuild
    cases hbuild
    exact h hvalidate

/-! ## Reachable queries -/

/-- After any calls the operation and the target are those of the start, each part that the
operation does not take is as at the start, and a fixed limit is in range. So three of the
faults that validation knows are never reported unless a call failed. -/
theorem reachable_parts {start : Start} {target : Collection} {calls : List Call} {b : Builder}
    (h : (Builder.start start target).run calls = b) :
    b.query.operation = start.operation ∧ b.query.target = target ∧
    (start.operation ∉ [.find, .findOne, .aggregate, .count, .distinct] →
      b.query.projection = none ∧ b.query.sort = [] ∧ b.query.skip = none ∧
        b.query.limit = none) ∧
    (start.operation ∉ [.insert, .insertMany] → b.query.documents = []) ∧
    (start.operation ∉ [.update, .updateMany] →
      b.query.updates = [] ∧ b.query.upsert = false) ∧
    (start.operation ≠ .aggregate → b.query.pipeline = []) ∧
    (b.query.distinctField.isSome = true ↔ ∃ field, start = .distinct field) ∧
    (∀ n, b.query.limit = some (.fixed n) → n ≤ maxLimit) ∧
    (b.failure = none →
      b.build ≠ .error (.invalidQuery .missingTarget) ∧
      b.build ≠ .error (.invalidQuery .missingDistinctField) ∧
      ∀ n, b.build ≠ .error (.invalidQuery (.limitTooLarge n))) := by
  subst h
  have habout : ((Builder.start start target).run calls).query.About start target :=
    about_run (b := Builder.start start target) ⟨rfl, rfl, rfl⟩ calls
  have hfits : ((Builder.start start target).run calls).query.Fitting :=
    fitting_run (b := Builder.start start target) (.start start target) calls
  generalize (Builder.start start target).run calls = b at habout hfits
  rw [← habout.operation]
  refine ⟨rfl, habout.target, fun hop => ?read, fun hop => ?documents, fun hop => ?update,
    hfits.pipeline, ?distinct, hfits.limit_le, fun hfailure => ⟨?_, ?_, fun n => ?_⟩⟩
  case read =>
    have hread := Operation.isRead_eq_false_iff.mpr hop
    exact ⟨hfits.projection hread, hfits.sort hread, hfits.skip hread, hfits.limit hread⟩
  case documents => exact hfits.documents (Operation.isInsert_eq_false_iff.mpr hop)
  case update =>
    have hupdate := Operation.isUpdate_eq_false_iff.mpr hop
    exact ⟨hfits.updates hupdate, hfits.upsert hupdate⟩
  case distinct => rw [habout.distinctField, start.isSome_distinctField]
  · exact b.build_ne_of_validate_ne hfailure Query.validate_ne_missingTarget
  · exact b.build_ne_of_validate_ne hfailure hfits.validate_ne_missingDistinctField
  · exact b.build_ne_of_validate_ne hfailure (hfits.validate_ne_limitTooLarge n)

/-- An update of many users that gives them an age but does not say which users: no call
fails, and what stops the query is none of the three faults. -/
theorem reachable_parts_unfilteredUpdate :
    let b := (Builder.start .updateMany Users.collection).run
      [.change .set Users.age Users.given, .upsert]
    b.failure = none ∧ b.build = .error (.invalidQuery (.missingFilter .updateMany)) ∧
      b.query.target = Users.collection ∧ b.query.limit = none ∧ b.query.documents = [] ∧
      b.query.pipeline = [] ∧ b.build ≠ .error (.invalidQuery .missingTarget) := by
  intro b
  have hb : (Builder.start .updateMany Users.collection).run
      [.change .set Users.age Users.given, .upsert] = b := rfl
  obtain ⟨-, htarget, hread, hdocuments, -, hpipeline, -, -, hfaults⟩ := reachable_parts hb
  obtain ⟨-, -, -, hlimit⟩ := hread (by decide)
  exact ⟨rfl, rfl, htarget, hlimit, hdocuments (by decide), hpipeline (by decide), (hfaults rfl).1⟩

end DocumentQuery

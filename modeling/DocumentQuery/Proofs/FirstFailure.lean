import Mathlib.Data.List.TakeWhile
import DocumentQuery.Proofs.Chain
import DocumentQuery.Proofs.FilterFormula
/-!
# The first failure of a chain

A call looks at nothing of the query but its operation, which no call changes,
to see whether it applies, and after that only at its own argument. So a call
fails on every builder without a failure as it fails on a fresh one. A call
that fails leaves the query alone. Therefore a chain does what its calls up to
the first failing one do, and then keeps that failure.

Main definitions:
* `Call.fault?`: how a call fails for an operation.
* `Query.after`: the query after calls that all apply.

Results:
* `Call.apply_eq`: what a call does, and that it leaves the query alone if it
  fails.
* `Builder.run_fresh`: the query and the failure after a chain.
* `first_failure_kept`: what this says of built queries.
-/
namespace DocumentQuery

/-! ## One call -/

namespace Call

/-- What is wrong with the argument of a call: a limit may be too large, and a name of a stage no
identifier. -/
def argumentFault? : Call → Option Error
  | .limit n => if maxLimit < n then some (.invalidQuery (.limitTooLarge n)) else none
  | c => (c.stage?.bind Stage.invalidName?).map fun name => .invalidName .alias name.1 name.2

/-- How a call fails for an operation. -/
def fault? (operation : Operation) (c : Call) : Option Error :=
  match c.requirement with
  | none => c.argumentFault?
  | some family =>
    if family.allows operation then c.argumentFault?
    else some (.incompatible c.method operation family)

theorem failure_pushStage (q : Query) (s : Stage) :
    (q.pushStage s).failure =
      s.invalidName?.map fun name => .invalidName .alias name.1 name.2 := by
  unfold Query.pushStage
  cases s.invalidName? <;> rfl

theorem query_pushStage_of_failure {q : Query} {s : Stage} {e : Error}
    (h : (q.pushStage s).failure = some e) : (q.pushStage s).query = q := by
  unfold Query.pushStage at h ⊢
  cases hname : s.invalidName? with
  | none =>
    rw [hname] at h
    cases h
  | some name => rfl

/-- The argument alone decides whether a call that applies fails. -/
theorem failure_perform (c : Call) (q : Query) : (c.perform q).failure = c.argumentFault? := by
  cases c with
  | limit n =>
    simp only [perform, argumentFault?]
    split <;> rfl
  | stage _ | matching _ | project _ | group _ _ | lookup _ _ _ _ | unwind _ =>
    exact failure_pushStage q _
  | _ => rfl

/-- Nothing is changed before the argument is looked at. -/
theorem query_perform_of_failure {c : Call} {q : Query} {e : Error}
    (h : (c.perform q).failure = some e) : (c.perform q).query = q := by
  cases c with
  | limit n =>
    simp only [perform] at h ⊢
    split at h
    · rename_i hlarge
      rw [if_pos hlarge]
    · cases h
  | stage _ | matching _ | project _ | group _ _ | lookup _ _ _ _ | unwind _ =>
    exact query_pushStage_of_failure h
  | _ => cases h

theorem perform_eq (c : Call) (q : Query) :
    c.perform q = match c.argumentFault? with
      | some e => ⟨q, some e⟩
      | none => ⟨(c.perform q).query, none⟩ := by
  have hfailure := c.failure_perform q
  cases hfault : c.argumentFault? with
  | some e =>
    rw [hfault] at hfailure
    show (⟨(c.perform q).query, (c.perform q).failure⟩ : Builder) = _
    rw [query_perform_of_failure hfailure, hfailure]
  | none =>
    rw [hfault] at hfailure
    simp only [← hfailure]

/-- A call that fails leaves the query as it is, and one that does not fail does what it does where
it applies. -/
theorem apply_eq (c : Call) (q : Query) :
    c.apply q = match c.fault? q.operation with
      | some e => ⟨q, some e⟩
      | none => ⟨(c.perform q).query, none⟩ := by
  unfold apply fault?
  cases c.requirement with
  | none => exact c.perform_eq q
  | some family =>
    by_cases hallows : family.allows q.operation = true
    · simp only [hallows, if_true]
      exact c.perform_eq q
    · simp only [hallows]
      rfl

end Call

/-! ## Chains -/

/-- The query after the calls, each taken as one that applies. -/
def Query.after (q : Query) (calls : List Call) : Query :=
  calls.foldl (fun q c => (c.perform q).query) q

theorem Query.operation_after (q : Query) (calls : List Call) :
    (q.after calls).operation = q.operation := by
  induction calls generalizing q with
  | nil => rfl
  | cons c calls ih =>
    have hcons : q.after (c :: calls) = (c.perform q).query.after calls := rfl
    rw [hcons, ih]
    exact (c.perform_fixed q).1

namespace Builder

theorem call_failure {b : Builder} (h : b.failure = none) (c : Call) :
    (b.call c).failure = c.fault? b.query.operation := by
  rw [call_of_no_failure h, c.apply_eq]
  cases c.fault? b.query.operation <;> rfl

/-- The calls before the first failing one are run, and its failure is kept. -/
theorem run_fresh (q : Query) (calls : List Call) :
    run ⟨q, none⟩ calls =
      ⟨q.after (calls.takeWhile fun c => (c.fault? q.operation).isNone),
        calls.findSome? (Call.fault? q.operation)⟩ := by
  induction calls generalizing q with
  | nil => rfl
  | cons c calls ih =>
    have hcons : run ⟨q, none⟩ (c :: calls) = (c.apply q).run calls := rfl
    rw [hcons, c.apply_eq]
    cases hfault : c.fault? q.operation with
    | some e =>
      have hkept : run ⟨q, some e⟩ calls = ⟨q, some e⟩ := run_of_failure rfl calls
      simp [hfault, hkept, Query.after]
    | none =>
      have hop := (c.perform_fixed q).1
      simp [hfault, ih, hop, Query.after]

/-- A call on a builder without a failure fails as its operation has it. -/
theorem failure_call_run {q : Query} {before : List Call}
    (h : (run ⟨q, none⟩ before).failure = none) (c : Call) :
    ((run ⟨q, none⟩ before).call c).failure = c.fault? q.operation := by
  rw [call_failure h, run_fresh, Query.operation_after]

theorem build_of_failure {b : Builder} {e : Error} (h : b.failure = some e) :
    b.build = .error e := by
  simp [build, h]

theorem build_of_no_failure {b : Builder} (h : b.failure = none) :
    b.build = (b.query.validate.mapError .invalidQuery).map fun _ => b.query := by
  simp only [build, h]
  cases b.query.validate <;> rfl

theorem build_fresh_eq_ok_iff {q q' : Query} :
    (⟨q, none⟩ : Builder).build = .ok q' ↔ q.validate = .ok () ∧ q' = q := by
  rw [build_of_no_failure rfl]
  cases q.validate with
  | error fault => exact iff_of_false (fun h => by cases h) (fun h => by cases h.1)
  | ok u => exact ⟨fun h => ⟨rfl, by cases h; rfl⟩, fun h => by rw [h.2]; rfl⟩

end Builder

/-- How a call fails on a fresh builder. -/
def Start.fault? (start : Start) (target : Collection) (c : Call) : Option Error :=
  ((Builder.start start target).call c).failure

theorem Start.fault?_eq (start : Start) (target : Collection) :
    start.fault? target = Call.fault? start.operation := by
  funext c
  exact Builder.call_failure rfl c

/-- A call fails as it does on any fresh builder of the operation, as long as no other call has
failed. A chain does what its calls up to the first failing one do, and keeps the failure of that
one, whichever calls follow. Without a failure it builds the query that all calls lead to, if that
is well formed. -/
theorem first_failure_kept (start : Start) (target : Collection) (calls : List Call) :
    (∀ (other : Start) (target' : Collection) (before : List Call) (c : Call),
      other.operation = start.operation →
      ((Builder.start other target').run before).failure = none →
      (((Builder.start other target').run before).call c).failure = start.fault? target c) ∧
    ((Builder.start start target).run calls).failure = calls.findSome? (start.fault? target) ∧
    ((Builder.start start target).run calls).query =
      (start.query target).after (calls.takeWhile fun c => (start.fault? target c).isNone) ∧
    (∀ e, calls.findSome? (start.fault? target) = some e →
      ((Builder.start start target).run calls).build = .error e) ∧
    ((∀ c ∈ calls, start.fault? target c = none) →
      ((Builder.start start target).run calls).build =
        (((start.query target).after calls).validate.mapError .invalidQuery).map
          fun _ => (start.query target).after calls) := by
  have hrun : (Builder.start start target).run calls =
      ⟨(start.query target).after (calls.takeWhile fun c => (c.fault? start.operation).isNone),
        calls.findSome? (Call.fault? start.operation)⟩ :=
    Builder.run_fresh (start.query target) calls
  rw [Start.fault?_eq, hrun]
  refine ⟨fun other target' before c hother hnone => ?_, rfl, rfl, fun e he => ?_, fun hnone => ?_⟩
  · rw [← hother]
    exact Builder.failure_call_run (q := other.query target') hnone c
  · exact Builder.build_of_failure he
  · rw [List.findSome?_eq_none_iff.mpr hnone, List.takeWhile_eq_self_iff.mpr (by simpa using hnone)]
    exact Builder.build_of_no_failure rfl

/-- A limit that is in order, a call for updates, a limit that is too large, and a filter. -/
def mixedCalls : List Call :=
  [.limit 5, .upsert, .limit 20000, .filter (.presence Users.email true)]

theorem first_failure_kept_mixedCalls :
    (((Builder.start .find Users.collection).run [.limit 5]).call (.limit 20000)).failure =
      Start.find.fault? Users.collection (.limit 20000) ∧
    ((Builder.start .find Users.collection).run mixedCalls).build =
      .error (.incompatible "upsert" .find .update) ∧
    ((Builder.start .find Users.collection).run mixedCalls).query =
      (Start.find.query Users.collection).after [.limit 5] := by
  obtain ⟨hany, -, hquery, hbuild, -⟩ := first_failure_kept .find Users.collection mixedCalls
  exact ⟨hany .find Users.collection [.limit 5] (.limit 20000) rfl rfl, hbuild _ rfl, hquery⟩

end DocumentQuery

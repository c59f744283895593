import Mathlib.Data.List.Induction
import DocumentQuery.Builder
import DocumentQuery.Proofs.Steps
/-!
# What a chain of calls leaves

A chain that builds a query runs its calls one after the other on the query, so
what each call leaves alone the whole chain leaves alone. Filters are apart from
everything else: a filter call changes the filter only, and no other call looks
at it.

Main definitions:
* `Call.run`: what a call makes of a query, or why it fails.
* `Call.filters`: the filters that a chain records, in order.
* `Filter.conjoin`: the filter of a query after recording more of them.
* `Call.effect`: what a call makes of a query where it does not fail.

Results:
* `build_eq_ok_iff`: a chain in terms of `Call.run`.
* `foldlM_run_induction`: what holds at the start and is kept by every call.
* `foldlM_run_filter`: the filter of the built query.
* `foldlM_run_without_filters`: a chain without its filter calls.
-/
namespace DocumentQuery

/-! ## Chains as sequences of checks -/

namespace Builder

/-- The query as it stands, or the failure. -/
def result (b : Builder) : Except Error Query :=
  match b.failure with
  | some e => .error e
  | none => .ok b.query

theorem result_eq_ok_iff {b : Builder} {q : Query} : b.result = .ok q ↔ b = ⟨q, none⟩ := by
  obtain ⟨query, failure⟩ := b
  cases failure <;> simp [result]

theorem result_eq_error_iff {b : Builder} {e : Error} :
    b.result = .error e ↔ b.failure = some e := by
  obtain ⟨query, failure⟩ := b
  cases failure <;> simp [result]

end Builder

/-- What a call makes of a query, or why it fails. -/
def Call.run (q : Query) (c : Call) : Except Error Query := (c.apply q).result

namespace Builder

theorem call_of_no_failure {b : Builder} (h : b.failure = none) (c : Call) :
    b.call c = c.apply b.query := by
  simp [call, h]

theorem run_eq (b : Builder) (h : b.failure = none) (calls : List Call) :
    match calls.foldlM Call.run b.query with
    | .ok q => b.run calls = ⟨q, none⟩
    | .error e => (b.run calls).failure = some e := by
  induction calls generalizing b with
  | nil =>
    obtain ⟨q, failure⟩ := b
    cases h
    rfl
  | cons c calls ih =>
    have hcons : b.run (c :: calls) = (c.apply b.query).run calls := by
      rw [← call_of_no_failure h]
      rfl
    rw [List.foldlM_cons, hcons]
    cases hc : Call.run b.query c with
    | error e =>
      have hfailure : (c.apply b.query).failure = some e := result_eq_error_iff.mp hc
      show ((c.apply b.query).run calls).failure = some e
      rw [run_of_failure hfailure, hfailure]
    | ok q =>
      rw [result_eq_ok_iff.mp hc]
      exact ih ⟨q, none⟩ rfl

/-- A chain builds a query exactly if its calls lead there and the query is well formed. -/
theorem build_eq_ok_iff {b : Builder} (h : b.failure = none) {calls : List Call} {q : Query} :
    (b.run calls).build = .ok q ↔
      calls.foldlM Call.run b.query = .ok q ∧ q.validate = .ok () := by
  have hrun := run_eq b h calls
  cases hcalls : calls.foldlM Call.run b.query with
  | error e =>
    rw [hcalls] at hrun
    simp [build, show (b.run calls).failure = some e from hrun]
  | ok q' =>
    rw [hcalls] at hrun
    rw [show b.run calls = ⟨q', none⟩ from hrun]
    cases hvalid : q'.validate with
    | error fault =>
      simp only [build, hvalid, reduceCtorEq, false_iff, not_and]
      intro he
      cases he
      rw [hvalid]
      simp
    | ok u =>
      simp only [build, hvalid]
      constructor
      · intro he
        cases he
        exact ⟨rfl, hvalid⟩
      · intro h'
        obtain ⟨he, -⟩ := h'
        cases he
        rfl

/-- The calls of a chain lead to what it builds, which is well formed. -/
theorem run_of_build {start : Start} {target : Collection} {calls : List Call} {q : Query}
    (h : ((Builder.start start target).run calls).build = .ok q) :
    calls.foldlM Call.run (start.query target) = .ok q ∧ q.validate = .ok () :=
  (build_eq_ok_iff rfl).mp h

/-- The calls of a chain that does not fail lead to its query. -/
theorem foldlM_of_run {start : Start} {target : Collection} {calls : List Call} {q : Query}
    (h : (Builder.start start target).run calls = ⟨q, none⟩) :
    calls.foldlM Call.run (start.query target) = .ok q := by
  have hrun := run_eq (Builder.start start target) rfl calls
  cases hcalls : calls.foldlM Call.run (Builder.start start target).query with
  | error e =>
    rw [hcalls, h] at hrun
    cases hrun
  | ok q' =>
    rw [hcalls] at hrun
    cases hrun.symm.trans h
    exact hcalls

end Builder

/-! ## One call -/

/-- The query with another filter. -/
def Query.withFilter (q : Query) (o : Option Filter) : Query := { q with filter := o }

/-- The builder of the query with another filter. -/
def Builder.withFilter (b : Builder) (o : Option Filter) : Builder :=
  { b with query := b.query.withFilter o }

theorem Builder.result_withFilter (b : Builder) (o : Option Filter) :
    (b.withFilter o).result = b.result.map (·.withFilter o) := by
  obtain ⟨query, failure⟩ := b
  cases failure <;> rfl

namespace Call

/-- The filter that a call records. -/
def filter? : Call → Option Filter
  | .filter f => some f
  | _ => none

/-- The filters that a chain records, in order. -/
def filters (calls : List Call) : List Filter := calls.filterMap filter?

theorem pushStage_withFilter (q : Query) (o : Option Filter) (s : Stage) :
    (q.withFilter o).pushStage s = (q.pushStage s).withFilter o := by
  unfold Query.pushStage
  cases s.invalidName? <;> rfl

/-- Only filter calls look at the filter. -/
theorem perform_withFilter {c : Call} (h : c.filter? = none) (q : Query) (o : Option Filter) :
    c.perform (q.withFilter o) = (c.perform q).withFilter o := by
  cases c with
  | filter f => cases h
  | limit n =>
    simp only [perform]
    split <;> rfl
  | stage _ | matching _ | project _ | group _ _ | lookup _ _ _ _ | unwind _ =>
    simp only [perform, pushStage_withFilter]
  | _ => rfl

theorem run_withFilter {c : Call} (h : c.filter? = none) (q : Query) (o : Option Filter) :
    c.run (q.withFilter o) = (c.run q).map (·.withFilter o) := by
  have hperform := perform_withFilter h q o
  rw [run, run, ← Builder.result_withFilter]
  unfold apply
  cases c.requirement with
  | none => exact congrArg Builder.result hperform
  | some family =>
    show (if family.allows q.operation then _ else _ : Builder).result = _
    by_cases hallows : family.allows q.operation = true
    · simp only [hallows, if_true]
      exact congrArg Builder.result hperform
    · simp only [hallows]
      rfl

end Call

/-- A call that records no filter leaves the filter as it is. -/
theorem Call.run_filter_eq {c : Call} (h : c.filter? = none) {q q' : Query}
    (hrun : c.run q = .ok q') : q'.filter = q.filter := by
  have hsame := Call.run_withFilter h q q.filter
  have hq : q.withFilter q.filter = q := rfl
  rw [hq, hrun] at hsame
  injection hsame with hsame
  rw [hsame]
  rfl

/-- A call that succeeds applies. -/
theorem Call.perform_of_run {c : Call} {q q' : Query} (h : c.run q = .ok q') :
    c.perform q = ⟨q', none⟩ := by
  have happly := Builder.result_eq_ok_iff.mp h
  unfold Call.apply at happly
  cases hreq : c.requirement with
  | none => simpa only [hreq] using happly
  | some family =>
    simp only [hreq] at happly
    split at happly
    · exact happly
    · cases happly

/-- A call leaves the operation and the target as they are, whether it fails or not. -/
theorem Call.perform_fixed (c : Call) (q : Query) :
    (c.perform q).query.operation = q.operation ∧ (c.perform q).query.target = q.target := by
  cases c with
  | filter f =>
    show (q.restrict f).operation = _ ∧ (q.restrict f).target = _
    unfold Query.restrict
    cases q.filter <;> exact ⟨rfl, rfl⟩
  | limit n =>
    simp only [perform]
    split <;> exact ⟨rfl, rfl⟩
  | stage _ | matching _ | project _ | group _ _ | lookup _ _ _ _ | unwind _ =>
    simp only [perform, Query.pushStage]
    split <;> exact ⟨rfl, rfl⟩
  | _ => exact ⟨rfl, rfl⟩

theorem Call.run_fixed {c : Call} {q q' : Query} (h : c.run q = .ok q') :
    q'.operation = q.operation ∧ q'.target = q.target := by
  have hfixed := c.perform_fixed q
  rw [Call.perform_of_run h] at hfixed
  exact hfixed

/-! ## The whole chain -/

/-- The filter of a query after recording more filters: the conjunction of what is there with each
of them in turn. -/
def Filter.conjoin : Option Filter → List Filter → Option Filter
  | o, [] => o
  | none, f :: fs => conjoin (some f) fs
  | some g, f :: fs => conjoin (some (.group .and [g, f])) fs

theorem Filter.conjoin_cons (q : Query) (f : Filter) (fs : List Filter) :
    Filter.conjoin q.filter (f :: fs) = Filter.conjoin (q.restrict f).filter fs := by
  unfold Query.restrict
  cases h : q.filter <;> rfl

theorem Query.restrict_eq (q : Query) (f : Filter) :
    q.restrict f = q.withFilter (Filter.conjoin q.filter [f]) := by
  unfold Query.restrict
  cases q.filter <;> rfl

theorem Query.restrict_withFilter (q : Query) (f : Filter) (o : Option Filter) :
    (q.restrict f).withFilter o = q.withFilter o := by
  rw [restrict_eq]
  rfl

/-! ## What a call makes of a query -/

theorem Query.eq_of_pushStage {q q' : Query} {s : Stage} (h : q.pushStage s = ⟨q', none⟩) :
    s.invalidName? = none ∧ q' = { q with pipeline := q.pipeline ++ [s] } := by
  unfold Query.pushStage at h
  cases hname : s.invalidName? with
  | some name =>
    rw [hname] at h
    cases h
  | none =>
    rw [hname] at h
    cases h
    exact ⟨rfl, rfl⟩

/-- The stage that a call adds to the pipeline. -/
def Call.stage? : Call → Option Stage
  | .stage s => some s
  | .matching f => some (.filter f)
  | .project p => some (.project p ∅)
  | .group id accumulators => some (.group id (.ofList accumulators))
  | .lookup source localField foreignField output =>
    some (.lookup source localField foreignField output [] ∅)
  | .unwind path => some (.unwind path none false)
  | _ => none

/-- What a call makes of a query where it does not fail. -/
def Call.effect (q : Query) : Call → Query
  | .filter f => q.withFilter (Filter.conjoin q.filter [f])
  | .limit n => { q with limit := some (.fixed n) }
  | c => c.stage?.elim (c.perform q).query fun s => { q with pipeline := q.pipeline ++ [s] }

theorem Call.eq_effect_of_run {c : Call} {q q' : Query} (h : c.run q = .ok q') :
    q' = c.effect q := by
  have hperform := perform_of_run h
  cases c with
  | filter f =>
    cases hperform
    exact q.restrict_eq f
  | limit n =>
    simp only [perform] at hperform
    split at hperform
    · cases hperform
    · cases hperform
      rfl
  | stage _ | matching _ | project _ | group _ _ | lookup _ _ _ _ | unwind _ =>
    rw [perform] at hperform
    exact (Query.eq_of_pushStage hperform).2
  | _ =>
    cases hperform
    rfl

section Chain

variable {q q' : Query}

/-- What holds of no calls and the query at the start, and is kept by every call that succeeds,
holds of all calls and the query that they lead to. -/
theorem foldlM_run_induction {P : List Call → Query → Prop} (hstart : P [] q)
    (hstep : ∀ {calls c mid next}, P calls mid → Call.run mid c = .ok next → P (calls ++ [c]) next)
    {calls : List Call} (h : calls.foldlM Call.run q = .ok q') : P calls q' := by
  induction calls using List.reverseRecOn generalizing q' with
  | nil =>
    cases h
    exact hstart
  | append_singleton calls c ih =>
    rw [List.foldlM_append, bind_eq_ok_iff] at h
    obtain ⟨mid, hmid, hlast⟩ := h
    rw [List.foldlM_cons, bind_eq_ok_iff] at hlast
    obtain ⟨next, hnext, hnil⟩ := hlast
    cases hnil
    exact hstep (ih hmid) hnext

theorem foldlM_run_fixed {calls : List Call} (h : calls.foldlM Call.run q = .ok q') :
    q'.operation = q.operation ∧ q'.target = q.target := by
  refine foldlM_run_induction (P := fun _ q' => q'.operation = q.operation ∧ q'.target = q.target)
    ⟨rfl, rfl⟩ (fun hmid hrun => ?_) h
  obtain ⟨hop, htarget⟩ := Call.run_fixed hrun
  exact ⟨hop.trans hmid.1, htarget.trans hmid.2⟩

/-- The filter of the built query is the conjunction of all that were recorded. -/
theorem foldlM_run_filter : ∀ {calls : List Call} {q : Query}, calls.foldlM Call.run q = .ok q' →
    q'.filter = Filter.conjoin q.filter (Call.filters calls)
  | [], _, h => by
    cases h
    rfl
  | c :: calls, q, h => by
    rw [List.foldlM_cons, bind_eq_ok_iff] at h
    obtain ⟨mid, hmid, hrest⟩ := h
    rw [foldlM_run_filter hrest, Call.filters, Call.filters, List.filterMap_cons]
    cases hc : c.filter? with
    | none => simp only [Call.run_filter_eq hc hmid]
    | some f =>
      cases c with
      | filter g =>
        cases hc
        cases hmid
        exact (Filter.conjoin_cons q _ _).symm
      | _ => cases hc

/-- Without its filter calls, a chain does the same to everything but the filter. -/
theorem foldlM_run_without_filters (o : Option Filter) : ∀ (calls : List Call) (q : Query),
    (calls.filter fun c => c.filter?.isNone).foldlM Call.run (q.withFilter o) =
      (calls.foldlM Call.run q).map (·.withFilter o)
  | [], _ => rfl
  | c :: calls, q => by
    rw [List.filter_cons, List.foldlM_cons]
    cases hc : c.filter? with
    | none =>
      rw [if_pos (Option.isNone_none), List.foldlM_cons, Call.run_withFilter hc]
      cases c.run q with
      | error e => rfl
      | ok mid => exact foldlM_run_without_filters o calls mid
    | some f =>
      cases c with
      | filter g =>
        have ih := foldlM_run_without_filters o calls (q.restrict g)
        rw [q.restrict_withFilter g o] at ih
        exact ih
      | _ => cases hc

end Chain

end DocumentQuery

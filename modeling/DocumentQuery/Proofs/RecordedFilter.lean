import DocumentQuery.Proofs.RenderedFilter
/-!
# Filters recorded by a chain

A filter call applies to every operation, so a chain may record a filter for an
operation that takes none. The built query has the filter, and its rendering
succeeds, but nothing of the filter is left in it.

Results:
* `recorded_filter_kept_iff`: a rendered chain has its filters in it exactly if
  its operation takes a filter; else it renders as if no filter was recorded.
* `insert_loses_filter`: an insertion that loses its filter.
-/
namespace DocumentQuery

/-- A rendered chain has the conjunction of its filters in it exactly if its operation takes a
filter. If it takes none, leaving out the filter calls changes nothing. -/
theorem recorded_filter_kept_iff {start : Start} {target : Collection} {calls : List Call}
    {dialect : Dialect} {f : Filter} {r : Rendered}
    (hf : Filter.conjoin none (Call.filters calls) = some f)
    (h : ((Builder.start start target).run calls).render dialect = .ok r) :
    (Carries dialect start.operation f r ↔ start.operation.takesFilter = true) ∧
    (start.operation.takesFilter = false →
      ((Builder.start start target).run (calls.filter fun c => c.filter?.isNone)).render dialect =
        .ok r) := by
  obtain ⟨q, hbuild, hrender⟩ : ∃ q, ((Builder.start start target).run calls).build = .ok q ∧
      q.render dialect = .ok r := bind_eq_ok_iff.mp h
  obtain ⟨hcalls, hvalid⟩ : calls.foldlM Call.run (start.query target) = .ok q ∧
      q.validate = .ok () := (Builder.build_eq_ok_iff rfl).mp hbuild
  obtain ⟨hop, -⟩ : q.operation = start.operation ∧ _ := foldlM_run_fixed hcalls
  have hfilter : q.filter = some f := by
    rw [foldlM_run_filter hcalls, ← hf]
    rfl
  rw [← hop]
  refine ⟨⟨fun hcarries => ?_, fun htakes => carries_of_render hfilter htakes hrender⟩,
    fun hnot => ?_⟩
  · by_contra hnot
    rw [Bool.not_eq_true] at hnot
    obtain ⟨v, ps, -, hget, -⟩ := hcarries.rendered
    rw [get?_filterKey_eq_none hnot hrender] at hget
    cases hget
  · have hsame := foldlM_run_without_filters none calls (start.query target)
    rw [hcalls] at hsame
    refine bind_eq_ok_iff.mpr ⟨q.withFilter none, ?_, render_withFilter_none hnot hrender⟩
    exact (Builder.build_eq_ok_iff rfl).mpr ⟨hsame, validate_withFilter_none hnot hvalid⟩

/-- Users with a status and an address, five at most. -/
def reachableUsers : List Call :=
  [.filter (.condition Users.status .eq Users.given), .limit 5,
    .filter (.presence Users.email true)]

theorem recorded_filter_kept_iff_reachableUsers :
    ∃ f r, Filter.conjoin none (Call.filters reachableUsers) = some f ∧
      ((Builder.start .find Users.collection).run reachableUsers).render .dynamo = .ok r ∧
      Carries .dynamo .find f r := by
  obtain ⟨f, hf⟩ : ∃ f, Filter.conjoin none (Call.filters reachableUsers) = some f := ⟨_, rfl⟩
  obtain ⟨r, hr⟩ : ∃ r,
      ((Builder.start .find Users.collection).run reachableUsers).render .dynamo = .ok r :=
    ⟨_, rfl⟩
  exact ⟨f, r, hf, hr, (recorded_filter_kept_iff hf hr).1.mpr rfl⟩

/-- The chain asks for users with a status, and inserts one all the same. -/
def insertedUser : List Call :=
  [.filter (.condition Users.status .eq Users.given),
    .document ⟨.ofList [(Users.name, Users.label)]⟩]

/-- The insertion renders, without the filter and without its parameter. -/
theorem insert_loses_filter :
    ∃ f r, Filter.conjoin none (Call.filters insertedUser) = some f ∧
      ((Builder.start .insert Users.collection).run insertedUser).render .mongo = .ok r ∧
      ¬ Carries .mongo .insert f r ∧ r.paramNames = ["label"] := by
  obtain ⟨r, hr, hnames, hnone⟩ : ∃ r,
      ((Builder.start .insert Users.collection).run insertedUser).render .mongo = .ok r ∧
        r.paramNames = ["label"] ∧ Entries.get? "filter" r.entries = none :=
    ⟨_, rfl, rfl, rfl⟩
  refine ⟨_, r, rfl, hr, fun hcarries => ?_, hnames⟩
  obtain ⟨v, ps, -, hget, -⟩ := hcarries.rendered
  cases hget.symm.trans hnone

end DocumentQuery

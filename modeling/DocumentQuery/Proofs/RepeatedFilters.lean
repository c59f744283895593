import DocumentQuery.Proofs.Conjunctions
import DocumentQuery.Proofs.FirstFailure
import DocumentQuery.Proofs.FittingParts
/-!
# Repeated filters

A chain may record any number of filters, between calls of other kinds. What it
leads to is one filter that nests on the left: the first filter lies deepest, and
each later call puts all earlier filters one step down. It says what all the
filters say together. Since the depth of a find is limited, the number of its
filters is too, the less so the flatter they are.

Results:
* `Filter.nesting_conjunction_eq`: how deep a conjunction is, whatever its
  filters are.
* `Filter.holds_conjunction`: what it says.
* `Query.Fitting.validate_iff`: when a find is well formed, if only its filter may
  be at fault.
* `filters_conjoined`: all of this, for what chains lead to.
-/
namespace DocumentQuery

namespace Filter

variable {f g : Filter} {fs : List Filter}

/-! ## Depth and meaning -/

/-- The first filter sinks one step for each of the others; so does each other one for those after
it, and one step more for the group that it is added by. -/
theorem nesting_conjunction_eq (g : Filter) (fs : List Filter) :
    (conjunction g fs).nesting =
      (fs.mapIdx fun i f => fs.length - i + f.nesting).foldl max (fs.length + g.nesting) := by
  induction fs generalizing g with
  | nil => simp [conjunction]
  | cons f fs ih =>
    have hpair : fs.length + (group .and [g, f]).nesting =
        max (fs.length + 1 + g.nesting) (fs.length + 1 + f.nesting) := by
      rw [nesting_pair]
      omega
    -- the places of the later filters are counted from one further on
    have hlater : (fs.mapIdx fun i h => fs.length + 1 - (i + 1) + h.nesting) =
        fs.mapIdx fun i h => fs.length - i + h.nesting := by
      simp only [Nat.add_sub_add_right]
    rw [conjunction, ih, hpair, List.length_cons, List.mapIdx_cons, List.foldl_cons, hlater]
    rfl

theorem holds_pair {δ : Type} (I : Interpretation δ) (d : δ) :
    (group .and [g, f]).formula.holds I d = (g.formula.holds I d && f.formula.holds I d) := by
  simp [formula, formulas, LogicOperator.combine]

/-- A document passes a conjunction if it passes all its filters. -/
theorem holds_conjunction {δ : Type} (I : Interpretation δ) (d : δ) :
    (conjunction g fs).formula.holds I d = (g :: fs).all fun f => f.formula.holds I d := by
  induction fs generalizing g with
  | nil => simp [conjunction]
  | cons f fs ih =>
    rw [conjunction, ih, List.all_cons, List.all_cons, List.all_cons, holds_pair, Bool.and_assoc]

/-- Conjunction makes no empty group. -/
theorem emptyGroup?_conjunction (h : ∀ f ∈ g :: fs, f.emptyGroup? = none) :
    (conjunction g fs).emptyGroup? = none := by
  obtain ⟨hg, hfs⟩ := List.forall_mem_cons.mp h
  rw [emptyGroup?_eq_none_iff] at hg ⊢
  refine forall_nodes_conjunction (fun _ _ hempty => List.cons_ne_nil _ _ hempty) hg fun f hf => ?_
  exact (emptyGroup?_eq_none_iff f).mp (hfs f hf)

end Filter

/-! ## Finds -/

/-- A find whose other parts are in range is well formed if its filter is not too deep. -/
theorem Query.Fitting.validate_iff {q : Query} (h : q.Fitting)
    (hop : q.operation = .find ∨ q.operation = .findOne) {f : Filter} (hf : q.filter = some f)
    (hgroups : f.emptyGroup? = none) (hsort : q.sort.length ≤ maxSortFields)
    (hprojection : ∀ p, q.projection = some p → p.fields.length ≤ maxProjectionFields) :
    q.validate = .ok () ↔ f.nesting ≤ maxFilterDepth := by
  have hpipeline : q.pipeline = [] := h.pipeline (by rcases hop with hop | hop <;> simp [hop])
  rw [validate_eq_ok_iff, emptyGroup?_eq_none, validateOperation_of_find hop,
    validateFind_eq_ok_iff, hpipeline, hf]
  simp only [Option.bind_some, hgroups, Stage.emptyGroupIn?, Option.some.injEq, forall_eq', hsort]
  exact ⟨fun h' => h'.2.2.2.2.2, fun hdepth =>
    ⟨q.target.isEmpty_name, ⟨trivial, trivial⟩, h.limit_le, hprojection, trivial, hdepth⟩⟩

/-! ## Chains -/

/-- A chain that does not fail and records filters, with whatever calls between them, leads to their
conjunction. A document passes it if it passes all of them, it has their parameters in order, and
each filter lies as deep as the number of later ones has it. A find by it, with at most 10 sort
clauses and at most 100 fields to project, is built exactly if the conjunction is at most 10 steps
deep. -/
theorem filters_conjoined {start : Start} {target : Collection} {calls : List Call} {q : Query}
    {f : Filter} {fs : List Filter} (hrun : (Builder.start start target).run calls = ⟨q, none⟩)
    (hfilters : Call.filters calls = f :: fs) (hgroups : ∀ g ∈ f :: fs, g.emptyGroup? = none) :
    q.filter = some (Filter.conjunction f fs) ∧
    (∀ {δ : Type} (I : Interpretation δ) (d : δ),
      (Filter.conjunction f fs).formula.holds I d =
        (f :: fs).all fun g => g.formula.holds I d) ∧
    (Filter.conjunction f fs).params = (f :: fs).flatMap Filter.params ∧
    (Filter.conjunction f fs).nesting =
      (fs.mapIdx fun i g => fs.length - i + g.nesting).foldl max (fs.length + f.nesting) ∧
    (start.operation = .find ∨ start.operation = .findOne → q.sort.length ≤ 10 →
      (∀ p, q.projection = some p → p.fields.length ≤ 100) →
      ((∃ built, ((Builder.start start target).run calls).build = .ok built) ↔
        (Filter.conjunction f fs).nesting ≤ 10)) := by
  have hcalls := Builder.foldlM_of_run hrun
  have hfilter : q.filter = some (Filter.conjunction f fs) := by
    rw [foldlM_run_filter hcalls, hfilters]
    exact Filter.conjoin_none_cons
  refine ⟨hfilter, fun I d => Filter.holds_conjunction I d, ?_, Filter.nesting_conjunction_eq f fs,
    fun hop hsort hprojection => ?_⟩
  · rw [Filter.params_conjunction, List.flatMap_cons]
  · have hfind : q.operation = .find ∨ q.operation = .findOne := by
      rwa [(foldlM_run_fixed hcalls).1]
    have hfitting : q.Fitting := by
      have hquery := fitting_run (b := .start start target) (.start start target) calls
      rwa [hrun] at hquery
    have hvalid := hfitting.validate_iff hfind hfilter (Filter.emptyGroup?_conjunction hgroups)
      hsort hprojection
    rw [hrun, ← show maxFilterDepth = 10 from rfl, ← hvalid]
    simp only [Builder.build_fresh_eq_ok_iff, exists_and_left, exists_eq, and_true]

/-- Three filters, the first and the last of which nest, with a limit and a sort between them. -/
def choosyCalls : List Call :=
  [.filter (.group .or
      [.condition Users.status .eq Users.given, .presence Users.email true]),
    .limit 5, .filter (.condition Users.age .gte Users.least), .sort Users.age .ascending,
    .filter (.elemMatch Users.scores [.condition Users.points .lt Users.greatest])]

theorem filters_conjoined_choosyCalls :
    ∃ q f fs, (Builder.start .find Users.collection).run choosyCalls = ⟨q, none⟩ ∧
      Call.filters choosyCalls = f :: fs ∧ fs.length = 2 ∧
      (Filter.conjunction f fs).nesting = 3 ∧
      ∃ built, ((Builder.start .find Users.collection).run choosyCalls).build = .ok built := by
  obtain ⟨q, hq⟩ : ∃ q, (Builder.start .find Users.collection).run choosyCalls = ⟨q, none⟩ :=
    ⟨_, rfl⟩
  obtain ⟨f, fs, hfilters⟩ : ∃ f fs, Call.filters choosyCalls = f :: fs := ⟨_, _, rfl⟩
  obtain ⟨hgroups, hlength, hdepth⟩ : (∀ g ∈ f :: fs, g.emptyGroup? = none) ∧ fs.length = 2 ∧
      (fs.mapIdx fun i g => fs.length - i + g.nesting).foldl max (fs.length + f.nesting) = 3 := by
    cases hfilters
    exact ⟨by decide, rfl, rfl⟩
  obtain ⟨hsort, hprojection⟩ : q.sort.length ≤ 10 ∧ q.projection = none := by
    cases hq
    exact ⟨by decide, rfl⟩
  obtain ⟨-, -, -, hnesting, hbuild⟩ := filters_conjoined hq hfilters hgroups
  rw [hdepth] at hnesting
  refine ⟨q, f, fs, hq, hfilters, hlength, hnesting, (hbuild (.inl rfl) hsort ?_).mpr ?_⟩
  · rw [hprojection]
    intro p hp
    cases hp
  · omega

end DocumentQuery

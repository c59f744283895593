import DocumentQuery.Proofs.Chain
import DocumentQuery.Proofs.Parameters
/-!
# Conjunctions that a chain makes

Every filter that is recorded after the first one is put beside all the earlier ones:
the recorded filters lie in groups of two, one inside the other on the left. So a flat
list of filters turns into nesting, one step for each filter, while the order of the
leaves and of the parameters is that of the list.

Results:
* `Filter.forall_nodes_conjoin`: what holds of the recorded filters and of groups of
  two holds of the conjunction.
* `Filter.nesting_conjoin`: how deep the first leaf comes to lie.
* `Filter.leaves_conjoin`, `Filter.params_conjoin`: leaves and parameters in order.
* `Builder.run_filters`: what recording filters makes of a builder.
-/
namespace DocumentQuery

namespace Filter

variable {f g : Filter} {fs : List Filter}

/-! ## Groups of two -/

theorem nodes_pair : (group .and [g, f]).nodes = group .and [g, f] :: (g.nodes ++ f.nodes) := by
  simp [nodes, nodesOfAll]

theorem nesting_pair : (group .and [g, f]).nesting = max (g.nesting + 1) (f.nesting + 1) := by
  simp [nesting, nestingBelow]

theorem leaves_pair : (group .and [g, f]).leaves = g.leaves ++ f.leaves := by
  simp [leaves, leavesOfAll]

theorem params_pair : (group .and [g, f]).params = g.params ++ f.params := by
  simp [params, paramsOfAll]

/-! ## Conjunctions -/

/-- The conjunction of a filter with others. -/
def conjunction : Filter → List Filter → Filter
  | g, [] => g
  | g, f :: fs => conjunction (.group .and [g, f]) fs

theorem conjoin_some : ∀ (g : Filter) (fs : List Filter),
    conjoin (some g) fs = some (conjunction g fs)
  | _, [] => rfl
  | g, f :: fs => conjoin_some (.group .and [g, f]) fs

theorem conjoin_none_cons : conjoin none (f :: fs) = some (conjunction f fs) := conjoin_some f fs

theorem forall_nodes_conjunction {P : Filter → Prop} (hpair : ∀ g f, P (group .and [g, f]))
    (hg : ∀ h ∈ g.nodes, P h) (hfs : ∀ f ∈ fs, ∀ h ∈ f.nodes, P h) :
    ∀ h ∈ (conjunction g fs).nodes, P h := by
  induction fs generalizing g with
  | nil => exact hg
  | cons f fs ih =>
    obtain ⟨hf, hfs⟩ := List.forall_mem_cons.mp hfs
    refine ih ?_ hfs
    rw [nodes_pair, List.forall_mem_cons, List.forall_mem_append]
    exact ⟨hpair g f, hg, hf⟩

/-- Each filter that is added puts those before it one step deeper. -/
theorem nesting_conjunction (hfs : ∀ f ∈ fs, f.nesting = 0) :
    (conjunction g fs).nesting = g.nesting + fs.length := by
  induction fs generalizing g with
  | nil => rfl
  | cons f fs ih =>
    obtain ⟨hf, hfs⟩ := List.forall_mem_cons.mp hfs
    rw [conjunction, ih hfs, nesting_pair, hf, List.length_cons]
    omega

theorem leaves_conjunction : (conjunction g fs).leaves = g.leaves ++ fs.flatMap leaves := by
  induction fs generalizing g with
  | nil => simp [conjunction]
  | cons f fs ih => rw [conjunction, ih, leaves_pair, List.flatMap_cons, List.append_assoc]

theorem params_conjunction : (conjunction g fs).params = g.params ++ fs.flatMap params := by
  induction fs generalizing g with
  | nil => simp [conjunction]
  | cons f fs ih => rw [conjunction, ih, params_pair, List.flatMap_cons, List.append_assoc]

/-! ## Recorded filters -/

theorem forall_nodes_conjoin {P : Filter → Prop} (hpair : ∀ g f, P (group .and [g, f]))
    (hfs : ∀ f ∈ fs, ∀ h ∈ f.nodes, P h) :
    ∀ f ∈ conjoin none fs, ∀ h ∈ f.nodes, P h := by
  cases fs with
  | nil => simp [conjoin]
  | cons f fs =>
    obtain ⟨hf, hfs⟩ := List.forall_mem_cons.mp hfs
    rw [conjoin_none_cons]
    intro h hh
    cases hh
    exact forall_nodes_conjunction hpair hf hfs

theorem nesting_conjoin (hfs : ∀ f ∈ fs, f.nesting = 0) :
    (conjoin none fs).elim 0 nesting = fs.length - 1 := by
  cases fs with
  | nil => rfl
  | cons f fs =>
    obtain ⟨hf, hfs⟩ := List.forall_mem_cons.mp hfs
    rw [conjoin_none_cons, Option.elim_some, nesting_conjunction hfs, hf, List.length_cons]
    omega

theorem leaves_conjoin : (conjoin none fs).elim [] leaves = fs.flatMap leaves := by
  cases fs with
  | nil => rfl
  | cons f fs => rw [conjoin_none_cons, Option.elim_some, leaves_conjunction, List.flatMap_cons]

theorem params_conjoin : (conjoin none fs).elim [] params = fs.flatMap params := by
  cases fs with
  | nil => rfl
  | cons f fs => rw [conjoin_none_cons, Option.elim_some, params_conjunction, List.flatMap_cons]

end Filter

/-! ## Chains -/

namespace Builder

theorem run_filters (fs : List Filter) (q : Query) :
    (⟨q, none⟩ : Builder).run (fs.map Call.filter) =
      ⟨q.withFilter (Filter.conjoin q.filter fs), none⟩ := by
  induction fs generalizing q with
  | nil => rfl
  | cons f fs ih =>
    show (⟨q.restrict f, none⟩ : Builder).run (fs.map Call.filter) = _
    rw [ih, Filter.conjoin_cons, q.restrict_withFilter]

end Builder

end DocumentQuery

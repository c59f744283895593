import Mathlib.Order.Bounds.Basic
import DocumentQuery.Query.Basic
/-!
# Places in a query

A query is a tree of filters. Steps lead down from the query to its own filter and to the stages
of its pipeline, from a stage to the filter that it filters by and to the stages inside of it, and
from a filter to its conditions. The place of a filter in the tree is the list of the steps to it.

Places are ordered as the tree is written down: what lies above comes before what lies below, and
of two ways that part, the one with the earlier step comes first.

Main definitions:
* `Step`, `Place`: one step down, and the steps from the root.
* `Place.Before`: the order of places.
* `Filter.At`, `Stage.At`, `Query.At`: a filter stands at a place.
* `Filter.depths`: how many steps the nodes of a filter lie below it.

Results:
* `Filter.isGreatest_nesting`: the nesting of a filter is the depth of its deepest node.
-/
namespace DocumentQuery

/-! ## The order of places -/

/-- One step down in a query. -/
inductive Step where
  /-- To the filter of the query, or of a stage. -/
  | filter
  /-- To a stage of the query, or of a look-up. -/
  | stage (i : Nat)
  /-- To a stage of a facet. -/
  | facet (name : String) (i : Nat)
  /-- To a condition of a group, or of an element match. -/
  | condition (i : Nat)

/-- The filter comes before the stages, facets come by name, and all else by number. -/
inductive Step.Before : Step → Step → Prop where
  | filter {i : Nat} : Before .filter (.stage i)
  | stage {i j : Nat} : i < j → Before (.stage i) (.stage j)
  | facet {name name' : String} {i j : Nat} :
      name < name' → Before (.facet name i) (.facet name' j)
  | insideFacet {name : String} {i j : Nat} : i < j → Before (.facet name i) (.facet name j)
  | condition {i j : Nat} : i < j → Before (.condition i) (.condition j)

theorem Step.Before.asymm {s t : Step} (h : s.Before t) : ¬ t.Before s := by
  intro h'
  cases h with
  | filter => cases h'
  | stage hlt =>
    cases h' with
    | stage hlt' => exact Nat.lt_asymm hlt hlt'
  | facet hlt =>
    cases h' with
    | facet hlt' => exact String.lt_irrefl _ (String.lt_trans hlt hlt')
    | insideFacet => exact String.lt_irrefl _ hlt
  | insideFacet hlt =>
    cases h' with
    | facet hlt' => exact String.lt_irrefl _ hlt'
    | insideFacet hlt' => exact Nat.lt_asymm hlt hlt'
  | condition hlt =>
    cases h' with
    | condition hlt' => exact Nat.lt_asymm hlt hlt'

/-- The steps that lead to a node of a query, from the root on. -/
abbrev Place := List Step

/-- The first place lies above the second one, or its way is the earlier one where they part. -/
def Place.Before : Place → Place → Prop := List.Lex Step.Before

theorem Place.Before.asymm {p q : Place} (h : p.Before q) : ¬ q.Before p :=
  List.lex_asymm (fun h => h.asymm) h

/-! ## Filters at their places -/

/-- The filters right below a filter. -/
def Filter.conditions : Filter → List Filter
  | .group _ conditions | .elemMatch _ conditions => conditions
  | _ => []

/-- A filter at a place, seen from a filter above it or from the filter itself. -/
inductive Filter.At : Filter → Place → Filter → Prop where
  | root (f : Filter) : At f [] f
  | condition {f c g : Filter} {i : Nat} {place : Place} :
      f.conditions[i]? = some c → At c place g → At f (.condition i :: place) g

/-- A filter at a place, seen from a stage that filters or has stages inside. -/
inductive Stage.At : Stage → Place → Filter → Prop where
  | filter {f g place} : f.At place g → At (.filter f) (.filter :: place) g
  | lookup {source localField foreignField output pipeline bindings i t g place} :
      pipeline[i]? = some t → At t place g →
        At (.lookup source localField foreignField output pipeline bindings) (.stage i :: place) g
  | facet {facets name stages i t g place} :
      (name, stages) ∈ facets → stages[i]? = some t → At t place g →
        At (.facet facets) (.facet name i :: place) g

/-- A filter at a place of a query. The conditions in projections have no places. -/
inductive Query.At (q : Query) : Place → Filter → Prop where
  | filter {f g place} : q.filter = some f → f.At place g → At q (.filter :: place) g
  | stage {i s g place} : q.pipeline[i]? = some s → s.At place g → At q (.stage i :: place) g

/-! ## Depth -/

namespace Filter

variable {f c g : Filter} {n : Nat}

/-- The depths of the nodes of a filter. -/
def depths (f : Filter) : Set Nat := {n | ∃ place g, f.At place g ∧ place.length = n}

theorem nestingBelow_le_iff {fs : List Filter} :
    nestingBelow fs ≤ n ↔ ∀ f ∈ fs, f.nesting < n := by
  induction fs with
  | nil => simp [nestingBelow]
  | cons f fs ih => rw [nestingBelow, Nat.max_le, ih, List.forall_mem_cons, Nat.succ_le_iff]

theorem nesting_le_iff : f.nesting ≤ n ↔ ∀ c ∈ f.conditions, c.nesting < n := by
  cases f with
  | group | elemMatch => exact nestingBelow_le_iff
  | _ => simp [nesting, conditions]

theorem nesting_lt_of_mem_conditions (h : c ∈ f.conditions) : c.nesting < f.nesting :=
  nesting_le_iff.mp f.nesting.le_refl c h

/-- No node lies deeper than the nesting says. -/
theorem At.length_le {place : Place} (h : f.At place g) : place.length ≤ f.nesting := by
  induction h with
  | root f => exact Nat.zero_le _
  | condition hc _ ih =>
    exact Nat.lt_of_le_of_lt ih (nesting_lt_of_mem_conditions (List.mem_of_getElem? hc))

/-- A node lies as deep as the nesting says: below a deepest one of the conditions. -/
theorem exists_at_of_nesting_eq (h : f.nesting = n) :
    ∃ place g, f.At place g ∧ place.length = n := by
  induction n generalizing f with
  | zero => exact ⟨[], f, .root f, rfl⟩
  | succ n ih =>
    obtain ⟨c, hc, hle⟩ : ∃ c ∈ f.conditions, n ≤ c.nesting := by
      by_contra hnone
      have hlt : f.nesting ≤ n := nesting_le_iff.mpr fun c hc =>
        Nat.lt_of_not_le fun hle => hnone ⟨c, hc, hle⟩
      omega
    have hlt := nesting_lt_of_mem_conditions hc
    obtain ⟨place, g, hg, hlength⟩ := ih (f := c) (by omega)
    obtain ⟨i, hi⟩ := List.mem_iff_getElem?.mp hc
    exact ⟨.condition i :: place, g, .condition hi hg, congrArg Nat.succ hlength⟩

/-- The nesting is the depth of a deepest node. -/
theorem isGreatest_nesting (f : Filter) : IsGreatest f.depths f.nesting := by
  refine ⟨exists_at_of_nesting_eq rfl, ?_⟩
  rintro _ ⟨place, g, hg, rfl⟩
  exact hg.length_le

/-- What holds of a filter if it holds of the filters right below it, holds of every filter. -/
@[elab_as_elim]
theorem conditionsInduction {P : Filter → Prop} (step : ∀ f, (∀ c ∈ f.conditions, P c) → P f)
    (f : Filter) : P f :=
  step f fun c hc =>
    have := nesting_lt_of_mem_conditions hc
    conditionsInduction step c
termination_by f.nesting

end Filter

end DocumentQuery

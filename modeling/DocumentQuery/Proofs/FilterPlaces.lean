import DocumentQuery.Proofs.RenderedQuery
/-!
# The filters of a query

A query has filters in three places: its own filter, the stages that filter, and
the element matches of projections, be they its own or those of stages. Stages
lie in look-ups and facets at any depth. Validation looks at the first two places
and not at the third.

Main definitions:
* `Stage.nodes`: the stage and all stages inside it, depth first.
* `Query.searched`, `Query.projected`: the filters outside of projections, and
  those inside.

Results:
* `Stage.emptyGroupIn?_eq_none_iff`: the search through stages misses none of
  their filters.
* `Query.nonempty_groups_searched`: the searched filters of a well-formed query
  have no empty groups.
-/
namespace DocumentQuery

/-- Some group of the filter has no conditions. -/
def Filter.HasEmptyGroup (f : Filter) : Prop := ∃ g ∈ f.nodes, g.IsEmptyGroup

theorem Filter.emptyGroup?_eq_none_iff_not (f : Filter) :
    f.emptyGroup? = none ↔ ¬ f.HasEmptyGroup := by
  simp [HasEmptyGroup, Filter.emptyGroup?_eq_none_iff]

/-- The conditions of the element matches in a projection. -/
def Projection.conditions (p : Projection) : List Filter :=
  p.fields.flatMap fun f => f.elemMatch.getD []

/-! ## Stages -/

namespace Stage

mutual

/-- The stage and the stages inside it, depth first. -/
def nodes : Stage → List Stage
  | .lookup source localField foreignField output pipeline bindings =>
    .lookup source localField foreignField output pipeline bindings :: nodesIn pipeline
  | .facet facets => .facet facets :: nodesInFacets facets
  | s => [s]

/-- The stages of a list and the stages inside them. -/
def nodesIn : List Stage → List Stage
  | [] => []
  | s :: rest => nodes s ++ nodesIn rest

/-- The stages of facets and the stages inside them. -/
def nodesInFacets : List (String × List Stage) → List Stage
  | [] => []
  | (_, stages) :: rest => nodesIn stages ++ nodesInFacets rest

end

theorem mem_nodes_self (s : Stage) : s ∈ s.nodes := by
  cases s <;> simp [nodes]

/-- The filter of a stage that filters. -/
def filter? : Stage → Option Filter
  | .filter f => some f
  | _ => none

/-- The projection of a stage that selects fields. -/
def projection? : Stage → Option Projection
  | .project p _ => some p
  | _ => none

mutual

/-- The search through a stage finds nothing exactly if there is nothing to find. -/
theorem emptyGroup?_eq_none_iff : ∀ s : Stage,
    s.emptyGroup? = none ↔ ∀ f ∈ s.nodes.filterMap filter?, ¬ f.HasEmptyGroup
  | .filter f => by simp [emptyGroup?, nodes, filter?, Filter.emptyGroup?_eq_none_iff_not]
  | .lookup source localField foreignField output pipeline bindings => by
    rw [emptyGroup?, emptyGroupIn?_eq_none_iff pipeline, nodes,
      List.filterMap_cons_none (by rfl)]
  | .facet facets => by
    rw [emptyGroup?, emptyGroupInFacets?_eq_none_iff facets, nodes,
      List.filterMap_cons_none (by rfl)]
  | .project .. | .group .. | .sort _ | .limit _ | .skip _ | .unwind .. | .addFields _
  | .replaceRoot _ | .count _ | .bucket .. => by
    simp [emptyGroup?, nodes, filter?]

theorem emptyGroupIn?_eq_none_iff : ∀ stages : List Stage,
    emptyGroupIn? stages = none ↔ ∀ f ∈ (nodesIn stages).filterMap filter?, ¬ f.HasEmptyGroup
  | [] => by simp [emptyGroupIn?, nodesIn]
  | s :: rest => by
    rw [nodesIn, List.filterMap_append, List.forall_mem_append, ← emptyGroup?_eq_none_iff s,
      ← emptyGroupIn?_eq_none_iff rest]
    simp [emptyGroupIn?]

theorem emptyGroupInFacets?_eq_none_iff : ∀ facets : List (String × List Stage),
    emptyGroupInFacets? facets = none ↔
      ∀ f ∈ (nodesInFacets facets).filterMap filter?, ¬ f.HasEmptyGroup
  | [] => by simp [emptyGroupInFacets?, nodesInFacets]
  | (_, stages) :: rest => by
    rw [nodesInFacets, List.filterMap_append, List.forall_mem_append,
      ← emptyGroupIn?_eq_none_iff stages, ← emptyGroupInFacets?_eq_none_iff rest]
    simp [emptyGroupInFacets?]

end

end Stage

/-! ## Queries -/

namespace Query

/-- The filters outside of projections: that of the query, and those of its stages. -/
def searched (q : Query) : List Filter :=
  q.filter.toList ++ (Stage.nodesIn q.pipeline).filterMap Stage.filter?

/-- The filters inside projections: that of the query, and those of its stages. -/
def projected (q : Query) : List Filter :=
  (q.projection.toList ++ (Stage.nodesIn q.pipeline).filterMap Stage.projection?).flatMap
    Projection.conditions

variable {q : Query}

theorem emptyGroup?_eq_none_iff : q.emptyGroup? = none ↔ ∀ f ∈ q.searched, ¬ f.HasEmptyGroup := by
  rw [searched, List.forall_mem_append, ← Stage.emptyGroupIn?_eq_none_iff]
  cases hf : q.filter with
  | none => simp [emptyGroup?, hf]
  | some f => simp [emptyGroup?, hf, Filter.emptyGroup?_eq_none_iff_not]

/-- A query that passed validation has no empty groups outside of projections. -/
theorem nonempty_groups_searched (h : q.validate = .ok ()) :
    ∀ f ∈ q.searched, ¬ f.HasEmptyGroup :=
  emptyGroup?_eq_none_iff.mp (emptyGroup?_of_validate h)

end Query

end DocumentQuery

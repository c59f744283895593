import DocumentQuery.Proofs.Parameters
/-!
# Parameters in the order of a walk

Filters and expressions are trees, and their parameters are those of their nodes,
each node before the nodes below it and these from left to right.

Main definitions:
* `Expression.nodes`: the expression and the expressions below it, depth first.
* `Filter.ownParams`, `Expression.literal?`: the parameters of a node itself.

Results:
* `Filter.params_eq_nodes`, `Expression.params_eq_nodes`: the parameters of a tree,
  read off its nodes.
-/
namespace DocumentQuery

/-! ## Filters -/

namespace Filter

/-- The parameters that a filter names itself; those of the filters below it are not among them. -/
def ownParams : Filter → List Param
  | .condition _ _ value => [value]
  | .range r => r.min.toList ++ r.max.toList
  | .regex _ pattern options => pattern :: options.toList
  | .textSearch t => t.search :: t.language.toList
  | .geo g => g.lon :: g.lat :: ((g.radius <|> g.maxDistance).toList ++ g.minDistance.toList)
  | .array _ _ value => [value]
  | .group _ _ | .elemMatch _ _ | .presence _ _ => []

theorem nodesOfAll_eq (fs : List Filter) : nodesOfAll fs = fs.flatMap nodes := by
  induction fs with
  | nil => rfl
  | cons f fs ih => rw [nodesOfAll, ih, List.flatMap_cons]

mutual

theorem params_eq_nodes : ∀ f : Filter, f.params = f.nodes.flatMap ownParams
  | .group _ conditions | .elemMatch _ conditions => by
    rw [params, nodes, List.flatMap_cons, ownParams, List.nil_append,
      paramsOfAll_eq_nodes conditions]
  | .condition .. | .range _ | .regex .. | .textSearch _ | .geo _ | .array .. | .presence .. => by
    simp [params, nodes, ownParams]

theorem paramsOfAll_eq_nodes : ∀ fs : List Filter,
    paramsOfAll fs = (nodesOfAll fs).flatMap ownParams
  | [] => rfl
  | f :: fs => by
    rw [paramsOfAll, nodesOfAll, List.flatMap_append, params_eq_nodes f, paramsOfAll_eq_nodes fs]

end

end Filter

/-! ## Expressions -/

namespace Expression

mutual

/-- The expression and the expressions below it, depth first. -/
def nodes : Expression → List Expression
  | .operator name args => .operator name args :: nodesOfAll args
  | .conditional condition consequence alternative =>
    .conditional condition consequence alternative ::
      (nodes condition ++ (nodes consequence ++ nodes alternative))
  | e => [e]

/-- The nodes of several expressions. -/
def nodesOfAll : List Expression → List Expression
  | [] => []
  | e :: es => nodes e ++ nodesOfAll es

end

theorem nodesOfAll_eq (es : List Expression) : nodesOfAll es = es.flatMap nodes := by
  induction es with
  | nil => rfl
  | cons e es ih => rw [nodesOfAll, ih, List.flatMap_cons]

/-- The parameter of a literal. -/
def literal? : Expression → Option Param
  | .literal value => some value
  | _ => none

mutual

theorem params_eq_nodes : ∀ e : Expression, e.params = e.nodes.filterMap literal?
  | .field _ | .literal _ => by simp [params, nodes, literal?]
  | .operator _ args => by
    rw [params, nodes, List.filterMap_cons_none (by rfl), paramsOfAll_eq_nodes args]
  | .conditional condition consequence alternative => by
    rw [params, nodes, List.filterMap_cons_none (by rfl), List.filterMap_append,
      List.filterMap_append, params_eq_nodes condition, params_eq_nodes consequence,
      params_eq_nodes alternative]

theorem paramsOfAll_eq_nodes : ∀ es : List Expression,
    paramsOfAll es = (nodesOfAll es).filterMap literal?
  | [] => rfl
  | e :: es => by
    rw [paramsOfAll, nodesOfAll, List.filterMap_append, params_eq_nodes e,
      paramsOfAll_eq_nodes es]

end

end Expression

/-! ## Stages -/

theorem Stage.paramsOfAll_eq (stages : List Stage) :
    paramsOfAll stages = stages.flatMap params := by
  induction stages with
  | nil => rfl
  | cons s rest ih => rw [paramsOfAll, List.flatMap_cons, ih]

theorem Stage.paramsOfFacets_eq (facets : List (String × List Stage)) :
    paramsOfFacets facets = (facets.map Prod.snd).flatMap fun stages => stages.flatMap params := by
  induction facets with
  | nil => rfl
  | cons facet rest ih =>
    obtain ⟨name, stages⟩ := facet
    rw [paramsOfFacets, List.map_cons, List.flatMap_cons, paramsOfAll_eq, ih]

end DocumentQuery

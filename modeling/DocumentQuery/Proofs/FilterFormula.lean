import DocumentQuery.Proofs.Formula
/-!
# What filters say

The formula of a filter, and the parts of a filter that statements about it
speak of: its nodes and its leaves.

Main definitions:
* `Filter.nodes`: the filter and all filters below it, depth first.
* `Filter.leaves`: the nodes without conditions that are no groups.
* `Filter.formula`: what a filter says of a document.
* `Filter.isBlank`: a leaf that tests nothing, a range without bounds or an
  element match without conditions.

Results:
* `emptyGroup?_eq_none_iff`: the search for an empty group misses none.
* `atoms_formula`: the atoms of a filter are those of its leaves, in order.
* `atoms_eq_nil_iff`: a leaf has no atom exactly if it is blank.

The filters of examples are made of the names in `Users`.
-/
namespace DocumentQuery

/-- The formula of a group whose conditions say `φs`. -/
def LogicOperator.combine (φs : List Formula) : LogicOperator → Formula
  | .and => .all φs
  | .or => .any φs
  | .nor => .not (.any φs)
  | .not => .not (.all φs)

theorem LogicOperator.combine_congr (logic : LogicOperator) {φs ψs : List Formula}
    (h : List.Forall₂ Formula.Same φs ψs) :
    Formula.Same (logic.combine φs) (logic.combine ψs) := by
  cases logic with
  | and => exact .all_congr h
  | or => exact .any_congr h
  | nor => exact (Formula.Same.any_congr h).not_congr
  | not => exact (Formula.Same.all_congr h).not_congr

namespace Filter

mutual

/-- The filter and the filters below it, depth first. -/
def nodes : Filter → List Filter
  | .group logic conditions => .group logic conditions :: nodesOfAll conditions
  | .elemMatch field conditions => .elemMatch field conditions :: nodesOfAll conditions
  | f => [f]

/-- The nodes of several filters. -/
def nodesOfAll : List Filter → List Filter
  | [] => []
  | f :: fs => nodes f ++ nodesOfAll fs

end

mutual

/-- The filters at the ends of the tree, from left to right; groups are none. -/
def leaves : Filter → List Filter
  | .group _ conditions => leavesOfAll conditions
  | .elemMatch field [] => [.elemMatch field []]
  | .elemMatch _ (f :: fs) => leaves f ++ leavesOfAll fs
  | f => [f]

/-- The leaves of several filters. -/
def leavesOfAll : List Filter → List Filter
  | [] => []
  | f :: fs => leaves f ++ leavesOfAll fs

end

mutual

/-- What the filter says of a document. -/
def formula : Filter → Formula
  | .condition field operator value => .atom (.test field.path operator value none)
  | .group logic conditions => logic.combine (formulas conditions)
  | .range r => .all (r.bounds.map fun b => .atom (.test r.field.path b.1 b.2 none))
  | .regex field pattern options => .atom (.test field.path .regex pattern options)
  | .textSearch t => .atom (.words t)
  | .geo g =>
    .atom (.place g.field.path g.operator g.lon g.lat (g.radius <|> g.maxDistance) g.minDistance)
  | .array field operator value => .atom (.test field.path operator value none)
  | .elemMatch field conditions => .element field.path (.all (formulas conditions))
  | .presence field present => .atom (.presence field.path present)

/-- What several filters say. -/
def formulas : List Filter → List Formula
  | [] => []
  | f :: fs => formula f :: formulas fs

end

theorem formulas_eq (fs : List Filter) : formulas fs = fs.map formula := by
  induction fs with
  | nil => rfl
  | cons f fs ih => rw [formulas, ih, List.map_cons]

theorem mem_nodes_self (f : Filter) : f ∈ f.nodes := by
  cases f <;> simp [nodes]

/-! ## Every node -/

section Nodes

variable {P : Filter → Prop}

theorem forall_nodes_group {logic : LogicOperator} {conditions : List Filter} :
    (∀ g ∈ (group logic conditions).nodes, P g) ↔
      P (group logic conditions) ∧ ∀ g ∈ nodesOfAll conditions, P g := by
  simp [nodes]

theorem forall_nodes_elemMatch {field : Field} {conditions : List Filter} :
    (∀ g ∈ (elemMatch field conditions).nodes, P g) ↔
      P (elemMatch field conditions) ∧ ∀ g ∈ nodesOfAll conditions, P g := by
  simp [nodes]

theorem forall_nodesOfAll_cons {f : Filter} {fs : List Filter} :
    (∀ g ∈ nodesOfAll (f :: fs), P g) ↔
      (∀ g ∈ f.nodes, P g) ∧ ∀ g ∈ nodesOfAll fs, P g := by
  simp only [nodesOfAll, List.mem_append, or_imp, forall_and]

theorem forall_nodesOfAll_iff {fs : List Filter} :
    (∀ g ∈ nodesOfAll fs, P g) ↔ ∀ f ∈ fs, ∀ g ∈ f.nodes, P g := by
  induction fs with
  | nil => simp [nodesOfAll]
  | cons f fs ih => rw [forall_nodesOfAll_cons, ih, List.forall_mem_cons]

end Nodes

/-! ## Groups without conditions -/

/-- The filter is a group without conditions. -/
def IsEmptyGroup : Filter → Prop
  | .group _ conditions => conditions = []
  | _ => False

mutual

theorem emptyGroup?_eq_none_iff :
    ∀ f : Filter, f.emptyGroup? = none ↔ ∀ g ∈ f.nodes, ¬ g.IsEmptyGroup
  | .group logic [] => by simp [emptyGroup?, nodes, IsEmptyGroup]
  | .group logic (c :: cs) => by
    rw [forall_nodes_group, ← emptyGroupIn?_eq_none_iff (c :: cs)]
    simp [emptyGroup?, IsEmptyGroup]
  | .elemMatch field cs => by
    rw [forall_nodes_elemMatch, ← emptyGroupIn?_eq_none_iff cs]
    simp [emptyGroup?, IsEmptyGroup]
  | .condition .. | .range _ | .regex .. | .textSearch _ | .geo _ | .array .. | .presence .. => by
    simp [emptyGroup?, nodes, IsEmptyGroup]

theorem emptyGroupIn?_eq_none_iff :
    ∀ fs : List Filter, emptyGroupIn? fs = none ↔ ∀ g ∈ nodesOfAll fs, ¬ g.IsEmptyGroup
  | [] => by simp [emptyGroupIn?, nodesOfAll]
  | f :: fs => by
    rw [forall_nodesOfAll_cons, ← emptyGroup?_eq_none_iff f, ← emptyGroupIn?_eq_none_iff fs]
    simp [emptyGroupIn?]

end

/-! ## Atoms of leaves -/

/-- The filter has no filters below it and is no group. -/
def isLeaf : Filter → Bool
  | .group .. => false
  | .elemMatch _ conditions => conditions.isEmpty
  | _ => true

/-- The filter is a leaf that tests nothing. -/
def isBlank : Filter → Bool
  | .range r => r.min.isNone && r.max.isNone
  | .elemMatch _ conditions => conditions.isEmpty
  | _ => false

theorem atoms_combine (logic : LogicOperator) (φs : List Formula) :
    (logic.combine φs).atoms = φs.flatMap Formula.atoms := by
  cases logic <;> simp [LogicOperator.combine]

mutual

/-- No atom of a filter is outside its leaves. -/
theorem atoms_formula :
    ∀ f : Filter, f.formula.atoms = f.leaves.flatMap fun leaf => leaf.formula.atoms
  | .group logic cs => by
    rw [formula, atoms_combine, leaves]
    exact atoms_formulas cs
  | .elemMatch field [] => by simp [leaves]
  | .elemMatch field (c :: cs) => by
    rw [formula, Formula.atoms_element, Formula.atoms_all, leaves]
    exact atoms_formulas (c :: cs)
  | .condition .. | .range _ | .regex .. | .textSearch _ | .geo _ | .array .. | .presence .. => by
    simp [leaves]

theorem atoms_formulas :
    ∀ fs : List Filter, (formulas fs).flatMap Formula.atoms =
      (leavesOfAll fs).flatMap fun leaf => leaf.formula.atoms
  | [] => rfl
  | f :: fs => by
    rw [formulas, List.flatMap_cons, leavesOfAll, List.flatMap_append, atoms_formula f,
      atoms_formulas fs]

end

mutual

theorem isLeaf_of_mem_leaves : ∀ (f : Filter) {leaf : Filter}, leaf ∈ f.leaves → leaf.isLeaf = true
  | .group _ cs, _, h => isLeaf_of_mem_leavesOfAll cs h
  | .elemMatch _ [], _, h => by
    obtain rfl := List.mem_singleton.mp h
    rfl
  | .elemMatch _ (c :: cs), _, h => isLeaf_of_mem_leavesOfAll (c :: cs) h
  | .condition .., _, h | .range _, _, h | .regex .., _, h | .textSearch _, _, h
  | .geo _, _, h | .array .., _, h | .presence .., _, h => by
    obtain rfl := List.mem_singleton.mp h
    rfl

theorem isLeaf_of_mem_leavesOfAll :
    ∀ (fs : List Filter) {leaf : Filter}, leaf ∈ leavesOfAll fs → leaf.isLeaf = true
  | [], _, h => by cases h
  | f :: fs, _, h => by
    rcases List.mem_append.mp h with h | h
    · exact isLeaf_of_mem_leaves f h
    · exact isLeaf_of_mem_leavesOfAll fs h

end

theorem bounds_eq_nil_iff (r : RangeFilter) :
    r.bounds = [] ↔ r.min.isNone = true ∧ r.max.isNone = true := by
  cases hmin : r.min <;> cases hmax : r.max <;> simp [RangeFilter.bounds, hmin, hmax]

theorem atoms_range (r : RangeFilter) :
    (range r).formula.atoms = r.bounds.map fun b => .test r.field.path b.1 b.2 none := by
  rw [formula, Formula.atoms_all]
  induction r.bounds with
  | nil => rfl
  | cons b bs ih => rw [List.map_cons, List.flatMap_cons, ih]; rfl

/-- Every leaf tests something unless it is blank. -/
theorem atoms_eq_nil_iff {leaf : Filter} (h : leaf.isLeaf = true) :
    leaf.formula.atoms = [] ↔ leaf.isBlank = true := by
  cases leaf with
  | group logic cs => cases h
  | elemMatch field cs =>
    obtain rfl := List.isEmpty_iff.mp h
    simp [formula, formulas, isBlank]
  | range r => rw [atoms_range, List.map_eq_nil_iff, bounds_eq_nil_iff, isBlank, Bool.and_eq_true]
  | _ => simp [formula, isBlank]

end Filter

/-! ## Users

The collection, the fields and the parameters that examples are about. -/

namespace Users

def collection : Collection := ⟨"users", by decide +kernel⟩

def name : Field := ⟨"name", "users", by decide +kernel, by decide +kernel⟩

def age : Field := ⟨"age", "users", by decide +kernel, by decide +kernel⟩

def email : Field := ⟨"email", "users", by decide +kernel, by decide +kernel⟩

def status : Field := ⟨"status", "users", by decide +kernel, by decide +kernel⟩

/-- An array of objects with `points` and a `name`. -/
def scores : Field := ⟨"scores", "users", by decide +kernel, by decide +kernel⟩

def points : Field := ⟨"points", "users", by decide +kernel, by decide +kernel⟩

def given : Param := ⟨"given", by decide +kernel⟩

def label : Param := ⟨"label", by decide +kernel⟩

def least : Param := ⟨"least", by decide +kernel⟩

def greatest : Param := ⟨"greatest", by decide +kernel⟩

def pattern : Param := ⟨"pattern", by decide +kernel⟩

def flags : Param := ⟨"flags", by decide +kernel⟩

end Users

end DocumentQuery

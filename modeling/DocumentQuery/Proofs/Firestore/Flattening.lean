import DocumentQuery.Proofs.Firestore.Clauses
/-!
# Flat lists of clauses

Groups leave no trace in a list of clauses: the list of a filter depends on the
filters between its groups only, each of which has clauses of its own. That is
sound for conjunctions. A disjunction anywhere in the tree is refused, and a
negation is not, so a list has the meaning of its filter as long as no group is
negated.

Main definitions:
* `Filter.ungrouped`: the filters of a tree that are no groups, in order.
* `Expressible`: a node of a filter that a list of clauses has room for.
* `leafClauses`: the clauses of a filter that is no group.
* `meaning?`: what a list of clauses says.

Results:
* `clauses_isOk_iff`: which filters have clauses.
* `clauses_flat`: they are those of the filters between the groups.
* `where_is_flat`: what this says of rendered lists.
-/
namespace DocumentQuery

namespace Filter

mutual

/-- The filters of a tree that are no groups, from left to right. -/
def ungrouped : Filter → List Filter
  | .group _ conditions => ungroupedOfAll conditions
  | f => [f]

/-- The filters between the groups of several trees. -/
def ungroupedOfAll : List Filter → List Filter
  | [] => []
  | f :: fs => ungrouped f ++ ungroupedOfAll fs

end

end Filter

namespace Firestore

open Formula (Same)

/-! ## Which filters have clauses -/

/-- The filter, apart from those below it, fits into a list of clauses. -/
def Expressible : Filter → Prop
  | .condition _ operator _ => (whereSign? operator).isSome = true
  | .array _ operator _ => (whereSign? operator).isSome = true
  | .range _ => True
  | .group logic _ => logic = .and ∨ logic = .not
  | _ => False

/-- The clauses of a filter that is no group, if it is expressible: one for a test, and one for each
bound of a range. -/
def leafClauses : Filter → List Clause
  | .condition field operator value =>
    ((whereSign? operator).map fun sign => ⟨field, sign, value⟩).toList
  | .array field operator value =>
    ((whereSign? operator).map fun sign => ⟨field, sign, value⟩).toList
  | .range r =>
    (r.min.map fun p => ⟨r.field, if r.minExclusive then ">" else ">=", p⟩).toList ++
      (r.max.map fun p => ⟨r.field, if r.maxExclusive then "<" else "<=", p⟩).toList
  | _ => []

theorem clause_eq_ok_iff {field : Field} {operator : FilterOperator} {value : Param}
    {cs : List Clause} :
    clause field operator value = .ok cs ↔ (whereSign? operator).isSome = true ∧
      cs = ((whereSign? operator).map fun sign => ⟨field, sign, value⟩).toList := by
  unfold clause
  cases whereSign? operator <;> simp [eq_comm]

theorem rangeClauses_eq (r : RangeFilter) : rangeClauses r = .ok (leafClauses (.range r)) := by
  obtain ⟨field, min, max, minExclusive, maxExclusive⟩ := r
  cases min <;> cases max <;> cases minExclusive <;> cases maxExclusive <;> rfl

theorem clauses_group_eq_ok_iff {logic : LogicOperator} {conditions : List Filter}
    {cs : List Clause} :
    clauses (.group logic conditions) = .ok cs ↔
      (logic = .and ∨ logic = .not) ∧ clausesOfAll conditions = .ok cs := by
  cases logic <;> simp [clauses]

theorem clausesOfAll_cons_eq_ok_iff {f : Filter} {fs : List Filter} {cs : List Clause} :
    clausesOfAll (f :: fs) = .ok cs ↔
      ∃ ds es, clauses f = .ok ds ∧ clausesOfAll fs = .ok es ∧ cs = ds ++ es := by
  simp only [clausesOfAll, bind_eq_ok_iff, pure_eq_ok_iff]
  constructor
  · intro h
    obtain ⟨ds, hds, es, hes, rfl⟩ := h
    exact ⟨ds, es, hds, hes, rfl⟩
  · intro h
    obtain ⟨ds, es, hds, hes, rfl⟩ := h
    exact ⟨ds, hds, es, hes, rfl⟩

mutual

/-- A filter has clauses exactly if each of its nodes fits into a list of them. -/
theorem clauses_isOk_iff :
    ∀ f : Filter, (∃ cs, clauses f = .ok cs) ↔ ∀ g ∈ f.nodes, Expressible g
  | .condition field operator value | .array field operator value => by
    simp [Filter.nodes, Expressible, clauses, clause_eq_ok_iff]
  | .group logic conditions => by
    rw [Filter.forall_nodes_group, ← clausesOfAll_isOk_iff conditions, Expressible]
    simp only [clauses_group_eq_ok_iff, exists_and_left]
  | .range r => by
    simp [Filter.nodes, Expressible, clauses, rangeClauses_eq]
  | .elemMatch field conditions => by
    rw [Filter.forall_nodes_elemMatch]
    simp [Expressible, clauses]
  | .regex .. | .textSearch _ | .geo _ | .presence .. => by
    simp [Filter.nodes, Expressible, clauses]

theorem clausesOfAll_isOk_iff : ∀ fs : List Filter,
    (∃ cs, clausesOfAll fs = .ok cs) ↔ ∀ g ∈ Filter.nodesOfAll fs, Expressible g
  | [] => by simp [clausesOfAll, Filter.nodesOfAll]
  | f :: fs => by
    rw [Filter.forall_nodesOfAll_cons, ← clauses_isOk_iff f, ← clausesOfAll_isOk_iff fs]
    simp only [clausesOfAll_cons_eq_ok_iff]
    constructor
    · intro h
      obtain ⟨_, ds, es, hds, hes, -⟩ := h
      exact ⟨⟨ds, hds⟩, ⟨es, hes⟩⟩
    · intro h
      obtain ⟨⟨ds, hds⟩, ⟨es, hes⟩⟩ := h
      exact ⟨_, ds, es, hds, hes, rfl⟩

end

/-! ## Groups leave no trace -/

mutual

/-- The clauses of a filter are those of the filters between its groups, in order. -/
theorem clauses_flat : ∀ (f : Filter) {cs : List Clause}, clauses f = .ok cs →
    cs = f.ungrouped.flatMap leafClauses
  | .condition .., _, h | .array .., _, h => by
    obtain ⟨-, rfl⟩ := clause_eq_ok_iff.mp h
    simp [Filter.ungrouped, leafClauses]
  | .group logic conditions, _, h => by
    obtain ⟨-, h⟩ := clauses_group_eq_ok_iff.mp h
    exact clausesOfAll_flat conditions h
  | .range r, _, h => by
    rw [clauses, rangeClauses_eq] at h
    cases h
    simp [Filter.ungrouped]
  | .regex .., _, h | .textSearch _, _, h | .geo _, _, h | .elemMatch .., _, h
  | .presence .., _, h => by
    cases h

theorem clausesOfAll_flat : ∀ (fs : List Filter) {cs : List Clause}, clausesOfAll fs = .ok cs →
    cs = (Filter.ungroupedOfAll fs).flatMap leafClauses
  | [], _, h => by
    cases h
    rfl
  | f :: fs, _, h => by
    obtain ⟨ds, es, hds, hes, rfl⟩ := clausesOfAll_cons_eq_ok_iff.mp h
    rw [Filter.ungroupedOfAll, List.flatMap_append, clauses_flat f hds, clausesOfAll_flat fs hes]

end

theorem clausesOfAll_nil : clausesOfAll [] = pure [] := rfl

theorem clausesOfAll_append (fs gs : List Filter) :
    clausesOfAll (fs ++ gs) =
      (do let cs ← clausesOfAll fs; let ds ← clausesOfAll gs; pure (cs ++ ds)) := by
  induction fs with
  | nil => simp [clausesOfAll_nil]
  | cons f fs ih =>
    simp only [List.cons_append, clausesOfAll, ih, bind_assoc, pure_bind, List.append_assoc]

theorem clausesOfAll_singleton (f : Filter) : clausesOfAll [f] = clauses f := by
  simp [clausesOfAll.eq_2, clausesOfAll_nil]

/-- Every group of the tree is a conjunction. -/
def Conjunctive (f : Filter) : Prop :=
  ∀ logic conditions, .group logic conditions ∈ f.nodes → logic = .and

mutual

/-- Conjunctions may be taken apart before the clauses are listed, also where that fails. -/
theorem clauses_of_conjunctive : ∀ f : Filter, Conjunctive f →
    clauses f = clausesOfAll f.ungrouped
  | .group logic conditions, h => by
    obtain rfl := h logic conditions (Filter.mem_nodes_self _)
    refine clausesOfAll_of_conjunctive conditions fun logic' cs hmem => h logic' cs ?_
    simp [Filter.nodes, hmem]
  | .condition .., _ | .array .., _ | .range _, _ | .regex .., _ | .textSearch _, _ | .geo _, _
  | .elemMatch .., _ | .presence .., _ => by
    simp only [Filter.ungrouped, clausesOfAll_singleton]

theorem clausesOfAll_of_conjunctive : ∀ fs : List Filter,
    (∀ logic conditions, .group logic conditions ∈ Filter.nodesOfAll fs → logic = .and) →
      clausesOfAll fs = clausesOfAll (Filter.ungroupedOfAll fs)
  | [], _ => rfl
  | f :: fs, h => by
    simp only [Filter.nodesOfAll, List.mem_append, or_imp, forall_and] at h
    obtain ⟨hf, hfs⟩ := h
    rw [Filter.ungroupedOfAll, clausesOfAll_append, clausesOfAll, clauses_of_conjunctive f hf,
      clausesOfAll_of_conjunctive fs hfs]

end

/-! ## What a list says -/

/-- What a list of clauses says: each of its clauses holds. Nothing else may be in the list. -/
def meaning? : Json → Option Formula
  | .arr clauses => (clauses.mapM testOf?).map fun as => .all (as.map .atom)
  | _ => none

theorem mapM_testOf? {cs : List Clause} {as : List Atom} (h : List.Forall₂ Clause.Makes cs as) :
    (cs.map Clause.object).mapM testOf? = some as := by
  induction h with
  | nil => rfl
  | cons h _ ih => simp [testOf?_object h, ih]

mutual

/-- A tree of conjunctions says that all its tests are passed. -/
theorem all_atoms_same : ∀ f : Filter, (∀ g ∈ f.nodes, Expressible g) → Conjunctive f →
    Same (.all (f.formula.atoms.map .atom)) f.formula
  | .condition .., _, _ | .array .., _, _ => Same.all_singleton _
  | .range r, _, _ => by
    rw [Filter.atoms_range, Filter.formula, List.map_map]
    exact Same.refl _
  | .group logic conditions, hnodes, hgroups => by
    obtain rfl := hgroups logic conditions (Filter.mem_nodes_self _)
    rw [Filter.forall_nodes_group] at hnodes
    rw [Filter.formula, Filter.atoms_combine]
    refine all_atoms_same_of_all conditions hnodes.2 fun logic' cs hmem => hgroups logic' cs ?_
    simp [Filter.nodes, hmem]
  | .regex .., hnodes, _ | .textSearch _, hnodes, _ | .geo _, hnodes, _
  | .elemMatch .., hnodes, _ | .presence .., hnodes, _ =>
    (hnodes _ (Filter.mem_nodes_self _)).elim

theorem all_atoms_same_of_all : ∀ fs : List Filter,
    (∀ g ∈ Filter.nodesOfAll fs, Expressible g) →
    (∀ logic conditions, .group logic conditions ∈ Filter.nodesOfAll fs → logic = .and) →
      Same (.all (((Filter.formulas fs).flatMap Formula.atoms).map .atom))
        (.all (Filter.formulas fs))
  | [], _, _ => Same.refl _
  | f :: fs, hnodes, hgroups => by
    simp only [Filter.nodesOfAll, List.mem_append, or_imp, forall_and] at hnodes hgroups
    have hf := all_atoms_same f hnodes.1 hgroups.1
    have hfs := all_atoms_same_of_all fs hnodes.2 hgroups.2
    rw [Filter.formulas, List.flatMap_cons, List.map_append]
    exact Same.all_append_congr (hf.trans (Same.all_singleton _).symm) hfs

end

/-! ## Rendered lists -/

/-- A filter has a list of clauses exactly if each of its nodes fits into one. The list has the
clauses of the filters between the groups, in their order, and binds the parameters in that order.
Where no group is negated the list says what the filter says. Trees of conjunctions with the same
filters between the groups render alike. -/
theorem where_is_flat (f : Filter) :
    ((∃ v ps, renderWhere f = .ok (v, ps)) ↔ ∀ g ∈ f.nodes, Expressible g) ∧
    (∀ v ps, renderWhere f = .ok (v, ps) →
      v = .arr ((f.ungrouped.flatMap leafClauses).map Clause.object) ∧
      ps = (f.ungrouped.flatMap leafClauses).map Clause.value ∧
      ((∀ conditions, .group .not conditions ∉ f.nodes) → ∃ φ, meaning? v = some φ ∧
        ∀ {δ : Type} (I : Interpretation δ) (d : δ), φ.holds I d = f.formula.holds I d)) ∧
    ∀ g, Conjunctive f → Conjunctive g → f.ungrouped = g.ungrouped →
      renderWhere f = renderWhere g := by
  refine ⟨?_, fun v ps h => ?_, fun g hf hg hsame => ?_⟩
  · rw [← clauses_isOk_iff f]
    constructor
    · intro h
      obtain ⟨v, ps, h⟩ := h
      obtain ⟨cs, hcs, -⟩ := renderWhere_gives.mp h
      exact ⟨cs, hcs⟩
    · intro h
      obtain ⟨cs, hcs⟩ := h
      exact ⟨_, _, renderWhere_gives.mpr ⟨cs, hcs, rfl, rfl⟩⟩
  · obtain ⟨cs, hcs, rfl, rfl⟩ := renderWhere_gives.mp h
    have hflat := clauses_flat f hcs
    refine ⟨by rw [hflat], by rw [hflat], fun hnot => ?_⟩
    have hnodes := (clauses_isOk_iff f).mp ⟨cs, hcs⟩
    have hgroups : Conjunctive f := by
      intro logic conditions hmem
      rcases hnodes _ hmem with hand | hneg
      · exact hand
      · subst hneg
        exact absurd hmem (hnot conditions)
    refine ⟨.all (f.formula.atoms.map .atom), ?_, (all_atoms_same f hnodes hgroups).holds⟩
    simp [meaning?, mapM_testOf? (clauses_make f hcs)]
  · rw [renderWhere, renderWhere, clauses_of_conjunctive f hf, clauses_of_conjunctive g hg, hsame]

/-- Users of some age whose scores have all the given ones, and the same with other groups. -/
def scorers : Filter :=
  .group .and [.group .and [.range ⟨Users.age, some Users.least, some Users.greatest, true, false⟩],
    .array Users.scores .all Users.given]

def scorersRegrouped : Filter :=
  .group .and [.range ⟨Users.age, some Users.least, some Users.greatest, true, false⟩,
    .group .and [.group .and [], .array Users.scores .all Users.given]]

theorem where_is_flat_scorers :
    ∃ v φ, renderWhere scorers = .ok (v, [Users.least, Users.greatest, Users.given]) ∧
      renderWhere scorersRegrouped = .ok (v, [Users.least, Users.greatest, Users.given]) ∧
      meaning? v = some φ ∧
      ∀ {δ : Type} (I : Interpretation δ) (d : δ), φ.holds I d = scorers.formula.holds I d := by
  obtain ⟨-, hlist, hsame⟩ := where_is_flat scorers
  obtain ⟨v, hv⟩ : ∃ v,
      renderWhere scorers = .ok (v, [Users.least, Users.greatest, Users.given]) := ⟨_, rfl⟩
  have hnot : ∀ conditions, .group .not conditions ∉ scorers.nodes := by
    simp [scorers, Filter.nodes, Filter.nodesOfAll]
  have hand : Conjunctive scorers ∧ Conjunctive scorersRegrouped := by
    refine ⟨fun logic conditions h => ?_, fun logic conditions h => ?_⟩
    · simp only [scorers, Filter.nodes, Filter.nodesOfAll] at h
      grind
    · simp only [scorersRegrouped, Filter.nodes, Filter.nodesOfAll] at h
      grind
  obtain ⟨-, -, hmeaning⟩ := hlist v _ hv
  obtain ⟨φ, hφ, hholds⟩ := hmeaning hnot
  exact ⟨v, φ, hv, (hsame _ hand.1 hand.2 rfl).symm.trans hv, hφ, hholds⟩

end Firestore

end DocumentQuery

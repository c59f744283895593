import DocumentQuery.Proofs.Chain
import DocumentQuery.Proofs.Firestore.Flattening
import DocumentQuery.Proofs.RenderedQuery
/-!
# Negated groups in firestore

A list of clauses has no negation. A negated group is listed like a conjunction, so
what is rendered does not tell the two apart, wherever they are in a filter.

Main definitions:
* `Filter.affirmed`: the filter with conjunctions in place of negated groups.

Results:
* `clauses_affirmed`: the two have the same clauses, or fail alike.
* `render_of_affirmed`: filters that differ in nothing but this render alike.
-/
namespace DocumentQuery

namespace LogicOperator

/-- The combination that is left of one when its negation is not heard. -/
def affirmed : LogicOperator → LogicOperator
  | .not => .and
  | logic => logic

end LogicOperator

namespace Filter

mutual

/-- The filter with conjunctions in place of negated groups. -/
def affirmed : Filter → Filter
  | .group logic conditions => .group logic.affirmed (affirmedAll conditions)
  | .elemMatch field conditions => .elemMatch field (affirmedAll conditions)
  | f => f

/-- Several filters with conjunctions in place of negated groups. -/
def affirmedAll : List Filter → List Filter
  | [] => []
  | f :: fs => affirmed f :: affirmedAll fs

end

theorem isEmpty_affirmedAll (fs : List Filter) : (affirmedAll fs).isEmpty = fs.isEmpty := by
  cases fs <;> rfl

mutual

theorem nesting_affirmed : ∀ f : Filter, f.affirmed.nesting = f.nesting
  | .group _ conditions | .elemMatch _ conditions => nestingBelow_affirmedAll conditions
  | .condition .. | .range _ | .regex .. | .textSearch _ | .geo _ | .array .. | .presence .. => rfl

theorem nestingBelow_affirmedAll : ∀ fs : List Filter,
    nestingBelow (affirmedAll fs) = nestingBelow fs
  | [] => rfl
  | f :: fs => by
    rw [affirmedAll, nestingBelow, nestingBelow, nesting_affirmed f, nestingBelow_affirmedAll fs]

end

mutual

theorem emptyGroup?_affirmed : ∀ f : Filter,
    f.affirmed.emptyGroup? = f.emptyGroup?.map LogicOperator.affirmed
  | .group logic conditions => by
    rw [affirmed, emptyGroup?, emptyGroup?, isEmpty_affirmedAll,
      emptyGroupIn?_affirmedAll conditions]
    split <;> rfl
  | .elemMatch _ conditions => emptyGroupIn?_affirmedAll conditions
  | .condition .. | .range _ | .regex .. | .textSearch _ | .geo _ | .array .. | .presence .. => rfl

theorem emptyGroupIn?_affirmedAll : ∀ fs : List Filter,
    emptyGroupIn? (affirmedAll fs) = (emptyGroupIn? fs).map LogicOperator.affirmed
  | [] => rfl
  | f :: fs => by
    rw [affirmedAll, emptyGroupIn?, emptyGroupIn?, emptyGroup?_affirmed f,
      emptyGroupIn?_affirmedAll fs]
    cases f.emptyGroup? <;> rfl

end

end Filter

/-- The demands on the parts look at no more of a filter than how deep it is. -/
theorem Query.validateOperation_withFilter {q : Query} {o : Option Filter}
    (h : o.map Filter.nesting = q.filter.map Filter.nesting) :
    (q.withFilter o).validateOperation = q.validateOperation := by
  have hfind : (q.withFilter o).validateFind = q.validateFind := by
    unfold Query.validateFind Query.withFilter
    cases hf : q.filter with
    | none =>
      rw [hf, Option.map_none, Option.map_eq_none_iff] at h
      rw [h]
    | some f =>
      rw [hf] at h
      obtain ⟨g, hg, hnesting⟩ := Option.map_eq_some_iff.mp h
      simp only [hg, hnesting]
  have hrequire : (q.withFilter o).requireFilter = q.requireFilter := by
    have hsome : o.isSome = q.filter.isSome := by
      simpa using congrArg Option.isSome h
    simp only [Query.requireFilter, Query.withFilter, hsome]
  rw [Query.validateOperation, Query.validateOperation, hfind, hrequire]
  rfl

namespace Firestore

mutual

/-- A negated group has the clauses of a conjunction. -/
theorem clauses_affirmed : ∀ f : Filter, clauses f.affirmed = clauses f
  | .group logic conditions => by
    cases logic with
    | and | not => exact clausesOfAll_affirmedAll conditions
    | or | nor => rfl
  | .elemMatch .. | .condition .. | .range _ | .regex .. | .textSearch _ | .geo _ | .array ..
  | .presence .. => rfl

theorem clausesOfAll_affirmedAll : ∀ fs : List Filter,
    clausesOfAll (Filter.affirmedAll fs) = clausesOfAll fs
  | [] => rfl
  | f :: fs => by
    rw [Filter.affirmedAll, clausesOfAll, clausesOfAll, clauses_affirmed f,
      clausesOfAll_affirmedAll fs]

end

section Queries

variable {q : Query} {o : Option Filter}

theorem optional_renderWhere_of_affirmed
    (h : o.map Filter.affirmed = q.filter.map Filter.affirmed) :
    Render.optional renderWhere o = Render.optional renderWhere q.filter := by
  have hwhere : ∀ o : Option Filter, Render.optional renderWhere (o.map Filter.affirmed) =
      Render.optional renderWhere o := by
    intro o
    cases o with
    | none => rfl
    | some f => simp only [Option.map_some, Render.optional, renderWhere, clauses_affirmed]
  rw [← hwhere o, h, hwhere]

theorem renderEntries_of_affirmed (h : o.map Filter.affirmed = q.filter.map Filter.affirmed) :
    renderEntries (q.withFilter o) = renderEntries q := by
  have hwhere : whereEntries (q.withFilter o) = whereEntries q := by
    rw [whereEntries, whereEntries, Query.withFilter, optional_renderWhere_of_affirmed h]
  have hparts : renderParts (q.withFilter o) = renderParts q := by
    rw [renderParts, renderParts]
    simp only [renderFind, hwhere]
    rfl
  rw [renderEntries, renderEntries, hparts]
  rfl

theorem validate_of_affirmed (h : o.map Filter.affirmed = q.filter.map Filter.affirmed)
    (hvalid : q.validate = .ok ()) : (q.withFilter o).validate = .ok () := by
  obtain ⟨htarget, hgroup, hdemand⟩ := Query.validate_eq_ok_iff.mp hvalid
  obtain ⟨hfilter, hstages⟩ := Query.emptyGroup?_eq_none.mp hgroup
  have hempty : o.bind Filter.emptyGroup? = none := by
    have hbind : ∀ o : Option Filter, (o.bind Filter.emptyGroup?).map LogicOperator.affirmed =
        (o.map Filter.affirmed).bind Filter.emptyGroup? := by
      intro o
      cases o with
      | none => rfl
      | some f => exact (Filter.emptyGroup?_affirmed f).symm
    rw [← Option.map_eq_none_iff, hbind, h, ← hbind, hfilter, Option.map_none]
  have hnesting : o.map Filter.nesting = q.filter.map Filter.nesting := by
    have hmap : ∀ o : Option Filter,
        (o.map Filter.affirmed).map Filter.nesting = o.map Filter.nesting := by
      intro o
      cases o with
      | none => rfl
      | some f => exact congrArg some (Filter.nesting_affirmed f)
    rw [← hmap o, h, hmap]
  refine Query.validate_eq_ok_iff.mpr ⟨htarget, ?_, ?_⟩
  · exact Query.emptyGroup?_eq_none.mpr ⟨hempty, hstages⟩
  · rw [Query.validateOperation_withFilter hnesting, hdemand]

/-- Filters that differ in nothing but whether groups are conjunctions or negated render alike. -/
theorem render_of_affirmed (h : o.map Filter.affirmed = q.filter.map Filter.affirmed)
    {r : Rendered} (hr : q.render .firestore = .ok r) :
    (q.withFilter o).render .firestore = .ok r := by
  obtain ⟨hvalid, hsupports, es, hes, hbody⟩ := Query.render_eq_ok_iff.mp hr
  refine Query.render_eq_ok_iff.mpr ⟨validate_of_affirmed h hvalid, hsupports, es, ?_, hbody⟩
  show (renderEntries (q.withFilter o)).Gives es r.params
  rw [renderEntries_of_affirmed h]
  exact hes

end Queries

end Firestore

end DocumentQuery

import DocumentQuery.Proofs.Couch.Selector
import DocumentQuery.Proofs.Firestore.Flattening
import DocumentQuery.Proofs.RenderedFilter
/-!
# Filters of conditions

Who knows the tests and combinations of a dialect can put conditions together to a
filter. The dialect renders what is built that way, with one exception: dynamo says
that it knows the test for presence, but has a form for it only where it is a filter
of its own kind (`Filter.presence`), not where it is the operator of a condition.

Main definitions:
* `Dialect.Promises`: the filter is a condition or a group with conditions, and the
  dialect says that it knows its test or its combination.
* `Dialect.Projects`: the dialect has a form for the projection.

Results:
* `Dialect.succeeds_renderFilter_iff`: which filters of conditions render.
* `Query.find_isOk_iff`: a find that is well formed renders if its filter and its
  projection do.
* `Query.find_isOk_iff_of_promises`: a find by promised conditions renders if it does
  without them, but for presence in dynamo.
* `conditions_render_iff`: which finds by conditions render.
-/
namespace DocumentQuery

open Render (Succeeds)

/-- The filter itself, apart from the filters below it, is a condition or a group with conditions,
and the dialect says that it knows it. -/
def Dialect.Promises (dialect : Dialect) : Filter → Prop
  | .condition _ operator _ => dialect.supportsFilter operator = true
  | .group logic conditions => dialect.supportsLogic logic = true ∧ conditions ≠ []
  | _ => False

/-! ## Filters -/

namespace Mongo

mutual

theorem succeeds_of_promises : ∀ f : Filter,
    (∀ g ∈ f.nodes, Dialect.mongo.Promises g) → (renderFilter f).Succeeds
  | .condition field operator value, _ => ⟨_, _, renderTest_gives.mpr ⟨rfl, rfl⟩⟩
  | .group logic conditions, h => by
    obtain ⟨⟨hlogic, -⟩, hconditions⟩ := Filter.forall_nodes_group.mp h
    obtain ⟨vs, ps, hvs⟩ := succeedsAll_of_promises conditions hconditions
    exact ⟨_, ps, renderGroup_gives.mpr ⟨hlogic, vs, hvs, rfl⟩⟩
  | .elemMatch .., h | .range _, h | .regex .., h | .textSearch _, h | .geo _, h | .array .., h
  | .presence .., h => (h _ (Filter.mem_nodes_self _)).elim

theorem succeedsAll_of_promises : ∀ fs : List Filter,
    (∀ g ∈ Filter.nodesOfAll fs, Dialect.mongo.Promises g) → (renderFilters fs).Succeeds
  | [], _ => Render.succeeds_pure []
  | f :: fs, h => by
    obtain ⟨hf, hfs⟩ := Filter.forall_nodesOfAll_cons.mp h
    obtain ⟨v, qs, hv⟩ := succeeds_of_promises f hf
    obtain ⟨vs, rs, hvs⟩ := succeedsAll_of_promises fs hfs
    exact ⟨_, _, renderFilters_cons_gives.mpr ⟨v, vs, qs, rs, hv, hvs, rfl, rfl⟩⟩

end

end Mongo

/-- What dynamo promises has a form in a condition, but for the test for presence. -/
theorem Dynamo.expressible_of_promises {g : Filter} (h : Dialect.dynamo.Promises g) :
    Expressible g ↔ ∀ field value, g ≠ .condition field .present value := by
  cases g with
  | condition field op value =>
    have hop : op.isComparison = true ∨ op = .present := by
      simpa [Dialect.Promises, Dialect.supportsFilter] using h
    -- presence is promised and no comparison, and a condition has signs for these only
    rcases hop with hop | rfl
    · refine iff_of_true hop fun field value heq => ?_
      cases heq
      cases hop
    · refine iff_of_false (fun hop => by cases hop) fun hne => hne field value rfl
  | group logic conditions =>
    have hlogic : logic = .and ∨ logic = .or := by
      simpa [Dialect.supportsLogic] using h.1
    refine iff_of_true hlogic fun field value heq => ?_
    cases heq
  | _ => exact h.elim

theorem Firestore.expressible_of_promises {g : Filter} (h : Dialect.firestore.Promises g) :
    Expressible g := by
  cases g with
  | condition field op value => exact h
  | group logic conditions => exact .inl (by simpa [Dialect.supportsLogic] using h.1)
  | _ => exact h.elim

theorem Couch.expressible_of_promises {g : Filter} (h : Dialect.couch.Promises g) :
    Expressible g := by
  cases g with
  | condition field op value => exact h
  | group logic conditions => exact Couch.supportsLogic_iff.mp h.1
  | _ => exact h.elim

namespace Dialect

variable {dialect : Dialect} {f : Filter}

/-- A filter of conditions that a dialect promises renders, unless the dialect is dynamo and one of
the conditions is for presence. -/
theorem succeeds_renderFilter_iff (h : ∀ g ∈ f.nodes, dialect.Promises g) :
    (dialect.renderFilter f).Succeeds ↔
      (dialect = .dynamo → ∀ field value, Filter.condition field .present value ∉ f.nodes) := by
  cases dialect with
  | mongo => exact iff_of_true (Mongo.succeeds_of_promises f h) (fun heq => by cases heq)
  | dynamo =>
    rw [Dynamo.succeeds_iff_condition, Dynamo.condition_isOk_iff]
    constructor
    · intro hnodes _ field value hmem
      exact (Dynamo.expressible_of_promises (h _ hmem)).mp (hnodes _ hmem) field value rfl
    · intro hpresent g hg
      refine (Dynamo.expressible_of_promises (h g hg)).mpr fun field value heq => ?_
      exact hpresent rfl field value (heq ▸ hg)
  | firestore =>
    refine iff_of_true ?_ (fun heq => by cases heq)
    rw [Firestore.succeeds_iff_clauses, Firestore.clauses_isOk_iff]
    exact fun g hg => Firestore.expressible_of_promises (h g hg)
  | couch =>
    refine iff_of_true ?_ (fun heq => by cases heq)
    exact (Couch.renderSelector_isOk_iff f).mpr fun g hg => Couch.expressible_of_promises (h g hg)

end Dialect

/-! ## Validation of a find -/

namespace Query

variable {q : Query} {f : Filter}

/-- The demands on the filter and the demands on the rest do not look at each other. -/
theorem validate_find_iff (hop : q.operation = .find ∨ q.operation = .findOne)
    (hf : q.filter = some f) : q.validate = .ok () ↔
      (f.emptyGroup? = none ∧ f.nesting ≤ maxFilterDepth) ∧
        (q.withFilter none).validate = .ok () := by
  have hdemand : q.validateOperation = q.validateFind := validateOperation_of_find hop
  have hdemand' : (q.withFilter none).validateOperation = (q.withFilter none).validateFind :=
    validateOperation_of_find hop
  simp only [validate_eq_ok_iff, emptyGroup?_eq_none, hdemand, hdemand', validateFind_eq_ok_iff]
  simp only [withFilter, hf, Option.bind_some, Option.bind_none, Option.some.injEq, forall_eq',
    reduceCtorEq, false_implies, implies_true, and_true, true_and]
  tauto

end Query

/-! ## Parts of a find -/

/-- The dialect has a form for the projection, if there is one. -/
def Dialect.Projects : Dialect → Option Projection → Prop
  | .mongo, o => (Render.optional Mongo.renderProjection o).Succeeds
  | dialect, o => ∃ fields, o.mapM (selectedPaths dialect) = .ok fields

theorem Dialect.projects_none (dialect : Dialect) : dialect.Projects none := by
  cases dialect with
  | mongo => exact Render.succeeds_pure none
  | _ => exact ⟨none, rfl⟩

section Parts

variable {q : Query}

theorem Mongo.succeeds_renderFind_iff : (renderFind q).Succeeds ↔
    (∀ f, q.filter = some f → (Dialect.mongo.renderFilter f).Succeeds) ∧
      Dialect.mongo.Projects q.projection := by
  have hfilter : (renderQueryFilter q).Succeeds ↔
      ∀ f, q.filter = some f → (Dialect.mongo.renderFilter f).Succeeds := by
    rw [renderQueryFilter]
    cases q.filter with
    | none => simp
    | some f => simp [Dialect.renderFilter]
  rw [← hfilter]
  refine Render.succeeds_bind_iff fun _ => Render.succeeds_bind_of_forall fun _ => ?_
  exact (Render.succeeds_optional_pagination q.skip).bind fun _ =>
    (Render.succeeds_optional_pagination q.limit).bind fun _ => Render.succeeds_pure _

theorem Dynamo.succeeds_renderFind_iff : (renderFind q).Succeeds ↔
    (∀ f, q.filter = some f → (Dialect.dynamo.renderFilter f).Succeeds) ∧
      Dialect.dynamo.Projects q.projection := by
  have hfilter : (Render.ofExcept (queryCondition q)).Succeeds ↔
      ∀ f, q.filter = some f → (Dialect.dynamo.renderFilter f).Succeeds := by
    simp only [Render.succeeds_ofExcept, succeeds_iff_condition, queryCondition]
    cases q.filter with
    | none => exact iff_of_true ⟨none, rfl⟩ (by simp)
    | some f =>
      simp only [Option.mapM_some, Option.some.injEq, forall_eq']
      cases condition f <;> simp
  rw [← hfilter]
  refine Render.succeeds_bind_iff fun c =>
    (Render.succeeds_bind_of_forall fun fields => ?_).trans Render.succeeds_ofExcept
  have hvalues : (valueEntries (valuesOf c)).Succeeds := ⟨_, _, valueEntries_gives.mpr ⟨rfl, rfl⟩⟩
  exact hvalues.bind fun _ =>
    (Render.succeeds_optional_pagination q.limit).bind fun _ => Render.succeeds_pure _

theorem Firestore.succeeds_renderFind_iff : (renderFind q).Succeeds ↔
    (∀ f, q.filter = some f → (Dialect.firestore.renderFilter f).Succeeds) ∧
      Dialect.firestore.Projects q.projection := by
  have hfilter : (whereEntries q).Succeeds ↔
      ∀ f, q.filter = some f → (Dialect.firestore.renderFilter f).Succeeds := by
    rw [whereEntries, bind_pure_comp, Render.succeeds_map, Render.succeeds_optional]
    rfl
  rw [← hfilter]
  refine Render.succeeds_bind_iff fun _ =>
    (Render.succeeds_optional_pagination q.limit).bind_iff fun _ =>
      (Render.succeeds_optional_pagination q.skip).bind_iff fun _ => ?_
  exact (Render.succeeds_bind_of_forall fun _ => Render.succeeds_pure _).trans
    Render.succeeds_ofExcept

theorem Couch.succeeds_renderFind_iff : (renderFind q).Succeeds ↔
    (∀ f, q.filter = some f → (Dialect.couch.renderFilter f).Succeeds) ∧
      Dialect.couch.Projects q.projection := by
  have hfilter : (Render.optional renderSelector q.filter).Succeeds ↔
      ∀ f, q.filter = some f → (Dialect.couch.renderFilter f).Succeeds := Render.succeeds_optional
  rw [← hfilter]
  refine Render.succeeds_bind_iff fun _ =>
    (Render.succeeds_bind_of_forall fun fields => ?_).trans Render.succeeds_ofExcept
  exact (Render.succeeds_optional_pagination q.limit).bind fun _ =>
    (Render.succeeds_optional_pagination q.skip).bind fun _ => Render.succeeds_pure _

theorem Dialect.succeeds_renderFind_iff (dialect : Dialect) : (dialect.renderFind q).Succeeds ↔
    (∀ f, q.filter = some f → (dialect.renderFilter f).Succeeds) ∧
      dialect.Projects q.projection := by
  cases dialect with
  | mongo => exact Mongo.succeeds_renderFind_iff
  | dynamo => exact Dynamo.succeeds_renderFind_iff
  | firestore => exact Firestore.succeeds_renderFind_iff
  | couch => exact Couch.succeeds_renderFind_iff

end Parts

/-! ## Whole finds -/

namespace Query

variable {q : Query} {f : Filter} {dialect : Dialect}

/-- A find that is well formed renders if its filter and its projection do. -/
theorem find_isOk_iff (hop : q.operation = .find ∨ q.operation = .findOne) :
    (∃ r, q.render dialect = .ok r) ↔ q.validate = .ok () ∧
      (∀ f, q.filter = some f → (dialect.renderFilter f).Succeeds) ∧
        dialect.Projects q.projection := by
  have hsupports : dialect.supportsOperation q.operation = true := by
    rcases hop with hop | hop <;> rw [hop] <;> cases dialect <;> rfl
  rw [render_isOk_iff, dialect.renderParts_of_find hop, dialect.succeeds_renderFind_iff]
  simp only [hsupports, true_and]

/-- What a filter adds to a find without one. -/
theorem find_isOk_iff_withFilter (hop : q.operation = .find ∨ q.operation = .findOne)
    (hf : q.filter = some f) :
    (∃ r, q.render dialect = .ok r) ↔
      (f.emptyGroup? = none ∧ f.nesting ≤ maxFilterDepth) ∧ (dialect.renderFilter f).Succeeds ∧
        ∃ r, (q.withFilter none).render dialect = .ok r := by
  rw [find_isOk_iff hop, find_isOk_iff (q := q.withFilter none) hop, validate_find_iff hop hf]
  simp only [withFilter, hf, Option.some.injEq, forall_eq', reduceCtorEq, false_implies,
    implies_true, true_and]
  tauto

/-- A find of all documents renders. -/
theorem plain_find_isOk (dialect : Dialect) (target : Collection) :
    ∃ r, (Query.start .find target).render dialect = .ok r := by
  refine (find_isOk_iff (.inl rfl)).mpr ⟨?_, ?_, dialect.projects_none⟩
  · exact validate_eq_ok_iff.mpr ⟨target.isEmpty_name, rfl, rfl⟩
  · intro f hf
    cases hf

end Query

/-! ## Finds by conditions -/

theorem Filter.emptyGroup?_of_promises {f : Filter} {dialect : Dialect}
    (h : ∀ g ∈ f.nodes, dialect.Promises g) : f.emptyGroup? = none := by
  rw [Filter.emptyGroup?_eq_none_iff]
  intro g hg hempty
  have hpromises := h g hg
  cases g with
  | group logic conditions => exact hpromises.2 hempty
  | _ => exact hempty

section Conditions

variable {f : Filter} {dialect : Dialect} (hpromises : ∀ g ∈ f.nodes, dialect.Promises g)
  (hnesting : f.nesting ≤ maxFilterDepth)

include hpromises hnesting

/-- Promised conditions never make a find fail, but for those that ask dynamo for presence. -/
theorem Query.find_isOk_iff_of_promises {q : Query}
    (hop : q.operation = .find ∨ q.operation = .findOne) (hf : q.filter = some f) :
    (∃ r, q.render dialect = .ok r) ↔
      (dialect = .dynamo → ∀ field value, Filter.condition field .present value ∉ f.nodes) ∧
        ∃ r, (q.withFilter none).render dialect = .ok r := by
  rw [Query.find_isOk_iff_withFilter hop hf, Dialect.succeeds_renderFilter_iff hpromises]
  exact and_iff_right ⟨Filter.emptyGroup?_of_promises hpromises, hnesting⟩

/-- Who follows the promises of a dialect gets a find that renders, as long as the find without its
filter does, and as long as no condition asks dynamo for presence. -/
theorem conditions_render_iff :
    (∀ q : Query, q.operation = .find ∨ q.operation = .findOne → q.filter = some f →
      ((∃ r, q.render dialect = .ok r) ↔
        (dialect = .dynamo → ∀ field value, Filter.condition field .present value ∉ f.nodes) ∧
          ∃ r, (q.withFilter none).render dialect = .ok r)) ∧
    ∀ target : Collection,
      ((∃ r, ((Query.start .find target).withFilter (some f)).render dialect = .ok r) ↔
        (dialect = .dynamo → ∀ field value, Filter.condition field .present value ∉ f.nodes)) := by
  refine ⟨fun q hop hf => Query.find_isOk_iff_of_promises hpromises hnesting hop hf, ?_⟩
  intro target
  -- without its filter this is the find of all documents, which renders
  rw [Query.find_isOk_iff_of_promises hpromises hnesting (.inl rfl) rfl]
  exact and_iff_left (Query.plain_find_isOk dialect target)

end Conditions

/-- Old enough, or of an email that is there. -/
def grownOrEmailed : Filter :=
  .group .or [.condition Users.age .gte Users.least, .condition Users.email .present Users.given]

theorem conditions_render_iff_grownOrEmailed :
    ∃ r, ((Query.start .find Users.collection).withFilter (some grownOrEmailed)).render .couch =
      .ok r := by
  have hpromises : ∀ g ∈ grownOrEmailed.nodes, Dialect.couch.Promises g := by
    rw [grownOrEmailed, Filter.forall_nodes_group]
    refine ⟨⟨by decide, by simp⟩, ?_⟩
    simp [Filter.nodesOfAll, Filter.nodes, Dialect.Promises, Dialect.supportsFilter,
      FilterOperator.isComparison]
  have hnesting : grownOrEmailed.nesting ≤ maxFilterDepth := by decide
  obtain ⟨-, hplain⟩ := conditions_render_iff hpromises hnesting
  exact (hplain Users.collection).mpr fun heq => by cases heq

/-- Dynamo says that it knows the test for presence, and does not know it in a condition. -/
theorem promised_condition_fails :
    ∃ q, ((Builder.start .find Users.collection).run
        [.filter (.condition Users.email .present Users.given)]).build = .ok q ∧
      Dialect.dynamo.Promises (.condition Users.email .present Users.given) ∧
      q.render .dynamo = .error (.unsupported .dynamo (.filterOperator .present)) :=
  ⟨_, rfl, rfl, rfl⟩

end DocumentQuery

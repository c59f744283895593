import DocumentQuery.Dialect.Couch
import DocumentQuery.Proofs.FilterFormula
import DocumentQuery.Proofs.Mongo.Objects
/-!
# Selectors are filter objects

Couch renders fewer filters than mongo, and renders those to the same objects
with the same parameters. So whatever is known of filter objects holds of
selectors.

Main definitions:
* `Expressible`: a node of a filter that a selector has a form for.

Results:
* `renderSelector_isOk_iff`: which filters have a selector.
* `renderFilter_of_renderSelector`: a selector is the object of the filter.
* `selector_is_filter_object`: both together.
-/
namespace DocumentQuery.Couch

theorem renderTest_gives {field : Field} {operator : FilterOperator} {value : Param} {v : Json}
    {ps : List Param} :
    (renderTest field operator value).Gives v ps ↔
      Dialect.couch.supportsFilter operator = true ∧
        (Mongo.renderTest field operator value).Gives v ps := by
  unfold renderTest Mongo.renderTest
  by_cases h : Dialect.couch.supportsFilter operator = true
  · simp [h]
  · simp [h]

theorem renderRegex_gives {field : Field} {pattern : Param} {options : Option Param} {v : Json}
    {ps : List Param} :
    (renderRegex field pattern options).Gives v ps ↔
      options = none ∧ (Mongo.renderRegex field pattern options).Gives v ps := by
  rw [Mongo.renderRegex_gives]
  cases options with
  | none => simp [renderRegex, Mongo.patternOperators, Entries.optional, FilterOperator.token,
      Json.single, and_comm]
  | some o => simp [renderRegex]

theorem renderGroup_gives {logic : LogicOperator} {conditions : List Filter} {v : Json}
    {ps : List Param} :
    (renderSelector (.group logic conditions)).Gives v ps ↔
      Dialect.couch.supportsLogic logic = true ∧
      ∃ vs, (renderSelectors conditions).Gives vs ps ∧ v = .single logic.token (.arr vs) := by
  rw [renderSelector]
  split
  · rename_i h
    simp [h]
  · rename_i h
    simp [h]

theorem renderSelectors_cons_gives {f : Filter} {fs : List Filter} {vs : List Json}
    {ps : List Param} :
    (renderSelectors (f :: fs)).Gives vs ps ↔
      ∃ v ws qs rs, (renderSelector f).Gives v qs ∧ (renderSelectors fs).Gives ws rs ∧
        vs = v :: ws ∧ ps = qs ++ rs := Render.gives_two

/-! ## Which filters have a selector -/

/-- The filter, apart from those below it, has a form in a selector. -/
def Expressible : Filter → Prop
  | .condition _ operator _ => Dialect.couch.supportsFilter operator = true
  | .group logic _ => logic = .and ∨ logic = .or ∨ logic = .nor
  | .range _ => True
  | .presence .. => True
  | .regex _ _ options => options = none
  | _ => False

theorem supportsLogic_iff {logic : LogicOperator} :
    Dialect.couch.supportsLogic logic = true ↔ logic = .and ∨ logic = .or ∨ logic = .nor := by
  cases logic <;> decide

mutual

/-- A filter has a selector exactly if each of its nodes has a form in one. -/
theorem renderSelector_isOk_iff :
    ∀ f : Filter, (∃ v ps, (renderSelector f).Gives v ps) ↔ ∀ g ∈ f.nodes, Expressible g
  | .condition field operator value => by
    simp [Filter.nodes, Expressible, renderSelector, renderTest_gives, Mongo.renderTest_gives]
  | .group logic conditions => by
    rw [Filter.forall_nodes_group, ← renderSelectors_isOk_iff conditions, Expressible,
      ← supportsLogic_iff]
    simp only [renderGroup_gives]
    constructor
    · intro h
      obtain ⟨_, ps, hlogic, vs, hvs, -⟩ := h
      exact ⟨hlogic, vs, ps, hvs⟩
    · intro h
      obtain ⟨hlogic, vs, ps, hvs⟩ := h
      exact ⟨_, ps, hlogic, vs, hvs, rfl⟩
  | .range r => by
    have hgives : ∀ v ps, (renderSelector (.range r)).Gives v ps ↔ _ :=
      fun _ _ => Mongo.renderRange_gives
    simp [Filter.nodes, Expressible, hgives]
  | .regex field pattern options => by
    simp [Filter.nodes, Expressible, renderSelector, renderRegex_gives, Mongo.renderRegex_gives]
  | .presence field present => by
    simp [Filter.nodes, Expressible, renderSelector]
  | .elemMatch field conditions => by
    rw [Filter.forall_nodes_elemMatch]
    simp [Expressible, renderSelector]
  | .textSearch _ | .geo _ | .array .. => by
    simp [Filter.nodes, Expressible, renderSelector]

theorem renderSelectors_isOk_iff : ∀ fs : List Filter,
    (∃ vs ps, (renderSelectors fs).Gives vs ps) ↔ ∀ g ∈ Filter.nodesOfAll fs, Expressible g
  | [] => by simp [renderSelectors, Filter.nodesOfAll]
  | f :: fs => by
    rw [Filter.forall_nodesOfAll_cons, ← renderSelector_isOk_iff f, ← renderSelectors_isOk_iff fs]
    simp only [renderSelectors_cons_gives]
    constructor
    · intro h
      obtain ⟨_, _, v, vs, ps, qs, hv, hvs, -⟩ := h
      exact ⟨⟨v, ps, hv⟩, ⟨vs, qs, hvs⟩⟩
    · intro h
      obtain ⟨⟨v, ps, hv⟩, ⟨vs, qs, hvs⟩⟩ := h
      exact ⟨_, _, v, vs, ps, qs, hv, hvs, rfl, rfl⟩

end

/-! ## Selectors and filter objects -/

mutual

/-- What couch renders a filter to, mongo renders it to. -/
theorem renderFilter_of_renderSelector : ∀ (f : Filter) {v : Json} {ps : List Param},
    (renderSelector f).Gives v ps → (Mongo.renderFilter f).Gives v ps
  | .condition field operator value, _, _, h => (renderTest_gives.mp h).2
  | .group logic conditions, _, _, h => by
    obtain ⟨hlogic, vs, hvs, rfl⟩ := renderGroup_gives.mp h
    exact Mongo.renderGroup_gives.mpr
      ⟨hlogic, vs, renderFilters_of_renderSelectors conditions hvs, rfl⟩
  | .range _, _, _, h => h
  | .regex field pattern options, _, _, h => (renderRegex_gives.mp h).2
  | .presence field present, _, _, h => h
  | .textSearch _, _, _, h | .geo _, _, _, h | .array .., _, _, h | .elemMatch .., _, _, h =>
    (Render.gives_unsupported.mp h).elim

theorem renderFilters_of_renderSelectors : ∀ (fs : List Filter) {vs : List Json} {ps : List Param},
    (renderSelectors fs).Gives vs ps → (Mongo.renderFilters fs).Gives vs ps
  | [], _, _, h => h
  | f :: fs, _, _, h => by
    obtain ⟨v, vs, qs, rs, hv, hvs, rfl, rfl⟩ := renderSelectors_cons_gives.mp h
    refine Mongo.renderFilters_cons_gives.mpr ⟨v, vs, qs, rs, ?_, ?_, rfl, rfl⟩
    · exact renderFilter_of_renderSelector f hv
    · exact renderFilters_of_renderSelectors fs hvs

end

/-- A filter has a selector exactly if each of its nodes has a form in one. The selector is then the
object that mongo renders the filter to, entry by entry, and binds the same parameters in the same
order. -/
theorem selector_is_filter_object (f : Filter) :
    ((∃ v ps, renderSelector f = .ok (v, ps)) ↔ ∀ g ∈ f.nodes, Expressible g) ∧
    ∀ v ps, renderSelector f = .ok (v, ps) → Mongo.renderFilter f = .ok (v, ps) :=
  ⟨renderSelector_isOk_iff f, fun _ _ h => renderFilter_of_renderSelector f h⟩

/-- Users who are neither of some age nor without an address, or have a name like the pattern. -/
def contacts : Filter :=
  .group .or [.group .nor [.range ⟨Users.age, some Users.least, some Users.greatest, true, false⟩,
      .presence Users.email false],
    .regex Users.name Users.pattern none]

theorem selector_is_filter_object_contacts :
    ∃ v, renderSelector contacts = .ok (v, [Users.least, Users.greatest, Users.pattern]) ∧
      Mongo.renderFilter contacts = .ok (v, [Users.least, Users.greatest, Users.pattern]) := by
  obtain ⟨hiff, hsame⟩ := selector_is_filter_object contacts
  obtain ⟨v, hv⟩ : ∃ v,
      renderSelector contacts = .ok (v, [Users.least, Users.greatest, Users.pattern]) := ⟨_, rfl⟩
  exact ⟨v, hv, hsame v _ hv⟩

end DocumentQuery.Couch

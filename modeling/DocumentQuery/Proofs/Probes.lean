import DocumentQuery.Proofs.FilterPlaces
import DocumentQuery.Proofs.Firestore.Negation
import DocumentQuery.Proofs.FittingParts
import DocumentQuery.Proofs.RenderedFilter
import DocumentQuery.Proofs.Couch.Selector
/-!
# Probes of a dialect

A dialect can be asked whether it knows an operation, a test, a combination, a
change or a kind of stage. What it renders does not go beyond the answers, with one
exception: firestore takes a negated group, which it has no combination for, and
renders it as if it was a conjunction.

Main definitions:
* `Dialect.Covers`: the answers for what a filter itself asks for are yes.
* `Query.rendered`: the filters that are gone through when a query is rendered.

Results:
* `Dialect.covers_of_renderFilter`, `Query.covers_of_render`: what is rendered of a
  filter, and of all filters of a query, is covered.
* `Query.supportsUpdate_of_render`: so are the changes.
* `probes_sound`: built queries that render do not go beyond the answers.
-/
namespace DocumentQuery

open Render (gives_map gives_pure)

/-! ## What the dialect is asked for -/

/-- The dialect says that it knows what the filter itself, apart from the filters below it, asks
for. Firestore takes a negated group without saying so. -/
def Dialect.Covers (dialect : Dialect) : Filter → Prop
  | .condition _ operator _ | .array _ operator _ => dialect.supportsFilter operator = true
  | .geo g => dialect.supportsFilter g.operator = true
  | .range r => ∀ b ∈ r.bounds, dialect.supportsFilter b.1 = true
  | .presence .. => dialect.supportsFilter .present = true
  | .regex .. => dialect.supportsFilter .regex = true
  | .textSearch _ => dialect.supportsFilter .text = true
  | .elemMatch .. => dialect.supportsFilter .elemMatch = true
  | .group logic _ => dialect.supportsLogic logic = true ∨ dialect = .firestore ∧ logic = .not

/-- The conditions of element matches that are rendered; a slice takes their place. -/
def Projection.matched (p : Projection) : List Filter :=
  p.fields.flatMap fun f => if f.slice.isSome then [] else f.elemMatch.getD []

/-- The filters that are gone through when the stage is rendered, those of the stages inside it left
out. -/
def Stage.rendered (s : Stage) : List Filter :=
  s.filter?.toList ++ s.projection?.toList.flatMap Projection.matched

/-- The filters that are gone through when the query is rendered. -/
def Query.rendered (q : Query) : List Filter :=
  match q.operation with
  | .find | .findOne => q.filter.toList ++ q.projection.toList.flatMap Projection.matched
  | .update | .updateMany | .delete | .deleteMany | .count | .distinct => q.filter.toList
  | .aggregate => (Stage.nodesIn q.pipeline).flatMap Stage.rendered
  | .insert | .insertMany => []

/-! ## Filters -/

theorem supports_comparison (dialect : Dialect) {op : FilterOperator}
    (h : op.isComparison = true) : dialect.supportsFilter op = true := by
  cases dialect with
  | mongo => rfl
  | dynamo => simp [Dialect.supportsFilter, h]
  | firestore =>
    rw [Dialect.supportsFilter, Firestore.whereSign?_isSome_iff]
    exact .inl h
  | couch => simp [Dialect.supportsFilter, h]

/-- Bounds are comparisons, which every dialect knows. -/
theorem covers_range (dialect : Dialect) (r : RangeFilter) : dialect.Covers (.range r) :=
  fun _ hb => supports_comparison dialect (Dynamo.isComparison_of_mem_bounds hb)

namespace Mongo

mutual

/-- Groups aside, there is nothing in a filter that mongo does not know. -/
theorem covers_of_gives : ∀ (f : Filter) {v : Json} {ps : List Param},
    (renderFilter f).Gives v ps → ∀ g ∈ f.nodes, Dialect.mongo.Covers g
  | .group logic conditions, _, _, h => by
    obtain ⟨hlogic, vs, hvs, -⟩ := renderGroup_gives.mp h
    exact Filter.forall_nodes_group.mpr ⟨.inl hlogic, coversAll_of_gives conditions hvs⟩
  | .elemMatch field conditions, _, _, h => by
    obtain ⟨vs, hvs, -⟩ := renderElemMatch_gives.mp h
    exact Filter.forall_nodes_elemMatch.mpr ⟨rfl, coversAll_of_gives conditions hvs⟩
  | .range r, _, _, _ => List.forall_mem_singleton.mpr (covers_range .mongo r)
  | .condition .., _, _, _ | .regex .., _, _, _ | .textSearch _, _, _, _ | .geo _, _, _, _
  | .array .., _, _, _ | .presence .., _, _, _ => List.forall_mem_singleton.mpr rfl

theorem coversAll_of_gives : ∀ (fs : List Filter) {vs : List Json} {ps : List Param},
    (renderFilters fs).Gives vs ps → ∀ g ∈ Filter.nodesOfAll fs, Dialect.mongo.Covers g
  | [], _, _, _ => by simp [Filter.nodesOfAll]
  | f :: fs, _, _, h => by
    obtain ⟨v, ws, qs, rs, hv, hws, -, -⟩ := renderFilters_cons_gives.mp h
    exact Filter.forall_nodesOfAll_cons.mpr ⟨covers_of_gives f hv, coversAll_of_gives fs hws⟩

end

end Mongo

theorem Dynamo.covers_of_expressible {f : Filter} (h : Expressible f) :
    Dialect.dynamo.Covers f := by
  cases f with
  | condition field op value => exact supports_comparison .dynamo h
  | range r => exact covers_range .dynamo r
  | presence field present => rfl
  | group logic conditions =>
    left
    rcases h with rfl | rfl <;> rfl
  | _ => exact h.elim

theorem Firestore.covers_of_expressible {f : Filter} (h : Expressible f) :
    Dialect.firestore.Covers f := by
  cases f with
  | condition field op value => exact h
  | array field op value => exact h
  | range r => exact covers_range .firestore r
  | group logic conditions =>
    rcases h with rfl | rfl
    · exact .inl rfl
    · exact .inr ⟨rfl, rfl⟩
  | _ => exact h.elim

theorem Couch.covers_of_expressible {f : Filter} (h : Expressible f) : Dialect.couch.Covers f := by
  cases f with
  | condition field op value => exact h
  | range r => exact covers_range .couch r
  | presence field present => rfl
  | regex field pattern options => rfl
  | group logic conditions => exact .inl (Couch.supportsLogic_iff.mpr h)
  | _ => exact h.elim

/-- A filter that renders is covered, and so is every filter below it. -/
theorem Dialect.covers_of_renderFilter {dialect : Dialect} {f : Filter} {v : Json}
    {ps : List Param} (h : (dialect.renderFilter f).Gives v ps) :
    ∀ g ∈ f.nodes, dialect.Covers g := by
  cases dialect with
  | mongo => exact Mongo.covers_of_gives f h
  | dynamo =>
    have hnodes := (Dynamo.condition_isOk_iff f).mp (Dynamo.succeeds_iff_condition.mp ⟨v, ps, h⟩)
    exact fun g hg => Dynamo.covers_of_expressible (hnodes g hg)
  | firestore =>
    have hnodes := (Firestore.clauses_isOk_iff f).mp (Firestore.succeeds_iff_clauses.mp ⟨v, ps, h⟩)
    exact fun g hg => Firestore.covers_of_expressible (hnodes g hg)
  | couch =>
    have hnodes := (Couch.renderSelector_isOk_iff f).mp ⟨v, ps, h⟩
    exact fun g hg => Couch.covers_of_expressible (hnodes g hg)

/-! ## Projections and stages -/

section Places

variable {ps : List Param}

theorem Mongo.covers_projection {p : Projection} {es : Entries}
    (h : (renderProjectionEntries p).Gives es ps) :
    ∀ f ∈ p.matched, ∀ g ∈ f.nodes, Dialect.mongo.Covers g := by
  intro f hf
  obtain ⟨field, hfield, hf⟩ := List.mem_flatMap.mp hf
  obtain ⟨e, qs, he⟩ := Render.exists_of_each h field hfield
  obtain ⟨v, -, hv⟩ := renderProjectionField_gives.mp he
  obtain ⟨field, included, slice, elemMatch⟩ := field
  cases slice with
  | some s => cases hf
  | none =>
    cases elemMatch with
    | none => cases hf
    | some conditions =>
      obtain ⟨vs, hvs, -⟩ := hv
      exact Filter.forall_nodesOfAll_iff.mp (coversAll_of_gives conditions hvs) f hf

/-- Where only paths can be selected, there are no element matches. -/
theorem matched_of_selectedPaths {dialect : Dialect} {p : Projection} {paths : List String}
    (h : selectedPaths dialect p = .ok paths) : p.matched = [] := by
  rw [selectedPaths, mapM_eq_ok_iff] at h
  rw [Projection.matched, List.flatMap_eq_nil_iff]
  intro f hf
  obtain ⟨path, -, hpath⟩ := exists_of_forall₂ h f hf
  split at hpath
  · cases hpath
  · split at hpath
    · cases hpath
    · split at hpath
      · cases hpath
      · rename_i hmatch
        rw [Option.not_isSome_iff_eq_none] at hmatch
        simp [hmatch]

theorem matched_of_selection {dialect : Dialect} {o : Option Projection}
    {selected : Option (List String)} (h : o.mapM (selectedPaths dialect) = .ok selected) :
    o.toList.flatMap Projection.matched = [] := by
  cases o with
  | none => rfl
  | some p =>
    obtain ⟨paths, hpaths, -⟩ := bind_eq_ok_iff.mp h
    simp [matched_of_selectedPaths hpaths]

namespace Mongo

mutual

/-- The filters of a stage and of the stages inside it are covered. -/
theorem covers_stage : ∀ (s : Stage) {v : Json} {ps : List Param},
    (renderStageBody s).Gives v ps →
      ∀ t ∈ s.nodes, ∀ f ∈ t.rendered, ∀ g ∈ f.nodes, Dialect.mongo.Covers g
  | .filter f, _, _, h => by
    simpa [Stage.nodes, Stage.rendered, Stage.filter?, Stage.projection?] using covers_of_gives f h
  | .project projection computed, _, _, h => by
    obtain ⟨fields, _, _, _, hfields, -⟩ := renderProject_gives.mp h
    simpa [Stage.nodes, Stage.rendered, Stage.filter?, Stage.projection?] using
      covers_projection hfields
  | .lookup source localField foreignField output pipeline bindings, _, _, h => by
    obtain ⟨_, stages, _, _, -, hstages, -⟩ := renderLookup_gives.mp h
    rw [Stage.nodes, List.forall_mem_cons]
    exact ⟨fun f hf => (by cases hf), covers_stages pipeline hstages⟩
  | .facet facets, _, _, h => by
    obtain ⟨entries, hentries, -⟩ := renderFacet_gives.mp h
    rw [Stage.nodes, List.forall_mem_cons]
    exact ⟨fun f hf => (by cases hf), covers_facets facets hentries⟩
  | .group .., _, _, _ | .sort _, _, _, _ | .limit _, _, _, _ | .skip _, _, _, _
  | .unwind .., _, _, _ | .addFields _, _, _, _ | .replaceRoot _, _, _, _ | .count _, _, _, _
  | .bucket .., _, _, _ => by
    simp [Stage.nodes, Stage.rendered, Stage.filter?, Stage.projection?]

theorem covers_stages : ∀ (stages : List Stage) {vs : List Json} {ps : List Param},
    (renderStages stages).Gives vs ps →
      ∀ t ∈ Stage.nodesIn stages, ∀ f ∈ t.rendered, ∀ g ∈ f.nodes, Dialect.mongo.Covers g
  | [], _, _, _ => by simp [Stage.nodesIn]
  | s :: rest, _, _, h => by
    obtain ⟨body, ws, _, _, hbody, hws, -⟩ := renderStages_cons_gives.mp h
    rw [Stage.nodesIn, List.forall_mem_append]
    exact ⟨covers_stage s hbody, covers_stages rest hws⟩

theorem covers_facets : ∀ (facets : List (String × List Stage)) {es : Entries} {ps : List Param},
    (renderFacets facets).Gives es ps →
      ∀ t ∈ Stage.nodesInFacets facets, ∀ f ∈ t.rendered, ∀ g ∈ f.nodes, Dialect.mongo.Covers g
  | [], _, _, _ => by simp [Stage.nodesInFacets]
  | (_, stages) :: rest, _, _, h => by
    obtain ⟨vs, fs, _, _, hvs, hfs, -⟩ := renderFacets_cons_gives.mp h
    rw [Stage.nodesInFacets, List.forall_mem_append]
    exact ⟨covers_stages stages hvs, covers_facets rest hfs⟩

end

end Mongo

end Places

/-! ## Queries -/

namespace Query

variable {q : Query} {dialect : Dialect} {r : Rendered}

theorem covers_filter (htakes : q.operation.takesFilter = true) (hr : q.render dialect = .ok r) :
    ∀ f ∈ q.filter.toList, ∀ g ∈ f.nodes, dialect.Covers g := by
  intro f hf
  obtain ⟨v, ps, hv, -⟩ := (carries_of_render (Option.mem_toList.mp hf) htakes hr).rendered
  exact dialect.covers_of_renderFilter hv

theorem covers_projection (hop : q.operation = .find ∨ q.operation = .findOne)
    (hr : q.render dialect = .ok r) :
    ∀ f ∈ q.projection.toList.flatMap Projection.matched, ∀ g ∈ f.nodes, dialect.Covers g := by
  obtain ⟨parts, hparts, -⟩ := Query.parts_of_render hr
  rw [dialect.renderParts_of_find hop] at hparts
  cases dialect with
  | mongo =>
    obtain ⟨_, projection, _, _, _, rs, _, _, -, hprojection, -⟩ := Mongo.renderFind_gives.mp hparts
    rcases Render.gives_optional.mp hprojection with ⟨hnone, -⟩ | ⟨p, v, hp, -, hv⟩
    · simp [hnone]
    · obtain ⟨es, hes, -⟩ := Mongo.renderProjection_gives.mp hv
      simpa [hp] using Mongo.covers_projection hes
  | dynamo =>
    obtain ⟨_, fields, _, _, -, hfields, -⟩ := Dynamo.renderFind_gives.mp hparts
    simp [matched_of_selection hfields]
  | firestore =>
    obtain ⟨_, _, _, fields, _, _, _, -, -, -, hfields, -⟩ := Firestore.renderFind_gives.mp hparts
    simp [matched_of_selection hfields]
  | couch =>
    obtain ⟨_, fields, _, _, _, _, _, -, hfields, -⟩ := Couch.renderFind_gives.mp hparts
    simp [matched_of_selection hfields]

/-- Everything that is rendered of the filters of a query is covered. -/
theorem covers_of_render (hr : q.render dialect = .ok r) :
    ∀ f ∈ q.rendered, ∀ g ∈ f.nodes, dialect.Covers g := by
  obtain ⟨-, hsupports, -⟩ := Query.render_eq_ok_iff.mp hr
  rw [rendered]
  cases hop : q.operation with
  | find =>
    exact List.forall_mem_append.mpr
      ⟨covers_filter (by rw [hop]; rfl) hr, covers_projection (.inl hop) hr⟩
  | findOne =>
    exact List.forall_mem_append.mpr
      ⟨covers_filter (by rw [hop]; rfl) hr, covers_projection (.inr hop) hr⟩
  | update | updateMany | delete | deleteMany | count | distinct =>
    exact covers_filter (by rw [hop]; rfl) hr
  | insert | insertMany => simp
  | aggregate =>
    rw [hop] at hsupports
    cases dialect with
    | mongo =>
      obtain ⟨parts, hparts, -⟩ := Query.parts_of_render hr
      simp only [Dialect.renderParts, Mongo.renderParts, Mongo.renderPipeline, hop, bind_pure_comp,
        gives_map] at hparts
      obtain ⟨_, ⟨stages, hstages, -⟩, -⟩ := hparts
      intro f hf
      obtain ⟨s, hs, hf⟩ := List.mem_flatMap.mp hf
      exact Mongo.covers_stages q.pipeline hstages s hs f hf
    | _ => cases hsupports

/-! ## Changes -/

/-- Where a dialect does not know updates of many documents, an update is of one document. -/
theorem update_of_supports (hdialect : dialect ≠ .mongo)
    (hsupports : dialect.supportsOperation q.operation = true)
    (hop : q.operation.isUpdate = true) : q.operation = .update := by
  cases hq : q.operation with
  | update => rfl
  | updateMany =>
    rw [hq] at hsupports
    cases dialect with
    | mongo => exact absurd rfl hdialect
    | _ => cases hsupports
  | _ =>
    rw [hq] at hop
    cases hop

end Query

theorem Dynamo.supportsUpdate_of_actions {op : UpdateOperation} {acts : List Action}
    (h : operationActions op = .ok acts) :
    Dialect.dynamo.supportsUpdate op.operator = true := by
  unfold operationActions at h
  cases hop : op.operator with
  | set | unset | inc => rfl
  | _ =>
    rw [hop] at h
    cases h

theorem Firestore.supportsUpdate_of_assignment {operator : UpdateOperator} {path : String}
    {value : Option Param} {a : Assignment} (h : assignment operator path value = .ok a) :
    Dialect.firestore.supportsUpdate operator = true := by
  cases operator with
  | set | unset => rfl
  | _ => cases h

/-- Only a field that is changed makes firestore look at the operator. -/
theorem Firestore.supportsUpdate_of_assignments {ops : List UpdateOperation}
    {list : List (String × Assignment)} (h : assignments [] (changes ops) = .ok list)
    {op : UpdateOperation} (hop : op ∈ ops) (hfields : op.fields.keys ≠ []) :
    Dialect.firestore.supportsUpdate op.operator = true := by
  obtain ⟨e, he⟩ : ∃ e, e ∈ op.fields.entries := by
    refine List.exists_mem_of_ne_nil _ fun hnil => hfields ?_
    rw [OrderedMap.keys, hnil, List.map_nil]
  have hchange : (op.operator, e.1.path, e.2) ∈ changes ops :=
    List.mem_flatMap.mpr ⟨op, hop, List.mem_map.mpr ⟨e, he, rfl⟩⟩
  obtain ⟨a, -, -, ha⟩ := exists_of_forall₂ (assignments_make h) _ hchange
  exact supportsUpdate_of_assignment ha

namespace Query

variable {q : Query} {dialect : Dialect} {r : Rendered}

/-- The operators that change a field are known. -/
theorem supportsUpdate_of_render (hr : q.render dialect = .ok r)
    (hop : q.operation.isUpdate = true) :
    ∀ op ∈ q.updates, op.fields.keys ≠ [] → dialect.supportsUpdate op.operator = true := by
  intro op hmem hfields
  obtain ⟨-, hsupports, -⟩ := Query.render_eq_ok_iff.mp hr
  obtain ⟨parts, hparts, -⟩ := Query.parts_of_render hr
  cases dialect with
  | mongo => rfl
  | dynamo =>
    rw [Dialect.renderParts, Dynamo.renderParts,
      update_of_supports (by decide) hsupports hop] at hparts
    obtain ⟨_, acts, -, hacts, -⟩ := Dynamo.renderUpdate_gives.mp hparts
    obtain ⟨lists, hlists, -⟩ := Dynamo.actions_eq_ok_iff.mp hacts
    obtain ⟨list, -, hlist⟩ := exists_of_forall₂ hlists op hmem
    exact Dynamo.supportsUpdate_of_actions hlist
  | firestore =>
    rw [Dialect.renderParts, Firestore.renderParts,
      update_of_supports (by decide) hsupports hop] at hparts
    obtain ⟨_, data, _, _, -, hdata, -⟩ := Render.gives_two.mp hparts
    obtain ⟨list, hlist, -⟩ := Firestore.renderData_gives.mp hdata
    exact Firestore.supportsUpdate_of_assignments hlist hmem hfields
  | couch =>
    rw [Dialect.renderParts, Couch.renderParts,
      update_of_supports (by decide) hsupports hop] at hparts
    obtain ⟨_, updates, _, _, -, hupdates, -⟩ := Render.gives_two.mp hparts
    obtain ⟨es, qs, hes⟩ := Render.exists_of_each hupdates op hmem
    rw [(Couch.renderUpdate_gives.mp hes).1]
    rfl

/-- Where a dialect knows pipelines, it knows every kind of stage. -/
theorem supportsStage_of_supports (hsupports : dialect.supportsOperation .aggregate = true)
    (s : Stage) : dialect.supportsStage s.kind = true := by
  cases dialect with
  | mongo => rfl
  | _ => cases hsupports

end Query

/-! ## Built queries -/

/-- What a chain builds renders only if the dialect says that it knows the operation, what every
filter asks for, every change of a field, and every stage. Negated groups are the exception: to
firestore they are conjunctions. -/
theorem probes_sound {start : Start} {target : Collection} {calls : List Call} {q : Query}
    {dialect : Dialect} {r : Rendered}
    (hbuild : ((Builder.start start target).run calls).build = .ok q)
    (hr : q.render dialect = .ok r) :
    dialect.supportsOperation q.operation = true ∧
    (∀ f ∈ q.rendered, ∀ g ∈ f.nodes, dialect.Covers g) ∧
    (dialect = .firestore → ∀ o : Option Filter,
      o.map Filter.affirmed = q.filter.map Filter.affirmed →
        (q.withFilter o).render dialect = .ok r) ∧
    (∀ op ∈ q.updates, op.fields.keys ≠ [] → dialect.supportsUpdate op.operator = true) ∧
    ∀ s ∈ Stage.nodesIn q.pipeline, dialect.supportsStage s.kind = true := by
  have hfits : q.Fitting := fitting_of_build hbuild
  obtain ⟨-, hsupports, -⟩ := Query.render_eq_ok_iff.mp hr
  refine ⟨hsupports, Query.covers_of_render hr, ?_, ?_, ?_⟩
  · rintro rfl o ho
    exact Firestore.render_of_affirmed ho hr
  · cases hop : q.operation.isUpdate with
    | true => exact Query.supportsUpdate_of_render hr hop
    | false => simp [hfits.updates hop]
  · by_cases hop : q.operation = .aggregate
    · rw [hop] at hsupports
      exact fun s _ => Query.supportsStage_of_supports hsupports s
    · simp [hfits.pipeline hop, Stage.nodesIn]

/-- Labels a user that has another email than the given one. -/
def labelOthers : List Call :=
  [.filter (.group .not [.condition Users.email .eq Users.given]),
    .change .set Users.name Users.label]

theorem probes_sound_labelOthers :
    ∃ q r, ((Builder.start .update Users.collection).run labelOthers).build = .ok q ∧
      q.render .firestore = .ok r ∧
      (∀ f ∈ q.rendered, ∀ g ∈ f.nodes, Dialect.firestore.Covers g) ∧
      (q.withFilter (some (.group .and [.condition Users.email .eq Users.given]))).render
        .firestore = .ok r ∧
      ∀ op ∈ q.updates, op.fields.keys ≠ [] →
        Dialect.firestore.supportsUpdate op.operator = true := by
  obtain ⟨q, hq, hfilter⟩ : ∃ q,
      ((Builder.start .update Users.collection).run labelOthers).build = .ok q ∧
        q.filter = some (.group .not [.condition Users.email .eq Users.given]) := ⟨_, rfl, rfl⟩
  obtain ⟨r, hr⟩ : ∃ r, q.render .firestore = .ok r := by
    cases hq
    exact ⟨_, rfl⟩
  obtain ⟨-, hfilters, hnegated, hupdates, -⟩ := probes_sound hq hr
  refine ⟨q, r, hq, hr, hfilters, hnegated rfl _ ?_, hupdates⟩
  rw [hfilter]
  rfl

end DocumentQuery

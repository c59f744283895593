import DocumentQuery.Proofs.Parameters
/-!
# The parameters of queries for mongo

What mongo binds is what a walk through the query finds: one lemma for each
kind of part, by induction on filters, expressions and stages.

Results:
* `params_of_renderParts`: a query that renders binds its own parameters.
-/
namespace DocumentQuery.Mongo

open Render (gives_pure gives_map)

/-! ## Filters -/

mutual

theorem params_of_renderFilter : ∀ (f : Filter) {v : Json} {ps : List Param},
    (renderFilter f).Gives v ps → ps = f.params
  | .condition _ _ _, _, _, h => (renderTest_gives.mp h).2
  | .array _ _ _, _, _, h => (renderTest_gives.mp h).2
  | .group _ conditions, _, _, h => by
    obtain ⟨-, vs, hvs, -⟩ := renderGroup_gives.mp h
    exact params_of_renderFilters conditions hvs
  | .elemMatch _ conditions, _, _, h => by
    obtain ⟨vs, hvs, -⟩ := renderElemMatch_gives.mp h
    exact params_of_renderFilters conditions hvs
  | .range r, _, _, h => by
    obtain ⟨-, rfl⟩ := renderRange_gives.mp h
    exact r.map_snd_bounds
  | .regex _ _ _, _, _, h => (renderRegex_gives.mp h).2
  | .textSearch _, _, _, h => (renderTextSearch_gives.mp h).2
  | .geo _, _, _, h => (renderGeo_gives.mp h).2.2
  | .presence _ _, _, _, h => (gives_pure.mp h).2

theorem params_of_renderFilters : ∀ (fs : List Filter) {vs : List Json} {ps : List Param},
    (renderFilters fs).Gives vs ps → ps = Filter.paramsOfAll fs
  | [], _, _, h => (gives_pure.mp h).2
  | f :: fs, _, _, h => by
    obtain ⟨v, ws, qs, rs, hv, hws, -, rfl⟩ := renderFilters_cons_gives.mp h
    rw [params_of_renderFilter f hv, params_of_renderFilters fs hws, Filter.paramsOfAll]

end

/-! ## Selections and expressions -/

theorem params_of_renderProjectionField (p : ProjectionField) (e : String × Json)
    (ps : List Param) (h : (renderProjectionField p).Gives e ps) : ps = p.params := by
  obtain ⟨v, -, hv⟩ := renderProjectionField_gives.mp h
  unfold ProjectionField.params
  cases hslice : p.slice with
  | some s =>
    simp only [hslice] at hv
    exact hv.2
  | none =>
    cases helem : p.elemMatch with
    | some conditions =>
      simp only [hslice, helem] at hv
      obtain ⟨vs, hvs, -⟩ := hv
      exact params_of_renderFilters conditions hvs
    | none =>
      simp only [hslice, helem] at hv
      exact hv.2

theorem params_of_renderProjectionEntries {p : Projection} {es : Entries} {ps : List Param}
    (h : (renderProjectionEntries p).Gives es ps) : ps = p.params :=
  Render.params_of_each params_of_renderProjectionField h

theorem params_of_renderProjection (p : Projection) (v : Json) (ps : List Param)
    (h : (renderProjection p).Gives v ps) : ps = p.params := by
  obtain ⟨es, hes, -⟩ := renderProjection_gives.mp h
  exact params_of_renderProjectionEntries hes

mutual

theorem params_of_renderExpression : ∀ (e : Expression) (v : Json) (ps : List Param),
    (renderExpression e).Gives v ps → ps = e.params
  | .field _, _, _, h => (gives_pure.mp h).2
  | .literal _, _, _, h => (Render.gives_placeholder.mp h).2
  | .operator _ args, _, _, h => by
    obtain ⟨-, vs, hvs, -⟩ := renderOperator_gives.mp h
    exact params_of_renderExpressions args hvs
  | .conditional condition consequence alternative, _, _, h => by
    obtain ⟨c, t, e, qs, rs, ts, hc, ht, he, -, rfl⟩ := renderConditional_gives.mp h
    rw [params_of_renderExpression condition c qs hc,
      params_of_renderExpression consequence t rs ht,
      params_of_renderExpression alternative e ts he, Expression.params]

theorem params_of_renderExpressions : ∀ (es : List Expression) {vs : List Json} {ps : List Param},
    (renderExpressions es).Gives vs ps → ps = Expression.paramsOfAll es
  | [], _, _, h => (gives_pure.mp h).2
  | e :: es, _, _, h => by
    obtain ⟨v, ws, qs, rs, hv, hws, -, rfl⟩ := renderExpressions_cons_gives.mp h
    rw [params_of_renderExpression e v qs hv, params_of_renderExpressions es hws,
      Expression.paramsOfAll]

end

theorem params_of_renderNamed {m : Named Expression} {es : Entries} {ps : List Param}
    (h : (renderNamed m).Gives es ps) : ps = m.values.flatMap Expression.params :=
  Render.params_of_entriesBy params_of_renderExpression h

theorem params_of_renderAccumulators {m : Named Accumulator} {es : Entries} {ps : List Param}
    (h : (renderAccumulators m).Gives es ps) : ps = m.values.flatMap Accumulator.params := by
  refine Render.params_of_entriesBy (fun a v qs ha => ?_) h
  obtain ⟨input, hinput, -⟩ := renderAccumulator_gives.mp ha
  exact Render.params_of_optional params_of_renderExpression hinput

/-! ## Stages -/

mutual

theorem params_of_renderStageBody : ∀ (s : Stage) {v : Json} {ps : List Param},
    (renderStageBody s).Gives v ps → ps = s.params
  | .filter f, _, _, h => params_of_renderFilter f h
  | .project projection computed, _, _, h => by
    obtain ⟨fields, values, qs, rs, hfields, hvalues, -, rfl⟩ := renderProject_gives.mp h
    rw [params_of_renderProjectionEntries hfields, params_of_renderNamed hvalues, Stage.params]
  | .group id accumulators, _, _, h => by
    obtain ⟨key, outputs, qs, rs, hkey, houtputs, -, rfl⟩ := renderGroupStage_gives.mp h
    rw [Render.params_of_optional params_of_renderExpression hkey,
      params_of_renderAccumulators houtputs, Stage.params]
  | .sort _, _, _, h | .unwind .., _, _, h | .count _, _, _, h => (gives_pure.mp h).2
  | .limit value, v, ps, h | .skip value, v, ps, h => params_of_pagination value v ps h
  | .lookup _ _ _ _ pipeline bindings, _, _, h => by
    obtain ⟨values, stages, qs, rs, hvalues, hstages, -, rfl⟩ := renderLookup_gives.mp h
    rw [params_of_renderNamed hvalues, params_of_renderStages pipeline hstages, Stage.params]
  | .addFields fields, _, _, h => by
    obtain ⟨values, hvalues, -⟩ := renderAddFields_gives.mp h
    exact params_of_renderNamed hvalues
  | .replaceRoot newRoot, _, ps, h => by
    obtain ⟨w, hw, -⟩ := renderReplaceRoot_gives.mp h
    exact params_of_renderExpression newRoot w ps hw
  | .facet facets, _, _, h => by
    obtain ⟨entries, hentries, -⟩ := renderFacet_gives.mp h
    exact params_of_renderFacets facets hentries
  | .bucket groupBy boundaries fallback output, _, _, h => by
    obtain ⟨w, outputs, qs, rs, hw, houtputs, -, rfl⟩ := renderBucket_gives.mp h
    rw [params_of_renderExpression groupBy w qs hw, params_of_renderAccumulators houtputs,
      Stage.params]

theorem params_of_renderStages : ∀ (stages : List Stage) {vs : List Json} {ps : List Param},
    (renderStages stages).Gives vs ps → ps = Stage.paramsOfAll stages
  | [], _, _, h => (gives_pure.mp h).2
  | s :: rest, _, _, h => by
    obtain ⟨body, ws, qs, rs, hbody, hws, -, rfl⟩ := renderStages_cons_gives.mp h
    rw [params_of_renderStageBody s hbody, params_of_renderStages rest hws, Stage.paramsOfAll]

theorem params_of_renderFacets : ∀ (facets : List (String × List Stage)) {es : Entries}
    {ps : List Param}, (renderFacets facets).Gives es ps → ps = Stage.paramsOfFacets facets
  | [], _, _, h => (gives_pure.mp h).2
  | (name, stages) :: rest, _, _, h => by
    obtain ⟨vs, fs, qs, rs, hvs, hfs, -, rfl⟩ := renderFacets_cons_gives.mp h
    rw [params_of_renderStages stages hvs, params_of_renderFacets rest hfs, Stage.paramsOfFacets]

end

/-! ## Queries -/

theorem params_of_renderQueryFilter {q : Query} {v : Json} {ps : List Param}
    (h : (renderQueryFilter q).Gives v ps) : ps = q.filterParams := by
  unfold renderQueryFilter at h
  unfold Query.filterParams
  cases hf : q.filter with
  | none =>
    rw [hf] at h
    exact (gives_pure.mp h).2
  | some f =>
    rw [hf] at h
    exact params_of_renderFilter f h

theorem params_of_renderParts {q : Query} {parts : Entries} {ps : List Param}
    (hvalid : q.validate = .ok ()) (h : (renderParts q).Gives parts ps) :
    ps = q.params .mongo := by
  unfold renderParts at h
  unfold Query.params
  cases hq : q.operation with
  | find | findOne =>
    rw [hq] at h
    obtain ⟨_, _, _, _, qs, rs, ts, us, hfilter, hprojection, hskip, hlimit, -, rfl⟩ :=
      renderFind_gives.mp h
    rw [params_of_renderQueryFilter hfilter,
      Render.params_of_optional params_of_renderProjection hprojection,
      Render.params_of_optional params_of_pagination hskip,
      Render.params_of_optional params_of_pagination hlimit]
    simp only [Query.projectionParams, Query.skipParams, Query.limitParams, List.append_assoc]
  | insert =>
    rw [hq] at h
    simp only [bind_pure_comp, gives_map] at h
    obtain ⟨document, hdocument, -⟩ := h
    rw [Render.params_of_optional params_of_document hdocument]
    exact Query.documentParams_of_insert hq hvalid
  | insertMany =>
    rw [hq] at h
    simp only [bind_pure_comp, gives_map] at h
    obtain ⟨documents, hdocuments, -⟩ := h
    exact Render.params_of_each params_of_document hdocuments
  | update | updateMany =>
    rw [hq] at h
    obtain ⟨filter, update, qs, rs, hfilter, hupdate, -, rfl⟩ := Render.gives_two.mp h
    rw [params_of_renderQueryFilter hfilter, (renderUpdates_gives.mp hupdate).2]
    rfl
  | delete | deleteMany | count =>
    rw [hq] at h
    simp only [bind_pure_comp, gives_map] at h
    obtain ⟨filter, hfilter, -⟩ := h
    exact params_of_renderQueryFilter hfilter
  | aggregate =>
    rw [hq] at h
    simp only [renderPipeline, bind_pure_comp, gives_map] at h
    obtain ⟨_, ⟨stages, hstages, -⟩, -⟩ := h
    exact params_of_renderStages q.pipeline hstages
  | distinct =>
    rw [hq] at h
    simp only [bind_pure_comp, gives_map] at h
    obtain ⟨filter, hfilter, -⟩ := h
    exact Render.params_of_optional (fun f v qs => params_of_renderFilter f) hfilter

end DocumentQuery.Mongo

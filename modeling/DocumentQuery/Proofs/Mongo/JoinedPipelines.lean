import DocumentQuery.Proofs.Mongo.Parameters
import DocumentQuery.Proofs.Walks
/-!
# Pipelines, joined

A pipeline renders stage by stage: the array of two pipelines joined is their arrays
joined, and so are the parameters. Which parameters a stage binds, and in which order,
depends on nothing but the stage.

Results:
* `renderStages_eq_each`: the objects of a pipeline are those of its stages.
* `pipelines_join`: what a joined pipeline gives, and what its stages bind.
-/
namespace DocumentQuery.Mongo

open Render (gives_map)

/-! ## Stage by stage -/

theorem renderStages_eq_each (stages : List Stage) :
    renderStages stages = Render.each renderStage stages := by
  induction stages with
  | nil => rw [renderStages, Render.each]
  | cons s rest ih =>
    rw [renderStages, Render.each, ih, renderStage, bind_assoc]
    simp only [pure_bind]

theorem renderStage_gives {s : Stage} {v : Json} {ps : List Param} :
    (renderStage s).Gives v ps ↔
      ∃ body, (renderStageBody s).Gives body ps ∧ v = .obj [(s.kind.token, body)] := by
  rw [renderStage, bind_pure_comp, gives_map]
  rfl

theorem renderPipeline_gives {stages : List Stage} {v : Json} {ps : List Param} :
    (renderPipeline stages).Gives v ps ↔
      ∃ vs, (Render.each renderStage stages).Gives vs ps ∧ v = .arr vs := by
  rw [renderPipeline, bind_pure_comp, gives_map, renderStages_eq_each]

theorem renderPipeline_arr_gives {stages : List Stage} {vs : List Json} {ps : List Param} :
    (renderPipeline stages).Gives (.arr vs) ps ↔
      (Render.each renderStage stages).Gives vs ps := by
  simp [renderPipeline_gives]

theorem params_of_renderStage (s : Stage) (v : Json) (ps : List Param)
    (h : (renderStage s).Gives v ps) : ps = s.params := by
  obtain ⟨body, hbody, -⟩ := renderStage_gives.mp h
  exact params_of_renderStageBody s hbody

/-- The facets of a stage bind their parameters in the order of their names. -/
theorem params_of_renderFacetStage {facets : List (String × List Stage)} {v : Json}
    {ps : List Param} (h : (renderStage (.ofFacets facets)).Gives v ps) :
    ps = (OrderedMap.ofList facets).values.flatMap fun stages => stages.flatMap Stage.params := by
  rw [params_of_renderStage _ v ps h, Stage.ofFacets, Stage.params, Stage.paramsOfFacets_eq,
    OrderedMap.values]

/-- Each object of a pipeline has the token of its stage as its only key. -/
theorem keys_of_renderPipeline {stages : List Stage} {vs : List Json} {ps : List Param}
    (h : (renderPipeline stages).Gives (.arr vs) ps) :
    List.Forall₂ (fun s v => ∃ body, v = .obj [(s.kind.token, body)]) stages vs := by
  refine (Render.forall₂_of_each (renderPipeline_arr_gives.mp h)).imp fun s v hv => ?_
  obtain ⟨qs, hqs⟩ := hv
  obtain ⟨body, -, hbody⟩ := renderStage_gives.mp hqs
  exact ⟨body, hbody⟩

theorem renderPipeline_append_gives {first second : List Stage} {v : Json} {ps : List Param} :
    (renderPipeline (first ++ second)).Gives v ps ↔
      ∃ vs ws qs rs, (renderPipeline first).Gives (.arr vs) qs ∧
        (renderPipeline second).Gives (.arr ws) rs ∧ v = .arr (vs ++ ws) ∧ ps = qs ++ rs := by
  simp only [renderPipeline_arr_gives]
  rw [renderPipeline_gives]
  simp only [Render.gives_each_append]
  constructor
  · intro h
    obtain ⟨_, ⟨vs, ws, qs, rs, hvs, hws, rfl, rfl⟩, rfl⟩ := h
    exact ⟨vs, ws, qs, rs, hvs, hws, rfl, rfl⟩
  · intro h
    obtain ⟨vs, ws, qs, rs, hvs, hws, rfl, rfl⟩ := h
    exact ⟨vs ++ ws, ⟨vs, ws, qs, rs, hvs, hws, rfl, rfl⟩, rfl⟩

/-- Two pipelines joined give their arrays joined, one object for each stage, and bind the
parameters of the first and then those of the second. Every stage binds its own parameters in
the order of `Stage.params`: facets by name, filters node by node before what is below a node,
expressions literal by literal from left to right. -/
theorem pipelines_join (first second : List Stage) :
    (∀ v ps, (renderPipeline (first ++ second)).Gives v ps ↔
      ∃ vs ws qs rs, (renderPipeline first).Gives (.arr vs) qs ∧
        (renderPipeline second).Gives (.arr ws) rs ∧ v = .arr (vs ++ ws) ∧ ps = qs ++ rs) ∧
    (∀ vs ps, (renderPipeline first).Gives (.arr vs) ps →
      List.Forall₂ (fun s v => ∃ body, v = .obj [(s.kind.token, body)]) first vs ∧
        ps = first.flatMap Stage.params) ∧
    (∀ s v ps, (renderStage s).Gives v ps → ps = s.params) ∧
    (∀ facets v ps, (renderStage (.ofFacets facets)).Gives v ps →
      ps = (OrderedMap.ofList facets).values.flatMap fun stages => stages.flatMap Stage.params) ∧
    (∀ f v ps, (renderFilter f).Gives v ps → ps = f.nodes.flatMap Filter.ownParams) ∧
    ∀ e v ps, (renderExpression e).Gives v ps → ps = e.nodes.filterMap Expression.literal? := by
  refine ⟨fun v ps => renderPipeline_append_gives, fun vs ps h => ⟨keys_of_renderPipeline h, ?_⟩,
    params_of_renderStage, fun facets v ps h => params_of_renderFacetStage h, fun f v ps h => ?_,
    fun e v ps h => ?_⟩
  · exact Render.params_of_each params_of_renderStage (renderPipeline_arr_gives.mp h)
  · rw [params_of_renderFilter f h, f.params_eq_nodes]
  · rw [params_of_renderExpression e v ps h, e.params_eq_nodes]

/-- The grown users by status, with the sum of one of two values. -/
def grownByStatus : List Stage :=
  [.filter (.condition Users.age .gte Users.least),
    .group (some (.field Users.status)) (.ofList [("total", ⟨.sum,
      some (.conditional (.literal Users.given) (.field Users.points) (.literal Users.label))⟩)])]

/-- The first few documents. -/
def firstFew : List Stage :=
  [.sort [⟨Users.status, .ascending⟩], .limit (.bound Users.greatest)]

theorem pipelines_join_grownByStatus :
    ∃ vs ws, (renderPipeline (grownByStatus ++ firstFew)).Gives (.arr (vs ++ ws))
      [Users.least, Users.given, Users.label, Users.greatest] := by
  obtain ⟨hjoin, -⟩ := pipelines_join grownByStatus firstFew
  exact ⟨_, _, (hjoin _ _).mpr ⟨_, _, _, _, rfl, rfl, rfl, rfl⟩⟩

end DocumentQuery.Mongo

import DocumentQuery.Proofs.EmptyArrays
import DocumentQuery.Proofs.FilterPlaces
import DocumentQuery.Proofs.Walks
/-!
# Empty arrays in mongo objects

An empty array at the token of a logic operator is the mark of a group without
conditions. Two other parts of a pipeline leave the same mark, although they are no
groups: an operator of an expression, which may have any name and needs no
arguments, and a facet of that name without stages.

Main definitions:
* `Stage.expressions`: the expressions of a stage.
* `Stage.Clear`: a stage that leaves no such mark.

Results:
* `lacks_filter`, `lacks_stages`: filters without empty groups and clear stages
  render without the mark.
* `lacks_parts`: the same of all parts of a query.
-/
namespace DocumentQuery

open Json (Lacks EntryLacks)

/-! ## Parts of pipelines -/

namespace Stage

/-- The expressions that a stage itself computes. -/
def expressions : Stage → List Expression
  | .project _ computed => computed.values
  | .group id accumulators => id.toList ++ accumulators.values.filterMap Accumulator.expression
  | .lookup _ _ _ _ _ bindings => bindings.values
  | .addFields fields => fields.values
  | .replaceRoot newRoot => [newRoot]
  | .bucket groupBy _ _ output =>
    groupBy :: output.values.filterMap Accumulator.expression
  | _ => []

/-- The facets of a stage, with their stages. -/
def facets : Stage → List (String × List Stage)
  | .facet facets => facets
  | _ => []

/-- The filters of a stage itself, those inside its projection included. -/
def filters (s : Stage) : List Filter :=
  s.filter?.toList ++ s.projection?.toList.flatMap Projection.conditions

/-- An operator without arguments or a facet without stages goes by the token. -/
def Borrows (logic : LogicOperator) (s : Stage) : Prop :=
  (∃ e ∈ s.expressions, .operator logic.token [] ∈ e.nodes) ∨ (logic.token, []) ∈ s.facets

/-- Nothing in the stage itself, apart from the stages inside it, renders to an empty array at the
token. -/
structure Clear (logic : LogicOperator) (s : Stage) : Prop where
  filters : ∀ f ∈ s.filters, .group logic [] ∉ f.nodes
  expressions : ∀ e ∈ s.expressions, .operator logic.token [] ∉ e.nodes
  facets : (logic.token, []) ∉ s.facets

end Stage

theorem LogicOperator.ne_token {s : String}
    (h : s ∉ (Vocabulary.all : List LogicOperator).map token) (logic : LogicOperator) :
    s ≠ logic.token := by
  rintro rfl
  exact h (List.mem_map_of_mem (Vocabulary.mem_all logic))

namespace Mongo

open Entries (get?)
open Render (gives_pure)

/-! ## Merged objects -/

section Merging

variable {key : String}

theorem joinOperators?_lacks {w v u : Json} (hw : Lacks key w) (hv : Lacks key v)
    (h : joinOperators? w v = some u) : u ≠ .arr [] ∧ Lacks key u := by
  unfold joinOperators? at h
  split at h
  · split at h
    · injection h with h
      subst h
      rw [Json.lacks_obj] at hw hv ⊢
      exact ⟨by simp, List.forall_mem_append.mpr ⟨hw, hv⟩⟩
    · cases h
  · cases h

theorem mergeAt?_lacks {k : String} {v : Json} {es fs : Entries} (hes : ∀ e ∈ es, EntryLacks key e)
    (hv : EntryLacks key (k, v)) (h : mergeAt? es k v = some fs) : ∀ e ∈ fs, EntryLacks key e := by
  unfold mergeAt? at h
  cases hget : get? k es with
  | none =>
    rw [hget] at h
    cases h
    exact List.forall_mem_append.mpr ⟨hes, List.forall_mem_singleton.mpr hv⟩
  | some w =>
    rw [hget] at h
    obtain ⟨u, hu, rfl⟩ := Option.map_eq_some_iff.mp h
    obtain ⟨front, back, rfl, hinsert⟩ := Entries.split_of_get? hget
    simp only [hinsert, List.forall_mem_append, List.forall_mem_cons] at hes ⊢
    obtain ⟨hfront, hw, hback⟩ := hes
    obtain ⟨hne, hlacks⟩ := joinOperators?_lacks hw.2 hv.2 hu
    exact ⟨hfront, Json.entryLacks_of_ne_arr hne hlacks, hback⟩

theorem mergeInto?_lacks : ∀ {fs es gs : Entries}, (∀ e ∈ es, EntryLacks key e) →
    (∀ e ∈ fs, EntryLacks key e) → mergeInto? es fs = some gs → ∀ e ∈ gs, EntryLacks key e
  | [], _, _, hes, _, h => by
    cases h
    exact hes
  | (k, v) :: fs, _, _, hes, hfs, h => by
    obtain ⟨mid, hmid, hrest⟩ := Option.bind_eq_some_iff.mp h
    obtain ⟨hv, hfs⟩ := List.forall_mem_cons.mp hfs
    exact mergeInto?_lacks (mergeAt?_lacks hes hv hmid) hfs hrest

theorem mergeObjects?_lacks : ∀ {vs : List Json} {es gs : Entries}, (∀ e ∈ es, EntryLacks key e) →
    (∀ v ∈ vs, Lacks key v) → mergeObjects? es vs = some gs → ∀ e ∈ gs, EntryLacks key e
  | [], _, _, hes, _, h => by
    cases h
    exact hes
  | .obj fs :: rest, _, _, hes, hvs, h => by
    obtain ⟨mid, hmid, hrest⟩ := Option.bind_eq_some_iff.mp h
    obtain ⟨hfs, hvs⟩ := List.forall_mem_cons.mp hvs
    exact mergeObjects?_lacks (mergeInto?_lacks hes (Json.lacks_obj.mp hfs) hmid) hvs hrest
  | .null :: _, _, _, _, _, h | .bool _ :: _, _, _, _, _, h | .int _ :: _, _, _, _, _, h
  | .str _ :: _, _, _, _, _, h | .arr _ :: _, _, _, _, _, h => by
    cases h

/-- The object of merged objects has no empty array that they have not. Only objects that are there
can stay apart in a conjunction. -/
theorem mergeAll_lacks {vs : List Json} (hvs : ∀ v ∈ vs, Lacks key v) :
    ∃ es, mergeAll vs = .obj es ∧ ∀ e ∈ es, EntryLacks key e := by
  unfold mergeAll
  cases h : mergeObjects? [] vs with
  | none =>
    have hne : vs ≠ [] := by
      rintro rfl
      cases h
    refine ⟨_, rfl, List.forall_mem_singleton.mpr ?_⟩
    exact Json.entryLacks_arr (fun _ => hne) hvs
  | some es => exact ⟨es, rfl, mergeObjects?_lacks (by simp) hvs h⟩

end Merging

variable {logic : LogicOperator} {v : Json} {ps : List Param}

/-! ## Filters -/

theorem lacks_tests (path : String) (ts : List (FilterOperator × Param)) :
    Lacks logic.token (.single path (.obj (tests ts))) := by
  rw [Json.lacks_single, Json.entryLacks_obj]
  exact List.forall_mem_map.mpr fun _ _ => Json.entryLacks_str _ _

theorem renderFilters_ne_nil {fs : List Filter} {vs : List Json} (hfs : fs ≠ [])
    (h : (renderFilters fs).Gives vs ps) : vs ≠ [] := by
  cases fs with
  | nil => exact absurd rfl hfs
  | cons f fs =>
    obtain ⟨_, _, _, _, _, _, rfl, -⟩ := renderFilters_cons_gives.mp h
    exact List.cons_ne_nil _ _

mutual

/-- Without an empty group of the operator, no empty array stands at its token. -/
theorem lacks_filter : ∀ (f : Filter) {v : Json} {ps : List Param},
    (∀ g ∈ f.nodes, g ≠ .group logic []) → (renderFilter f).Gives v ps → Lacks logic.token v
  | .condition field op value, _, _, _, h | .array field op value, _, _, _, h => by
    obtain ⟨rfl, -⟩ := renderTest_gives.mp h
    exact lacks_tests _ _
  | .group logic' conditions, _, _, hnodes, h => by
    obtain ⟨-, vs, hvs, rfl⟩ := renderGroup_gives.mp h
    obtain ⟨hself, hnodes⟩ := Filter.forall_nodes_group.mp hnodes
    refine Json.lacks_single.mpr (Json.entryLacks_arr (fun htoken => ?_)
      (lacks_filters conditions hnodes hvs))
    obtain rfl := Vocabulary.token_injective (α := LogicOperator) htoken
    exact renderFilters_ne_nil (fun hnil => hself (by rw [hnil])) hvs
  | .range r, _, _, _, h => by
    obtain ⟨rfl, -⟩ := renderRange_gives.mp h
    exact lacks_tests _ _
  | .regex field pattern options, _, _, _, h => by
    obtain ⟨rfl, -⟩ := renderRegex_gives.mp h
    cases options <;> simp [Json.lacks_single, patternOperators, Entries.optional]
  | .textSearch t, _, _, _, h => by
    obtain ⟨rfl, -⟩ := renderTextSearch_gives.mp h
    cases hlanguage : t.language <;> cases hcase : t.caseSensitive <;>
      cases hmarks : t.diacriticSensitive <;>
        simp [Json.lacks_single, searchOperators, Entries.optional, Entries.when, hlanguage, hcase,
          hmarks]
  | .geo g, _, _, _, h => by
    obtain ⟨-, rfl, -⟩ := renderGeo_gives.mp h
    have hpoint : EntryLacks logic.token ("coordinates",
        .arr [.str g.lon.placeholder, .str g.lat.placeholder]) :=
      Json.entryLacks_arr (fun _ => by simp) (by simp)
    cases hgreatest : (g.radius <|> g.maxDistance) <;> cases hleast : g.minDistance <;>
      simp [Json.single, location, Entries.optional, hpoint, hleast]
  | .elemMatch field conditions, _, _, hnodes, h => by
    obtain ⟨vs, hvs, rfl⟩ := renderElemMatch_gives.mp h
    obtain ⟨-, hnodes⟩ := Filter.forall_nodes_elemMatch.mp hnodes
    obtain ⟨es, hmerged, hes⟩ := mergeAll_lacks (lacks_filters conditions hnodes hvs)
    rw [hmerged, Json.lacks_single]
    simpa [Json.single] using hes
  | .presence field present, _, _, _, h => by
    obtain ⟨rfl, -⟩ := gives_pure.mp h
    simp [presence, Json.single]

theorem lacks_filters : ∀ (fs : List Filter) {vs : List Json} {ps : List Param},
    (∀ g ∈ Filter.nodesOfAll fs, g ≠ .group logic []) → (renderFilters fs).Gives vs ps →
      ∀ v ∈ vs, Lacks logic.token v
  | [], _, _, _, h => by
    obtain ⟨rfl, -⟩ := gives_pure.mp h
    simp
  | f :: fs, _, _, hnodes, h => by
    obtain ⟨v, ws, qs, rs, hv, hws, rfl, -⟩ := renderFilters_cons_gives.mp h
    obtain ⟨hf, hfs⟩ := Filter.forall_nodesOfAll_cons.mp hnodes
    exact List.forall_mem_cons.mpr ⟨lacks_filter f hf hv, lacks_filters fs hfs hws⟩

end

/-! ## Selections -/

theorem lacks_projectionField {p : ProjectionField}
    (hp : ∀ f ∈ p.elemMatch.getD [], .group logic [] ∉ f.nodes) {e : String × Json}
    (h : (renderProjectionField p).Gives e ps) : EntryLacks logic.token e := by
  obtain ⟨v, rfl, hfield⟩ := renderProjectionField_gives.mp h
  obtain ⟨field, included, slice, elemMatch⟩ := p
  cases slice with
  | some s =>
    obtain ⟨rfl, -⟩ := hfield
    cases hskip : s.skip <;> simp [Json.single, sliceOperand, hskip, Json.entryLacks_arr]
  | none =>
    cases elemMatch with
    | none =>
      obtain ⟨rfl, -⟩ := hfield
      exact Json.entryLacks_nat _ _
    | some conditions =>
      obtain ⟨vs, hvs, rfl⟩ := hfield
      have hnodes : ∀ g ∈ Filter.nodesOfAll conditions, g ≠ .group logic [] :=
        Filter.forall_nodesOfAll_iff.mpr fun f hf g hg heq => hp f hf (heq ▸ hg)
      obtain ⟨es, hmerged, hes⟩ := mergeAll_lacks (lacks_filters conditions hnodes hvs)
      simpa [hmerged, Json.single] using hes

theorem lacks_projectionEntries {p : Projection}
    (hp : ∀ f ∈ p.conditions, .group logic [] ∉ f.nodes) {es : Entries}
    (h : (renderProjectionEntries p).Gives es ps) : ∀ e ∈ es, EntryLacks logic.token e := by
  refine Render.forall_of_each (fun field hfield e qs he => ?_) h
  exact lacks_projectionField (fun f hf => hp f (List.mem_flatMap.mpr ⟨field, hfield, hf⟩)) he

theorem lacks_sort (sorts : List SortClause) : Lacks logic.token (sortObject sorts) :=
  .ofEntries (List.forall_mem_map.mpr fun _ _ => Json.entryLacks_int _ _)

theorem entryLacks_pagination {k : String} {n : Pagination} (h : (Render.pagination n).Gives v ps) :
    EntryLacks logic.token (k, v) := by
  cases n with
  | fixed n =>
    obtain ⟨rfl, -⟩ := gives_pure.mp h
    exact Json.entryLacks_nat k n
  | bound p =>
    obtain ⟨rfl, -⟩ := Render.gives_placeholder.mp h
    exact Json.entryLacks_str k _

/-! ## Expressions -/

theorem renderExpression_ne_arr {e : Expression} (h : (renderExpression e).Gives v ps)
    (vs : List Json) : v ≠ .arr vs := by
  cases e with
  | field field =>
    obtain ⟨rfl, -⟩ := gives_pure.mp h
    simp [pathReference]
  | literal value =>
    obtain ⟨rfl, -⟩ := Render.gives_placeholder.mp h
    simp
  | operator operator args =>
    obtain ⟨-, _, -, rfl⟩ := renderOperator_gives.mp h
    simp [Json.single]
  | conditional condition consequence alternative =>
    obtain ⟨_, _, _, _, _, _, -, -, -, rfl, -⟩ := renderConditional_gives.mp h
    simp [Json.single]

theorem renderExpressions_ne_nil {es : List Expression} {vs : List Json} (hes : es ≠ [])
    (h : (renderExpressions es).Gives vs ps) : vs ≠ [] := by
  cases es with
  | nil => exact absurd rfl hes
  | cons e es =>
    obtain ⟨_, _, _, _, _, _, rfl, -⟩ := renderExpressions_cons_gives.mp h
    exact List.cons_ne_nil _ _

mutual

/-- Without an operator that goes by the token and has no arguments, no empty array stands there. -/
theorem lacks_expression : ∀ (e : Expression) {v : Json} {ps : List Param},
    (∀ x ∈ e.nodes, x ≠ .operator logic.token []) → (renderExpression e).Gives v ps →
      Lacks logic.token v
  | .field field, _, _, _, h => by
    obtain ⟨rfl, -⟩ := gives_pure.mp h
    simp [pathReference]
  | .literal value, _, _, _, h => by
    obtain ⟨rfl, -⟩ := Render.gives_placeholder.mp h
    simp
  | .operator operator args, _, _, hnodes, h => by
    obtain ⟨-, vs, hvs, rfl⟩ := renderOperator_gives.mp h
    rw [Expression.nodes, List.forall_mem_cons] at hnodes
    obtain ⟨hself, hnodes⟩ := hnodes
    refine Json.lacks_single.mpr (Json.entryLacks_arr (fun hoperator => ?_)
      (lacks_expressions args hnodes hvs))
    exact renderExpressions_ne_nil (fun hnil => hself (by rw [hoperator, hnil])) hvs
  | .conditional condition consequence alternative, _, _, hnodes, h => by
    obtain ⟨c, t, e, _, _, _, hc, ht, he, rfl, -⟩ := renderConditional_gives.mp h
    simp only [Expression.nodes, List.forall_mem_cons, List.forall_mem_append] at hnodes
    obtain ⟨-, hcondition, hconsequence, halternative⟩ := hnodes
    simp only [Json.single, Json.lacks_obj, List.forall_mem_singleton, Json.entryLacks_obj,
      List.forall_mem_cons]
    exact
      ⟨Json.entryLacks_of_ne_arr (renderExpression_ne_arr hc []) (lacks_expression _ hcondition hc),
        Json.entryLacks_of_ne_arr (renderExpression_ne_arr ht [])
          (lacks_expression _ hconsequence ht),
        Json.entryLacks_of_ne_arr (renderExpression_ne_arr he [])
          (lacks_expression _ halternative he)⟩

theorem lacks_expressions : ∀ (es : List Expression) {vs : List Json} {ps : List Param},
    (∀ x ∈ Expression.nodesOfAll es, x ≠ .operator logic.token []) →
      (renderExpressions es).Gives vs ps → ∀ v ∈ vs, Lacks logic.token v
  | [], _, _, _, h => by
    obtain ⟨rfl, -⟩ := gives_pure.mp h
    simp
  | e :: es, _, _, hnodes, h => by
    obtain ⟨v, ws, qs, rs, hv, hws, rfl, -⟩ := renderExpressions_cons_gives.mp h
    rw [Expression.nodesOfAll, List.forall_mem_append] at hnodes
    exact List.forall_mem_cons.mpr
      ⟨lacks_expression e hnodes.1 hv, lacks_expressions es hnodes.2 hws⟩

end

theorem entryLacks_expression {k : String} {e : Expression}
    (hnodes : .operator logic.token [] ∉ e.nodes) (h : (renderExpression e).Gives v ps) :
    EntryLacks logic.token (k, v) :=
  Json.entryLacks_of_ne_arr (renderExpression_ne_arr h [])
    (lacks_expression e (fun _ hx heq => hnodes (heq ▸ hx)) h)

theorem lacks_named {m : Named Expression}
    (hm : ∀ e ∈ m.values, .operator logic.token [] ∉ e.nodes) {es : Entries}
    (h : (renderNamed m).Gives es ps) : ∀ e ∈ es, EntryLacks logic.token e := by
  refine Render.forall_of_each (fun p hp e qs he => ?_) h
  obtain ⟨v, hv, rfl⟩ := Render.gives_entry.mp he
  exact entryLacks_expression (hm p.2 (List.mem_map_of_mem hp)) hv

theorem lacks_accumulators {m : Named Accumulator}
    (hm : ∀ e ∈ m.values.filterMap Accumulator.expression, .operator logic.token [] ∉ e.nodes)
    {es : Entries} (h : (renderAccumulators m).Gives es ps) :
    ∀ e ∈ es, EntryLacks logic.token e := by
  refine Render.forall_of_each (fun p hp e qs he => ?_) h
  obtain ⟨v, hv, rfl⟩ := Render.gives_entry.mp he
  obtain ⟨input, hinput, rfl⟩ := renderAccumulator_gives.mp hv
  rw [Json.single, Json.entryLacks_obj, List.forall_mem_singleton]
  rcases Render.gives_optional.mp hinput with ⟨-, rfl, -⟩ | ⟨x, w, hx, rfl, hw⟩
  · simp
  · exact entryLacks_expression
      (hm x (List.mem_filterMap.mpr ⟨p.2, List.mem_map_of_mem hp, hx⟩)) hw

/-! ## Stages -/

theorem lacks_lookup {source : Collection} {localField foreignField : Field} {output : String}
    {pipeline : List Stage} {bindings : Named Expression} {values : Entries} {stages : List Json}
    (hvalues : ∀ e ∈ values, EntryLacks logic.token e)
    (hstages : ∀ v ∈ stages, Lacks logic.token v) :
    Lacks logic.token (.obj (lookupEntries source localField foreignField output
      (if bindings.isEmpty then none else some (.ofEntries values))
      (if pipeline.isEmpty then none else some (.arr stages)))) := by
  simp only [lookupEntries, Json.lacks_obj, List.forall_mem_append, List.forall_mem_cons,
    Json.entryLacks_str, true_and, and_true, List.not_mem_nil, false_implies, implies_true]
  refine ⟨Json.lacks_optional fun v hv => ?_, Json.lacks_optional fun v hv => ?_⟩
  · split at hv
    · cases hv
    · cases hv
      exact Json.entryLacks_of_ne_arr (by simp [Json.ofEntries]) (.ofEntries hvalues)
  · split at hv
    · cases hv
    · cases hv
      exact Json.entryLacks_of_ne_key (LogicOperator.ne_token (by decide) logic)
        (Json.lacks_arr.mpr hstages)

theorem lacks_bucket {groupBy : Expression} {boundaries : List Param} {fallback : Option Param}
    {output : Named Accumulator}
    (hgroupBy : .operator logic.token [] ∉ groupBy.nodes)
    (houtput : ∀ e ∈ output.values.filterMap Accumulator.expression,
      .operator logic.token [] ∉ e.nodes)
    (h : (renderStageBody (.bucket groupBy boundaries fallback output)).Gives v ps) :
    Lacks logic.token v := by
  obtain ⟨w, outputs, _, _, hw, houtputs, rfl, -⟩ := renderBucket_gives.mp h
  simp only [Json.lacks_obj, List.forall_mem_append, List.forall_mem_cons, List.not_mem_nil,
    false_implies, implies_true, and_true]
  refine ⟨⟨⟨entryLacks_expression hgroupBy hw, ?_⟩, Json.lacks_optional fun v hv => ?_⟩,
    Json.lacks_when fun _ => ?_⟩
  · exact Json.entryLacks_of_ne_key (LogicOperator.ne_token (by decide) logic) (by simp)
  · obtain ⟨p, -, rfl⟩ := Option.map_eq_some_iff.mp hv
    exact Json.entryLacks_str _ _
  · exact Json.entryLacks_of_ne_arr (by simp [Json.ofEntries])
      (.ofEntries (lacks_accumulators houtput houtputs))

theorem lacks_group {id : Option Expression} {accumulators : Named Accumulator}
    (hclear : (Stage.group id accumulators).Clear logic)
    (h : (renderStageBody (.group id accumulators)).Gives v ps) : Lacks logic.token v := by
  obtain ⟨key, outputs, _, _, hkey, houtputs, rfl, -⟩ := renderGroupStage_gives.mp h
  obtain ⟨hid, hexpressions⟩ := List.forall_mem_append.mp hclear.expressions
  refine .ofEntries (List.forall_mem_cons.mpr ⟨?_, lacks_accumulators hexpressions houtputs⟩)
  rcases Render.gives_optional.mp hkey with ⟨-, rfl, -⟩ | ⟨x, w, rfl, rfl, hw⟩
  · exact Json.entryLacks_of_ne_arr (by simp [Json.ofOption]) (by simp [Json.ofOption])
  · exact entryLacks_expression (hid x (by simp)) hw

theorem lacks_unwind {path : Field} {includeArrayIndex : Option String} {preserve : Bool}
    (h : (renderStageBody (.unwind path includeArrayIndex preserve)).Gives v ps) :
    Lacks logic.token v := by
  rw [renderStageBody] at h
  obtain ⟨rfl, -⟩ := gives_pure.mp h
  cases includeArrayIndex <;> cases preserve <;>
    simp [pathReference, Entries.optional, Entries.when]

theorem renderStages_ne_nil {stages : List Stage} {vs : List Json} (hstages : stages ≠ [])
    (h : (renderStages stages).Gives vs ps) : vs ≠ [] := by
  cases stages with
  | nil => exact absurd rfl hstages
  | cons s rest =>
    obtain ⟨_, _, _, _, _, _, rfl, -⟩ := renderStages_cons_gives.mp h
    exact List.cons_ne_nil _ _

theorem kind_ne_token (kind : StageKind) : kind.token ≠ logic.token :=
  LogicOperator.ne_token (by cases kind <;> decide) logic

mutual

/-- A stage that is clear, like all stages inside it, has no empty array at the token. -/
theorem lacks_stageBody : ∀ (s : Stage) {v : Json} {ps : List Param},
    (∀ t ∈ s.nodes, t.Clear logic) → (renderStageBody s).Gives v ps → Lacks logic.token v
  | .filter f, _, _, hnodes, h => by
    have hclear := hnodes _ (Stage.mem_nodes_self _)
    exact lacks_filter f (fun g hg heq => hclear.filters f (by simp [Stage.filters, Stage.filter?])
      (heq ▸ hg)) h
  | .project projection computed, _, _, hnodes, h => by
    obtain ⟨fields, values, _, _, hfields, hvalues, rfl, -⟩ := renderProject_gives.mp h
    have hclear := hnodes _ (Stage.mem_nodes_self _)
    have hconditions : ∀ f ∈ projection.conditions, .group logic [] ∉ f.nodes := by
      simpa [Stage.filters, Stage.filter?, Stage.projection?] using hclear.filters
    exact .ofEntries (List.forall_mem_append.mpr
      ⟨lacks_projectionEntries hconditions hfields, lacks_named hclear.expressions hvalues⟩)
  | .group id accumulators, _, _, hnodes, h =>
    lacks_group (hnodes _ (Stage.mem_nodes_self _)) h
  | .sort sorts, _, _, _, h => by
    obtain ⟨rfl, -⟩ := gives_pure.mp h
    exact lacks_sort sorts
  | .limit value, _, _, _, h | .skip value, _, _, _, h =>
    (entryLacks_pagination (k := "") h).2
  | .unwind path includeArrayIndex preserve, _, _, _, h => lacks_unwind h
  | .lookup source localField foreignField output pipeline bindings, _, _, hnodes, h => by
    obtain ⟨values, stages, _, _, hvalues, hstages, rfl, -⟩ := renderLookup_gives.mp h
    have hclear := hnodes _ (Stage.mem_nodes_self _)
    rw [Stage.nodes, List.forall_mem_cons] at hnodes
    exact lacks_lookup (lacks_named hclear.expressions hvalues)
      (lacks_stages pipeline hnodes.2 hstages)
  | .addFields fields, _, _, hnodes, h => by
    obtain ⟨values, hvalues, rfl⟩ := renderAddFields_gives.mp h
    exact .ofEntries (lacks_named (hnodes _ (Stage.mem_nodes_self _)).expressions hvalues)
  | .replaceRoot newRoot, _, _, hnodes, h => by
    obtain ⟨w, hw, rfl⟩ := renderReplaceRoot_gives.mp h
    have hclear := hnodes _ (Stage.mem_nodes_self _)
    exact Json.lacks_single.mpr
      (entryLacks_expression (hclear.expressions newRoot (by simp [Stage.expressions])) hw)
  | .count name, _, _, _, h => by
    obtain ⟨rfl, -⟩ := gives_pure.mp h
    simp
  | .facet facets, _, _, hnodes, h => by
    obtain ⟨entries, hentries, rfl⟩ := renderFacet_gives.mp h
    have hclear := hnodes _ (Stage.mem_nodes_self _)
    rw [Stage.nodes, List.forall_mem_cons] at hnodes
    exact .ofEntries (lacks_facets facets hclear.facets hnodes.2 hentries)
  | .bucket groupBy boundaries fallback output, _, _, hnodes, h => by
    have hclear := hnodes _ (Stage.mem_nodes_self _)
    obtain ⟨hgroupBy, houtput⟩ := List.forall_mem_cons.mp hclear.expressions
    exact lacks_bucket hgroupBy houtput h

theorem lacks_stages : ∀ (stages : List Stage) {vs : List Json} {ps : List Param},
    (∀ t ∈ Stage.nodesIn stages, t.Clear logic) → (renderStages stages).Gives vs ps →
      ∀ v ∈ vs, Lacks logic.token v
  | [], _, _, _, h => by
    obtain ⟨rfl, -⟩ := gives_pure.mp h
    simp
  | s :: rest, _, _, hnodes, h => by
    obtain ⟨body, ws, _, _, hbody, hws, rfl, -⟩ := renderStages_cons_gives.mp h
    rw [Stage.nodesIn, List.forall_mem_append] at hnodes
    refine List.forall_mem_cons.mpr ⟨Json.lacks_single.mpr ?_, lacks_stages rest hnodes.2 hws⟩
    exact Json.entryLacks_of_ne_key (kind_ne_token s.kind) (lacks_stageBody s hnodes.1 hbody)

theorem lacks_facets : ∀ (facets : List (String × List Stage)) {es : Entries} {ps : List Param},
    (logic.token, []) ∉ facets → (∀ t ∈ Stage.nodesInFacets facets, t.Clear logic) →
      (renderFacets facets).Gives es ps → ∀ e ∈ es, EntryLacks logic.token e
  | [], _, _, _, _, h => by
    obtain ⟨rfl, -⟩ := gives_pure.mp h
    simp
  | (name, stages) :: rest, _, _, hfacets, hnodes, h => by
    obtain ⟨vs, fs, _, _, hvs, hfs, rfl, -⟩ := renderFacets_cons_gives.mp h
    rw [Stage.nodesInFacets, List.forall_mem_append] at hnodes
    rw [List.mem_cons, not_or] at hfacets
    obtain ⟨hself, hfacets⟩ := hfacets
    refine List.forall_mem_cons.mpr ⟨Json.entryLacks_arr (fun hname => ?_)
      (lacks_stages stages hnodes.1 hvs), lacks_facets rest hfacets hnodes.2 hfs⟩
    exact renderStages_ne_nil (fun hnil => hself (by rw [hname, hnil])) hvs

end

end Mongo

end DocumentQuery

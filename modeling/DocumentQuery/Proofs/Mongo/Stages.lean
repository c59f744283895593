import DocumentQuery.Dialect.Mongo.Query
import DocumentQuery.Proofs.Mongo.Objects
/-!
# Objects of selections and stages

What the parts of a pipeline become, and with which parameters: one lemma for
each renderer, so that no proof about pipelines looks inside one.

Main definitions:
* `sliceOperand`: the operand that takes a part of an array.
-/
namespace DocumentQuery.Mongo

open Render (gives_bind gives_map gives_optional_placeholder)

/-! ## Selections -/

/-- The operand that takes a part of an array. -/
def sliceOperand (s : Slice) : Json :=
  match s.skip with
  | some skip => .arr [.str skip.placeholder, .str s.count.placeholder]
  | none => .str s.count.placeholder

/-- The count is bound before the skip and written after it. -/
theorem renderSlice_gives {s : Slice} {v : Json} {ps : List Param} :
    (renderSlice s).Gives v ps ↔
      v = .single "$slice" (sliceOperand s) ∧ ps = s.count :: s.skip.toList := by
  obtain ⟨count, skip⟩ := s
  cases skip with
  | none => simp [renderSlice, sliceOperand, and_comm]
  | some k => simp [renderSlice, sliceOperand]

theorem renderMerged_gives {conditions : List Filter} {v : Json} {ps : List Param} :
    (renderMerged conditions).Gives v ps ↔
      ∃ vs, (renderFilters conditions).Gives vs ps ∧ v = mergeAll vs := by
  rw [renderMerged, bind_pure_comp, gives_map]

/-- How a field of a projection is returned. -/
theorem renderProjectionField_gives {p : ProjectionField} {e : String × Json} {ps : List Param} :
    (renderProjectionField p).Gives e ps ↔ ∃ v, e = (p.field.path, v) ∧
      match p.slice, p.elemMatch with
      | some s, _ => v = .single "$slice" (sliceOperand s) ∧ ps = s.count :: s.skip.toList
      | none, some conditions =>
        ∃ vs, (renderFilters conditions).Gives vs ps ∧ v = .single "$elemMatch" (mergeAll vs)
      | none, none => v = .nat (if p.included then 1 else 0) ∧ ps = [] := by
  obtain ⟨field, included, slice, elemMatch⟩ := p
  cases slice with
  | some s => simp [renderProjectionField, renderSlice_gives, and_comm]
  | none =>
    cases elemMatch with
    | none => simp [renderProjectionField, and_comm]
    | some conditions => simp [renderProjectionField, renderMerged_gives, and_comm]

theorem renderProjection_gives {p : Projection} {v : Json} {ps : List Param} :
    (renderProjection p).Gives v ps ↔
      ∃ es, (renderProjectionEntries p).Gives es ps ∧ v = .ofEntries es := by
  rw [renderProjection, bind_pure_comp, gives_map]

/-! ## Expressions -/

theorem operatorFault?_eq_none_iff {name : String} :
    operatorFault? name = none ↔ ∃ id, name = "$" ++ id ∧ Identifier.Valid id := by
  unfold operatorFault?
  constructor
  · intro h
    split at h
    · cases h
    · rename_i id hname
      refine ⟨String.ofList id, ?_, h⟩
      rw [← String.toList_inj, hname]
      simp
    · cases h
  · intro h
    obtain ⟨id, rfl, hid⟩ := h
    have hname : ("$" ++ id).toList = '$' :: id.toList := by simp
    simp only [hname, String.ofList_toList]
    exact hid

theorem checkOperator_eq_ok_iff {name : String} :
    checkOperator name = .ok () ↔ ∃ id, name = "$" ++ id ∧ Identifier.Valid id := by
  rw [← operatorFault?_eq_none_iff, checkOperator]
  cases operatorFault? name <;> simp

theorem renderOperator_gives {operator : String} {args : List Expression} {v : Json}
    {ps : List Param} :
    (renderExpression (.operator operator args)).Gives v ps ↔
      checkOperator operator = .ok () ∧
      ∃ vs, (renderExpressions args).Gives vs ps ∧ v = .single operator (.arr vs) := by
  rw [renderExpression, gives_bind]
  simp only [Render.gives_ofExcept, bind_pure_comp, gives_map]
  constructor
  · intro h
    obtain ⟨_, _, rs, ⟨hoperator, rfl⟩, hargs, rfl⟩ := h
    exact ⟨hoperator, hargs⟩
  · intro h
    obtain ⟨hoperator, hargs⟩ := h
    exact ⟨(), [], ps, ⟨hoperator, rfl⟩, hargs, rfl⟩

theorem renderConditional_gives {condition consequence alternative : Expression} {v : Json}
    {ps : List Param} :
    (renderExpression (.conditional condition consequence alternative)).Gives v ps ↔
      ∃ c t e qs rs ts, (renderExpression condition).Gives c qs ∧
        (renderExpression consequence).Gives t rs ∧ (renderExpression alternative).Gives e ts ∧
        v = .single "$cond" (.obj [("if", c), ("then", t), ("else", e)]) ∧
        ps = qs ++ (rs ++ ts) := by
  rw [renderExpression]
  exact Render.gives_three

theorem renderExpressions_cons_gives {e : Expression} {es : List Expression} {vs : List Json}
    {ps : List Param} :
    (renderExpressions (e :: es)).Gives vs ps ↔
      ∃ v ws qs rs, (renderExpression e).Gives v qs ∧ (renderExpressions es).Gives ws rs ∧
        vs = v :: ws ∧ ps = qs ++ rs := by
  rw [renderExpressions]
  exact Render.gives_two

theorem renderAccumulator_gives {a : Accumulator} {v : Json} {ps : List Param} :
    (renderAccumulator a).Gives v ps ↔
      ∃ input, (Render.optional renderExpression a.expression).Gives input ps ∧
        v = .single a.operator.token (input.getD (.obj [])) := by
  rw [renderAccumulator, bind_pure_comp, gives_map]

/-! ## Stages -/

section Stages

variable {v : Json} {ps : List Param}

theorem renderProject_gives {projection : Projection} {computed : Named Expression} :
    (renderStageBody (.project projection computed)).Gives v ps ↔
      ∃ fields values qs rs, (renderProjectionEntries projection).Gives fields qs ∧
        (renderNamed computed).Gives values rs ∧ v = .ofEntries (fields ++ values) ∧
        ps = qs ++ rs :=
  Render.gives_two

theorem renderGroupStage_gives {id : Option Expression} {accumulators : Named Accumulator} :
    (renderStageBody (.group id accumulators)).Gives v ps ↔
      ∃ key outputs qs rs, (Render.optional renderExpression id).Gives key qs ∧
        (renderAccumulators accumulators).Gives outputs rs ∧
        v = .ofEntries ((groupKey, Json.ofOption key) :: outputs) ∧ ps = qs ++ rs :=
  Render.gives_two

theorem renderLookup_gives {source : Collection} {localField foreignField : Field}
    {output : String} {pipeline : List Stage} {bindings : Named Expression} :
    (renderStageBody (.lookup source localField foreignField output pipeline bindings)).Gives v ps ↔
      ∃ values stages qs rs, (renderNamed bindings).Gives values qs ∧
        (renderStages pipeline).Gives stages rs ∧
        v = .obj (lookupEntries source localField foreignField output
          (if bindings.isEmpty then none else some (.ofEntries values))
          (if pipeline.isEmpty then none else some (.arr stages))) ∧ ps = qs ++ rs :=
  Render.gives_two

theorem renderAddFields_gives {fields : Named Expression} :
    (renderStageBody (.addFields fields)).Gives v ps ↔
      ∃ values, (renderNamed fields).Gives values ps ∧ v = .ofEntries values :=
  gives_map

theorem renderReplaceRoot_gives {newRoot : Expression} :
    (renderStageBody (.replaceRoot newRoot)).Gives v ps ↔
      ∃ w, (renderExpression newRoot).Gives w ps ∧ v = .single "newRoot" w :=
  gives_map

theorem renderFacet_gives {facets : List (String × List Stage)} :
    (renderStageBody (.facet facets)).Gives v ps ↔
      ∃ entries, (renderFacets facets).Gives entries ps ∧ v = .ofEntries entries :=
  gives_map

theorem renderBucket_gives {groupBy : Expression} {boundaries : List Param}
    {fallback : Option Param} {output : Named Accumulator} :
    (renderStageBody (.bucket groupBy boundaries fallback output)).Gives v ps ↔
      ∃ w outputs qs rs, (renderExpression groupBy).Gives w qs ∧
        (renderAccumulators output).Gives outputs rs ∧
        v = .obj ([("groupBy", w),
            ("boundaries", .arr (boundaries.map fun p => .str p.placeholder))]
          ++ Entries.optional "default" (fallback.map fun p => .str p.placeholder)
          ++ Entries.when (!output.isEmpty) "output" (.ofEntries outputs)) ∧
        ps = qs ++ (boundaries ++ (fallback.toList ++ rs)) := by
  rw [renderStageBody, renderBucket, Render.gives_four]
  simp only [Render.gives_each_placeholder, gives_optional_placeholder]
  constructor
  · intro h
    obtain ⟨w, _, _, outputs, qs, _, _, rs, hw, ⟨rfl, rfl⟩, ⟨rfl, rfl⟩, houtputs, rfl, rfl⟩ := h
    exact ⟨w, outputs, qs, rs, hw, houtputs, rfl, rfl⟩
  · intro h
    obtain ⟨w, outputs, qs, rs, hw, houtputs, rfl, rfl⟩ := h
    exact ⟨w, _, _, outputs, qs, _, _, rs, hw, ⟨rfl, rfl⟩, ⟨rfl, rfl⟩, houtputs, rfl, rfl⟩

theorem renderStages_cons_gives {s : Stage} {rest : List Stage} {vs : List Json} :
    (renderStages (s :: rest)).Gives vs ps ↔
      ∃ body ws qs rs, (renderStageBody s).Gives body qs ∧ (renderStages rest).Gives ws rs ∧
        vs = .single s.kind.token body :: ws ∧ ps = qs ++ rs := by
  rw [renderStages]
  exact Render.gives_two

theorem renderFacets_cons_gives {name : String} {stages : List Stage}
    {rest : List (String × List Stage)} {es : Entries} :
    (renderFacets ((name, stages) :: rest)).Gives es ps ↔
      ∃ vs fs qs rs, (renderStages stages).Gives vs qs ∧ (renderFacets rest).Gives fs rs ∧
        es = (name, .arr vs) :: fs ∧ ps = qs ++ rs := by
  rw [renderFacets]
  exact Render.gives_two

end Stages

end DocumentQuery.Mongo

import DocumentQuery.Proofs.Built
import DocumentQuery.Proofs.Mongo.Renaming
/-!
# Renamed pipelines and queries for mongo

The body of a stage also holds names as values: that of a count, of an index and
of the output of a join. They were checked when the pipeline was built, so none
of them is taken for a placeholder.

Results:
* `renames_stageBody`, `renames_stages`, `renames_facets`: a pipeline.
* `renames_entries`: all entries of a query.
-/
namespace DocumentQuery.Mongo

open Render (Renames)

variable (ρ : Param → Param)

/-! ## Stages -/

theorem renames_project (projection : Projection) (computed : Named Expression) :
    Renames ρ (Json.rename ρ) (renderStageBody (.project projection computed))
      (renderStageBody ((Stage.project projection computed).rename ρ)) := by
  rw [Stage.rename, renderStageBody, renderStageBody]
  refine (renames_projectionEntries ρ projection).bind fun fields =>
    (renames_named ρ computed).bind fun values => .pure ?_
  rw [Json.rename_ofEntries, Json.renameEntries_append]

theorem renames_group (id : Option Expression) (accumulators : Named Accumulator) :
    Renames ρ (Json.rename ρ) (renderStageBody (.group id accumulators))
      (renderStageBody ((Stage.group id accumulators).rename ρ)) := by
  rw [Stage.rename, renderStageBody, renderStageBody]
  refine (Renames.optional (renames_expression ρ) id).bind fun key =>
    (renames_accumulators ρ accumulators).bind fun outputs => .pure ?_
  rw [Json.rename_ofEntries]
  cases key <;> rfl

theorem renames_unwind {path : Field} {includeArrayIndex : Option String} {preserve : Bool}
    (hname : ∀ name ∈ includeArrayIndex.toList, Identifier.Valid name) :
    Renames ρ (Json.rename ρ) (renderStageBody (.unwind path includeArrayIndex preserve))
      (renderStageBody ((Stage.unwind path includeArrayIndex preserve).rename ρ)) := by
  rw [Stage.rename, renderStageBody]
  refine .pure ?_
  have hindex : (includeArrayIndex.map Json.str).map (Json.rename ρ) =
      includeArrayIndex.map Json.str := by
    cases includeArrayIndex with
    | none => rfl
    | some name => exact congrArg some (Json.rename_identifier ρ (hname name (by simp)))
  simp [Json.rename, Json.renameEntries, pathReference_rename, hindex]

theorem lookupEntries_rename {source : Collection} {localField foreignField : Field}
    {output : String} (houtput : Identifier.Valid output) (bindings pipeline : Option Json) :
    Json.renameEntries ρ
        (lookupEntries source localField foreignField output bindings pipeline) =
      lookupEntries source localField foreignField output (bindings.map (Json.rename ρ))
        (pipeline.map (Json.rename ρ)) := by
  simp [lookupEntries, Json.renameEntries, Json.rename_identifier ρ source.valid,
    Json.rename_identifier ρ houtput, Json.rename_path]

theorem renames_bucket (groupBy : Expression) (boundaries : List Param) (fallback : Option Param)
    (output : Named Accumulator) :
    Renames ρ (Json.rename ρ) (renderBucket groupBy boundaries fallback output)
      (renderBucket (groupBy.rename ρ) (boundaries.map ρ) (fallback.map ρ)
        (output.mapValues (Accumulator.rename ρ))) := by
  refine (renames_expression ρ groupBy).bind fun w =>
    (Renames.items Renames.placeholder boundaries).bind fun bounds =>
    (Renames.optional Renames.placeholder fallback).bind fun other =>
    (renames_accumulators ρ output).bind fun outputs => .pure ?_
  simp [Json.rename, Json.renameEntries]

mutual

/-- A stage with checked names. -/
theorem renames_stageBody : ∀ s : Stage, s.invalidName? = none →
    Renames ρ (Json.rename ρ) (renderStageBody s) (renderStageBody (s.rename ρ))
  | .filter f, _ => renames_filter ρ f
  | .project projection computed, _ => renames_project ρ projection computed
  | .group id accumulators, _ => renames_group ρ id accumulators
  | .sort sorts, _ => .pure (sortObject_rename ρ sorts).symm
  | .limit value, _ | .skip value, _ => .pagination value
  | .unwind path includeArrayIndex preserve, hn =>
    renames_unwind ρ (Stage.valid_of_mem_ownNames hn)
  | .lookup source localField foreignField output pipeline bindings, hn => by
    have houtput : Identifier.Valid output :=
      Stage.valid_of_mem_ownNames hn output List.mem_cons_self
    obtain ⟨-, hinner⟩ : _ ∧ Stage.invalidNameIn? pipeline = none := by
      simpa [Stage.invalidName?] using hn
    rw [Stage.rename, renderStageBody, renderStageBody]
    refine (renames_named ρ bindings).bind fun values =>
      (renames_stages pipeline hinner).bind fun stages => .pure ?_
    rw [Json.rename, lookupEntries_rename ρ houtput, OrderedMap.isEmpty_mapValues,
      Stage.isEmpty_renameAll]
    cases bindings.isEmpty <;> cases pipeline.isEmpty <;> simp [Json.rename]
  | .addFields fields, _ => by
    rw [Stage.rename, renderStageBody, renderStageBody]
    exact (renames_named ρ fields).bind fun values => .pure (Json.rename_ofEntries ρ values).symm
  | .replaceRoot newRoot, _ => by
    rw [Stage.rename, renderStageBody, renderStageBody]
    exact (renames_expression ρ newRoot).bind fun _ => .pure rfl
  | .count name, hn =>
    .pure (Json.rename_identifier ρ (Stage.valid_of_mem_ownNames hn name List.mem_cons_self)).symm
  | .facet facets, hn => by
    obtain ⟨-, hinner⟩ : _ ∧ Stage.invalidNameInFacets? facets = none := by
      simpa [Stage.invalidName?] using hn
    rw [Stage.rename, renderStageBody, renderStageBody]
    exact (renames_facets facets hinner).bind fun entries =>
      .pure (Json.rename_ofEntries ρ entries).symm
  | .bucket groupBy boundaries fallback output, _ => by
    rw [Stage.rename, renderStageBody, renderStageBody]
    exact renames_bucket ρ groupBy boundaries fallback output

theorem renames_stages : ∀ stages : List Stage, Stage.invalidNameIn? stages = none →
    Renames ρ (Json.renameItems ρ) (renderStages stages)
      (renderStages (Stage.renameAll ρ stages))
  | [], _ => .pure rfl
  | s :: rest, hn => by
    obtain ⟨hs, hrest⟩ := Stage.invalidNameIn?_cons_eq_none_iff.mp hn
    rw [Stage.renameAll, renderStages, renderStages, Stage.kind_rename]
    exact (renames_stageBody s hs).bind fun _ => (renames_stages rest hrest).bind fun _ =>
      .pure rfl

theorem renames_facets : ∀ facets : List (String × List Stage),
    Stage.invalidNameInFacets? facets = none →
    Renames ρ (Json.renameEntries ρ) (renderFacets facets)
      (renderFacets (Stage.renameFacets ρ facets))
  | [], _ => .pure rfl
  | (name, stages) :: rest, hn => by
    obtain ⟨hstages, hrest⟩ := Stage.invalidNameInFacets?_cons_eq_none_iff.mp hn
    rw [Stage.renameFacets, renderFacets, renderFacets]
    exact (renames_stages stages hstages).bind fun _ => (renames_facets rest hrest).bind fun _ =>
      .pure rfl

end

theorem renames_pipeline {stages : List Stage} (hn : Stage.invalidNameIn? stages = none) :
    Renames ρ (Json.rename ρ) (renderPipeline stages)
      (renderPipeline (Stage.renameAll ρ stages)) :=
  (renames_stages ρ stages hn).bind fun _ => .pure rfl

/-! ## Queries -/

variable (q : Query)

theorem renames_queryFilter :
    Renames ρ (Json.rename ρ) (renderQueryFilter q) (renderQueryFilter (q.rename ρ)) := by
  unfold renderQueryFilter Query.rename
  cases q.filter with
  | none => exact .pure rfl
  | some f => exact renames_filter ρ f

theorem renames_change (o : Option Param) :
    Renames ρ (Json.rename ρ) (renderChange o) (renderChange (o.map ρ)) := by
  cases o with
  | some p => exact .placeholder p
  | none => exact .pure (Json.rename_str ρ (by decide)).symm

theorem renames_update (op : UpdateOperation) :
    Renames ρ (fun e => (e.1, e.2.rename ρ)) (renderUpdate op) (renderUpdate (op.rename ρ)) :=
  (Renames.entriesBy Field.path (renames_change ρ) op.fields).bind fun es =>
    .pure (congrArg (op.operator.token, ·) (Json.rename_ofEntries ρ es).symm)

theorem renames_updates (ops : List UpdateOperation) :
    Renames ρ (Json.rename ρ) (renderUpdates ops)
      (renderUpdates (ops.map (UpdateOperation.rename ρ))) :=
  (Renames.entries (renames_update ρ) ops).bind fun es => .pure (Json.rename_ofEntries ρ es).symm

theorem renames_find :
    Renames ρ (Json.renameEntries ρ) (renderFind q) (renderFind (q.rename ρ)) := by
  refine (renames_queryFilter ρ q).bind fun _ =>
    (Renames.optional (renames_projection ρ) q.projection).bind fun _ =>
    (Renames.optional Renames.pagination q.skip).bind fun _ =>
    (Renames.optional Renames.pagination q.limit).bind fun _ => .pure ?_
  simp [Json.renameEntries, sortObject_rename, Query.rename]

theorem renames_parts {q : Query} (hq : Stage.invalidNameIn? q.pipeline = none) :
    Renames ρ (Json.renameEntries ρ) (renderParts q) (renderParts (q.rename ρ)) := by
  have hoperation : (q.rename ρ).operation = q.operation := rfl
  unfold renderParts
  rw [hoperation]
  cases q.operation with
  | find | findOne => exact renames_find ρ q
  | insert =>
    refine (Renames.firstDocument q.documents).bind fun _ => .pure ?_
    rw [Json.renameEntries_optional]
  | insertMany =>
    exact (Renames.items Renames.document q.documents).bind fun _ => .pure rfl
  | update | updateMany =>
    refine (renames_queryFilter ρ q).bind fun _ => (renames_updates ρ q.updates).bind fun _ =>
      .pure ?_
    simp [Json.renameEntries, Query.rename, Json.rename]
  | delete | deleteMany | count =>
    exact (renames_queryFilter ρ q).bind fun _ => .pure rfl
  | aggregate => exact (renames_pipeline ρ hq).bind fun _ => .pure rfl
  | distinct =>
    refine (Renames.optional (renames_filter ρ) q.filter).bind fun _ => .pure ?_
    simp [Query.rename, Function.comp_def, Json.rename_path]

/-- The object of a query whose stages have checked names. -/
theorem renames_entries {q : Query} (hq : Stage.invalidNameIn? q.pipeline = none) :
    Renames ρ (Json.renameEntries ρ) (renderEntries q) (renderEntries (q.rename ρ)) := by
  refine (renames_parts ρ hq).bind fun parts => .pure ?_
  simp [Json.renameEntries, Json.rename_identifier ρ q.target.valid, Json.rename_operation,
    Query.rename]

end DocumentQuery.Mongo

import Mathlib.Data.List.Nodup
import DocumentQuery.Proofs.Built
import DocumentQuery.Proofs.Mongo.Stages
import DocumentQuery.Proofs.Mongo.Writing
import DocumentQuery.Proofs.WrittenParts
/-!
# What mongo writes in selections, pipelines and queries

The names that a pipeline introduces were checked when it was built, the
operators of its expressions are checked when they are rendered. Where entries
are inserted into one object, the object is whole if the part is tidy.

Results:
* `writes_projection`, `writes_expression`, `writes_stageBody`, …: what each
  part writes.
* `writes_parts`: what a query writes below its header.
-/
namespace DocumentQuery.Mongo

open Entries (keys)
open Render (gives_pure gives_map)

variable {whole : Prop} {v : Json} {es : Entries} {ps : List Param}

/-! ## Selections -/

theorem writes_sort (sorts : List SortClause) : Writes .mongo whole (sortObject sorts) [] := by
  refine .ofEntries_of_nil ?_
  have hnone : sorts.flatMap (fun _ => ([] : List Param)) = [] := by simp
  rw [← hnone]
  exact .obj_map fun s _ => ⟨.path s.field.path_valid, .plain rfl rfl⟩

theorem writes_slice (s : Slice) :
    Writes .mongo whole (sliceOperand s) (s.count :: s.skip.toList) := by
  unfold sliceOperand
  cases s.skip with
  | none => exact .placeholder s.count
  | some skip =>
    -- the length is bound first and written last
    have hpair : Writes .mongo whole (.arr [.str skip.placeholder, .str s.count.placeholder])
        [skip, s.count] := .arr_cons (.placeholder skip) (.arr_cons (.placeholder s.count) .arr_nil)
    exact hpair.perm (.swap ..)

theorem writes_projectionField (p : ProjectionField) (e : String × Json) (qs : List Param)
    (h : (renderProjectionField p).Gives e qs) :
    Dialect.mongo.Safe e.1 ∧ Writes .mongo whole e.2 qs := by
  obtain ⟨v, rfl, hv⟩ := renderProjectionField_gives.mp h
  refine ⟨.path p.field.path_valid, ?_⟩
  cases hslice : p.slice with
  | some s =>
    simp only [hslice] at hv
    obtain ⟨rfl, rfl⟩ := hv
    exact .single (.frame (by decide)) (writes_slice s)
  | none =>
    cases helem : p.elemMatch with
    | some conditions =>
      simp only [hslice, helem] at hv
      obtain ⟨vs, hvs, rfl⟩ := hv
      exact .single (safe_test .elemMatch) (writes_mergeAll (writes_filters conditions hvs))
    | none =>
      simp only [hslice, helem] at hv
      obtain ⟨rfl, rfl⟩ := hv
      exact .plain rfl rfl

theorem writes_projectionEntries {p : Projection} (h : (renderProjectionEntries p).Gives es ps) :
    Writes .mongo whole (.obj es) ps :=
  .obj_of_each (fun f _ => writes_projectionField f) h

theorem keys_of_projectionEntries {p : Projection} (h : (renderProjectionEntries p).Gives es ps) :
    keys es = p.fields.map fun f => f.field.path := by
  refine Writes.keys_of_each (fun f e qs he => ?_) h
  obtain ⟨v, rfl, -⟩ := renderProjectionField_gives.mp he
  rfl

theorem writes_projection {p : Projection} (hp : whole → p.Tidy)
    (h : (renderProjection p).Gives v ps) : Writes .mongo whole v ps := by
  obtain ⟨es, hes, rfl⟩ := renderProjection_gives.mp h
  refine (writes_projectionEntries hes).ofEntries fun hwhole => ?_
  rw [keys_of_projectionEntries hes]
  exact hp hwhole

/-! ## Expressions -/

theorem writes_reference (field : Field) : Writes .mongo whole (pathReference field) [] :=
  .text (.reference (.inl field.path_valid)) (isMarked_append (by decide) field.path)

/-- An operator that passes its check is a dollar sign and an identifier. -/
theorem safe_operator {operator : String} (h : checkOperator operator = .ok ()) :
    Dialect.mongo.Safe operator := by
  obtain ⟨id, rfl, hid⟩ := checkOperator_eq_ok_iff.mp h
  exact .reference (.inr hid)

mutual

theorem writes_expression : ∀ (e : Expression) (v : Json) (ps : List Param),
    (renderExpression e).Gives v ps → Writes .mongo whole v ps
  | .field field, _, _, h => by
    obtain ⟨rfl, rfl⟩ := gives_pure.mp h
    exact writes_reference field
  | .literal value, _, _, h => by
    obtain ⟨rfl, rfl⟩ := Render.gives_placeholder.mp h
    exact .placeholder value
  | .operator operator args, _, _, h => by
    obtain ⟨hoperator, vs, hvs, rfl⟩ := renderOperator_gives.mp h
    exact .single (safe_operator hoperator) (writes_expressions args hvs)
  | .conditional condition consequence alternative, _, _, h => by
    obtain ⟨c, t, e, qs, rs, ts, hc, ht, he, rfl, rfl⟩ := renderConditional_gives.mp h
    exact .single (.frame (by decide)) <|
      .obj_cons (.frame (by decide)) (writes_expression condition c qs hc) <|
      .obj_cons (.frame (by decide)) (writes_expression consequence t rs ht) <|
      .single (.frame (by decide)) (writes_expression alternative e ts he)

theorem writes_expressions : ∀ (es : List Expression) {vs : List Json} {ps : List Param},
    (renderExpressions es).Gives vs ps → Writes .mongo whole (.arr vs) ps
  | [], _, _, h => by
    obtain ⟨rfl, rfl⟩ := gives_pure.mp h
    exact .arr_nil
  | e :: es, _, _, h => by
    obtain ⟨v, ws, qs, rs, hv, hws, rfl, rfl⟩ := renderExpressions_cons_gives.mp h
    exact (writes_expression e v qs hv).arr_cons (writes_expressions es hws)

end

section Named

variable {α : Type} {m : Named α}

/-- Values by name, inserted into one object, stay apart. -/
theorem nodup_keys_of_entriesBy {f : α → Render Json}
    (h : (Render.entriesBy (fun name => name) f m).Gives es ps) : (keys es).Nodup := by
  rw [Writes.keys_of_entriesBy h, List.map_id']
  exact m.nodup_keys

end Named

theorem writes_named {m : Named Expression} (hm : ∀ name ∈ m.keys, Identifier.Valid name)
    (h : (renderNamed m).Gives es ps) : Writes .mongo whole (.obj es) ps :=
  .obj_of_entriesBy (fun name hname => .identifier (hm name hname)) writes_expression h

theorem writes_accumulators {m : Named Accumulator} (hm : ∀ name ∈ m.keys, Identifier.Valid name)
    (h : (renderAccumulators m).Gives es ps) : Writes .mongo whole (.obj es) ps := by
  refine .obj_of_entriesBy (fun name hname => .identifier (hm name hname)) (fun a v qs ha => ?_) h
  obtain ⟨input, hinput, rfl⟩ := renderAccumulator_gives.mp ha
  refine .single (safe_accumulator a.operator) ?_
  rcases Render.gives_optional.mp hinput with ⟨-, rfl, rfl⟩ | ⟨e, w, -, rfl, hw⟩
  · exact .obj_nil
  · exact writes_expression e w qs hw

/-! ## Stages -/

theorem writes_project {projection : Projection} {computed : Named Expression}
    (hcomputed : ∀ name ∈ computed.keys, Identifier.Valid name)
    (htidy : whole → (Stage.project projection computed).Tidy)
    (h : (renderStageBody (.project projection computed)).Gives v ps) :
    Writes .mongo whole v ps := by
  obtain ⟨fields, values, qs, rs, hfields, hvalues, rfl, rfl⟩ := renderProject_gives.mp h
  refine ((writes_projectionEntries hfields).obj_append
    (writes_named hcomputed hvalues)).ofEntries fun hwhole => ?_
  obtain ⟨hprojection, hapart⟩ := htidy hwhole
  have hvaluesKeys : keys values = computed.keys := by
    rw [Writes.keys_of_entriesBy hvalues, List.map_id']
  rw [Entries.keys_append, keys_of_projectionEntries hfields, hvaluesKeys, List.nodup_append]
  refine ⟨hprojection, computed.nodup_keys, ?_⟩
  intro path hpath name hname heq
  obtain ⟨f, hf, rfl⟩ := List.mem_map.mp hpath
  exact hapart f hf (heq ▸ hname)

theorem writes_group {id : Option Expression} {accumulators : Named Accumulator}
    (hnames : ∀ name ∈ accumulators.keys, Identifier.Valid name)
    (htidy : whole → (Stage.group id accumulators).Tidy)
    (h : (renderStageBody (.group id accumulators)).Gives v ps) : Writes .mongo whole v ps := by
  obtain ⟨key, outputs, qs, rs, hkey, houtputs, rfl, rfl⟩ := renderGroupStage_gives.mp h
  have hid : Writes .mongo whole (Json.ofOption key) qs := by
    rcases Render.gives_optional.mp hkey with ⟨-, rfl, rfl⟩ | ⟨e, w, -, rfl, hw⟩
    · exact .plain rfl rfl
    · exact writes_expression e w qs hw
  refine (Writes.obj_cons (.frame (by decide)) hid
    (writes_accumulators hnames houtputs)).ofEntries fun hwhole => ?_
  have houtputsKeys : keys outputs = accumulators.keys := by
    rw [Writes.keys_of_entriesBy houtputs, List.map_id']
  rw [keys, List.map_cons, List.nodup_cons]
  refine ⟨?_, nodup_keys_of_entriesBy houtputs⟩
  rw [show outputs.map Prod.fst = accumulators.keys from houtputsKeys]
  exact htidy hwhole

theorem writes_unwind {path : Field} {includeArrayIndex : Option String} {preserve : Bool}
    (hname : ∀ name ∈ includeArrayIndex.toList, Identifier.Valid name)
    (h : (renderStageBody (.unwind path includeArrayIndex preserve)).Gives v ps) :
    Writes .mongo whole v ps := by
  obtain ⟨rfl, rfl⟩ := gives_pure.mp h
  have hindex : Writes .mongo whole
      (.obj (Entries.optional "includeArrayIndex" (includeArrayIndex.map .str))) [] := by
    cases includeArrayIndex with
    | none => exact .obj_nil
    | some name => exact .single (.frame (by decide)) (.identifier (hname name (by simp)))
  exact (Writes.obj_cons (.frame (by decide)) (writes_reference path) hindex).obj_append_plain
    (.obj_when (.frame (by decide)) (fun _ => .plain rfl rfl) fun _ => rfl)

theorem writes_lookup {source : Collection} {localField foreignField : Field} {output : String}
    {bindings pipeline : Option Json} {qs rs : List Param} (houtput : Identifier.Valid output)
    (hbindings : Writes .mongo whole (.obj (Entries.optional "let" bindings)) qs)
    (hpipeline : Writes .mongo whole (.obj (Entries.optional "pipeline" pipeline)) rs) :
    Writes .mongo whole
      (.obj (lookupEntries source localField foreignField output bindings pipeline))
      (qs ++ rs) := by
  have hhead : Writes .mongo whole (.obj [("from", .str source.name),
      ("localField", .str localField.path), ("foreignField", .str foreignField.path)]) [] :=
    .obj_cons (.frame (by decide)) (.identifier source.valid) <|
    .obj_cons (.frame (by decide)) (.path localField.path_valid) <|
    .single (.frame (by decide)) (.path foreignField.path_valid)
  exact ((hhead.obj_append hbindings).obj_append hpipeline).obj_append_plain
    (.single (.frame (by decide)) (.identifier houtput))

theorem writes_bucket {groupBy : Expression} {boundaries : List Param} {fallback : Option Param}
    {output : Named Accumulator} (hnames : ∀ name ∈ output.keys, Identifier.Valid name)
    (h : (renderStageBody (.bucket groupBy boundaries fallback output)).Gives v ps) :
    Writes .mongo whole v ps := by
  obtain ⟨w, outputs, qs, rs, hw, houtputs, rfl, rfl⟩ := renderBucket_gives.mp h
  have hboundaries : Writes .mongo whole (.arr (boundaries.map fun p => .str p.placeholder))
      boundaries := by
    have hall : Writes .mongo whole (.arr (boundaries.map fun p => .str p.placeholder))
        (boundaries.flatMap fun p => [p]) := .arr_map fun p _ => .placeholder p
    rwa [List.flatMap_singleton'] at hall
  have houtput : Writes .mongo whole
      (.obj (Entries.when (!output.isEmpty) "output" (.ofEntries outputs))) rs := by
    refine .obj_when (.frame (by decide)) (fun _ => ?_) fun hempty => ?_
    · exact (writes_accumulators hnames houtputs).ofEntries
        fun _ => nodup_keys_of_entriesBy houtputs
    · exact Writes.params_of_isEmpty (by simpa using hempty) houtputs
  have hps : qs ++ (boundaries ++ (fallback.toList ++ rs)) =
      qs ++ boundaries ++ fallback.toList ++ rs := by
    simp only [List.append_assoc]
  rw [hps]
  exact ((Writes.obj_cons (.frame (by decide)) (writes_expression groupBy w qs hw)
    (.single (.frame (by decide)) hboundaries)).obj_append
      (.obj_optional_placeholder (.frame (by decide)) fallback)).obj_append houtput

theorem keys_of_facets {facets : List (String × List Stage)} : ∀ {es : Entries} {ps : List Param},
    (renderFacets facets).Gives es ps → keys es = facets.map Prod.fst := by
  induction facets with
  | nil =>
    intro es ps h
    obtain ⟨rfl, -⟩ := gives_pure.mp h
    rfl
  | cons f rest ih =>
    intro es ps h
    obtain ⟨name, stages⟩ := f
    obtain ⟨vs, fs, qs, rs, -, hfs, rfl, -⟩ := renderFacets_cons_gives.mp h
    exact congrArg (name :: ·) (ih hfs)

mutual

/-- A stage with checked names. It is whole if it is tidy and its facets have distinct names. -/
theorem writes_stageBody : ∀ (s : Stage), s.invalidName? = none → (whole → s.Tidy) →
    (whole → s.DistinctFacets) → ∀ {v : Json} {ps : List Param}, (renderStageBody s).Gives v ps →
      Writes .mongo whole v ps
  | .filter f, _, _, _, _, _, h => writes_filter f h
  | .project projection computed, hn, ht, _, _, _, h =>
    writes_project (Stage.valid_of_mem_ownNames hn) ht h
  | .group id accumulators, hn, ht, _, _, _, h =>
    writes_group (Stage.valid_of_mem_ownNames hn) ht h
  | .sort sorts, _, _, _, _, _, h => by
    obtain ⟨rfl, rfl⟩ := gives_pure.mp h
    exact writes_sort sorts
  | .limit value, _, _, _, v, ps, h | .skip value, _, _, _, v, ps, h =>
    .pagination value v ps h
  | .unwind path includeArrayIndex preserve, hn, _, _, _, _, h =>
    writes_unwind (Stage.valid_of_mem_ownNames hn) h
  | .lookup source localField foreignField output pipeline bindings, hn, ht, hd, _, _, h => by
    obtain ⟨values, stages, qs, rs, hvalues, hstages, rfl, rfl⟩ := renderLookup_gives.mp h
    have hnames := Stage.valid_of_mem_ownNames hn
    obtain ⟨-, hinner⟩ : _ ∧ Stage.invalidNameIn? pipeline = none := by
      simpa [Stage.invalidName?] using hn
    obtain ⟨houtput, hbindings⟩ := List.forall_mem_cons.mp hnames
    refine writes_lookup houtput ?_ ?_
    · refine .obj_optional_unless (.frame (by decide)) (fun _ => ?_)
        fun hempty => Writes.params_of_isEmpty hempty hvalues
      exact (writes_named hbindings hvalues).ofEntries fun _ => nodup_keys_of_entriesBy hvalues
    · refine .obj_optional_unless (.frame (by decide))
        (fun _ => writes_stages pipeline hinner ht hd hstages) fun hempty => ?_
      rw [List.isEmpty_iff.mp hempty] at hstages
      exact (gives_pure.mp hstages).2
  | .addFields fields, hn, _, _, _, _, h => by
    obtain ⟨values, hvalues, rfl⟩ := renderAddFields_gives.mp h
    exact (writes_named (Stage.valid_of_mem_ownNames hn) hvalues).ofEntries
      fun _ => nodup_keys_of_entriesBy hvalues
  | .replaceRoot newRoot, _, _, _, _, ps, h => by
    obtain ⟨w, hw, rfl⟩ := renderReplaceRoot_gives.mp h
    exact .single (.frame (by decide)) (writes_expression newRoot w ps hw)
  | .count name, hn, _, _, _, _, h => by
    obtain ⟨rfl, rfl⟩ := gives_pure.mp h
    exact .identifier (Stage.valid_of_mem_ownNames hn name List.mem_cons_self)
  | .facet facets, hn, ht, hd, _, _, h => by
    obtain ⟨entries, hentries, rfl⟩ := renderFacet_gives.mp h
    obtain ⟨-, hinner⟩ : _ ∧ Stage.invalidNameInFacets? facets = none := by
      simpa [Stage.invalidName?] using hn
    refine (writes_facets facets (Stage.valid_of_mem_ownNames hn) hinner ht
      (fun hwhole => (hd hwhole).2) hentries).ofEntries fun hwhole => ?_
    rw [keys_of_facets hentries]
    exact (hd hwhole).1
  | .bucket groupBy boundaries fallback output, hn, _, _, _, _, h =>
    writes_bucket (Stage.valid_of_mem_ownNames hn) h

theorem writes_stages : ∀ (stages : List Stage), Stage.invalidNameIn? stages = none →
    (whole → Stage.TidyAll stages) → (whole → Stage.DistinctFacetsIn stages) →
      ∀ {vs : List Json} {ps : List Param}, (renderStages stages).Gives vs ps →
        Writes .mongo whole (.arr vs) ps
  | [], _, _, _, _, _, h => by
    obtain ⟨rfl, rfl⟩ := gives_pure.mp h
    exact .arr_nil
  | s :: rest, hn, ht, hd, _, _, h => by
    obtain ⟨body, ws, qs, rs, hbody, hws, rfl, rfl⟩ := renderStages_cons_gives.mp h
    obtain ⟨hs, hrest⟩ := Stage.invalidNameIn?_cons_eq_none_iff.mp hn
    have hfirst := writes_stageBody s hs (fun hwhole => (ht hwhole).1) (fun hwhole => (hd hwhole).1)
      hbody
    exact (Writes.single (safe_stage s.kind) hfirst).arr_cons (writes_stages rest hrest
      (fun hwhole => (ht hwhole).2) (fun hwhole => (hd hwhole).2) hws)

theorem writes_facets : ∀ (facets : List (String × List Stage)),
    (∀ name ∈ facets.map Prod.fst, Identifier.Valid name) →
    Stage.invalidNameInFacets? facets = none → (whole → Stage.TidyFacets facets) →
    (whole → Stage.DistinctFacetsBelow facets) →
      ∀ {es : Entries} {ps : List Param}, (renderFacets facets).Gives es ps →
        Writes .mongo whole (.obj es) ps
  | [], _, _, _, _, _, _, h => by
    obtain ⟨rfl, rfl⟩ := gives_pure.mp h
    exact .obj_nil
  | (name, stages) :: rest, hv, hn, ht, hd, _, _, h => by
    obtain ⟨vs, fs, qs, rs, hvs, hfs, rfl, rfl⟩ := renderFacets_cons_gives.mp h
    obtain ⟨hstages, hrest⟩ := Stage.invalidNameInFacets?_cons_eq_none_iff.mp hn
    obtain ⟨hname, hnames⟩ := List.forall_mem_cons.mp hv
    exact .obj_cons (.identifier hname)
      (writes_stages stages hstages (fun hwhole => (ht hwhole).1) (fun hwhole => (hd hwhole).1) hvs)
      (writes_facets rest hnames hrest (fun hwhole => (ht hwhole).2) (fun hwhole => (hd hwhole).2)
        hfs)

end

/-! ## Queries -/

theorem writes_queryFilter {q : Query} (h : (renderQueryFilter q).Gives v ps) :
    Writes .mongo whole v ps := by
  unfold renderQueryFilter at h
  cases hf : q.filter with
  | none =>
    rw [hf] at h
    obtain ⟨rfl, rfl⟩ := gives_pure.mp h
    exact .obj_nil
  | some f =>
    rw [hf] at h
    exact writes_filter f h

theorem writes_changed (o : Option Param) : Writes .mongo whole (changed o) o.toList := by
  cases o with
  | none => exact .word (by decide +kernel)
  | some p => exact .placeholder p

theorem writes_update {op : UpdateOperation} (hop : whole → op.Tidy) :
    Writes .mongo whole (updateEntry op).2 (op.fields.values.flatMap Option.toList) := by
  have hentries : Writes .mongo whole
      (.obj (op.fields.entries.map fun e => (e.1.path, changed e.2)))
      (op.fields.entries.flatMap fun e => e.2.toList) :=
    .obj_map fun e _ => ⟨.path e.1.path_valid, writes_changed e.2⟩
  rw [OrderedMap.values, List.flatMap_map]
  refine hentries.ofEntries fun hwhole => ?_
  have hkeys : Entries.keys (op.fields.entries.map fun e => (e.1.path, changed e.2)) =
      op.fields.keys.map Field.path := by
    simp [Entries.keys, OrderedMap.keys]
  rw [hkeys]
  exact hop hwhole

theorem writes_updates {ops : List UpdateOperation}
    (hoperators : (ops.map UpdateOperation.operator).Nodup) (hops : whole → ∀ op ∈ ops, op.Tidy)
    (h : (renderUpdates ops).Gives v ps) : Writes .mongo whole v ps := by
  obtain ⟨rfl, rfl⟩ := renderUpdates_gives.mp h
  have hentries : Writes .mongo whole (.obj (ops.map updateEntry))
      (ops.flatMap fun op => op.fields.values.flatMap Option.toList) :=
    .obj_map fun op hop => ⟨safe_update op.operator, writes_update fun hwhole => hops hwhole op hop⟩
  refine hentries.ofEntries fun _ => ?_
  have hkeys : Entries.keys (ops.map updateEntry) =
      (ops.map UpdateOperation.operator).map UpdateOperator.token := by
    simp [Entries.keys, updateEntry]
  rw [hkeys]
  exact List.Nodup.map (Vocabulary.token_injective (α := UpdateOperator)) hoperators

theorem writes_find {q : Query} {parts : Entries} (hp : whole → ∀ p ∈ q.projection, p.Tidy)
    (h : (renderFind q).Gives parts ps) : Writes .mongo whole (.obj parts) ps := by
  obtain ⟨filter, projection, skip, limit, qs, rs, ts, us, hfilter, hprojection, hskip, hlimit, rfl,
    rfl⟩ := renderFind_gives.mp h
  have hprojection : Writes .mongo whole (.obj (Entries.optional "projection" projection)) rs := by
    rcases Render.gives_optional.mp hprojection with ⟨-, rfl, rfl⟩ | ⟨p, v, hsome, rfl, hv⟩
    · exact .obj_nil
    · exact .single (.frame (by decide)) (writes_projection (fun hwhole => hp hwhole p hsome) hv)
  have hsort : Writes .mongo whole
      (.obj (Entries.when (!q.sort.isEmpty) "sort" (sortObject q.sort))) [] :=
    .obj_when (.frame (by decide)) (fun _ => writes_sort q.sort) fun _ => rfl
  have hps : qs ++ (rs ++ (ts ++ us)) = qs ++ rs ++ ts ++ us := by simp only [List.append_assoc]
  rw [hps]
  exact ((((Writes.obj_cons (.frame (by decide)) (writes_queryFilter hfilter)
    hprojection).obj_append_plain hsort).obj_append
      (.obj_optional (.frame (by decide)) Writes.pagination hskip)).obj_append
        (.obj_optional (.frame (by decide)) Writes.pagination hlimit))

/-- What a built query writes below its header. -/
theorem writes_parts {q : Query} (hq : q.Built) (ht : whole → q.Tidy)
    (hd : whole → Stage.DistinctFacetsIn q.pipeline) {parts : Entries}
    (h : (renderParts q).Gives parts ps) : Writes .mongo whole (.obj parts) ps := by
  unfold renderParts at h
  unfold Query.Tidy at ht
  cases hop : q.operation with
  | find | findOne =>
    rw [hop] at h ht
    exact writes_find ht h
  | insert =>
    rw [hop] at h ht
    simp only [bind_pure_comp, gives_map] at h
    obtain ⟨document, hdocument, rfl⟩ := h
    exact writes_first_document (.frame (by decide)) ht hdocument
  | insertMany =>
    rw [hop] at h ht
    simp only [bind_pure_comp, gives_map] at h
    obtain ⟨documents, hdocuments, rfl⟩ := h
    exact .single (.frame (by decide)) (.arr_of_each
      (fun d hd v qs hv => writes_document (fun hwhole => ht hwhole d hd) hv) hdocuments)
  | update | updateMany =>
    rw [hop] at h ht
    obtain ⟨filter, update, qs, rs, hfilter, hupdate, rfl, rfl⟩ := Render.gives_two.mp h
    exact (Writes.obj_cons (.frame (by decide)) (writes_queryFilter hfilter)
      (.single (.frame (by decide)) (writes_updates hq.operators ht hupdate))).obj_append_plain
        (.obj_when (.frame (by decide)) (fun _ => .plain rfl rfl) fun _ => rfl)
  | delete | deleteMany | count =>
    rw [hop] at h
    simp only [bind_pure_comp, gives_map] at h
    obtain ⟨filter, hfilter, rfl⟩ := h
    exact .single (.frame (by decide)) (writes_queryFilter hfilter)
  | aggregate =>
    rw [hop] at h ht
    simp only [renderPipeline, bind_pure_comp, gives_map] at h
    obtain ⟨_, ⟨stages, hstages, rfl⟩, rfl⟩ := h
    exact .single (.frame (by decide)) (writes_stages q.pipeline hq.names ht hd hstages)
  | distinct =>
    rw [hop] at h
    simp only [bind_pure_comp, gives_map] at h
    obtain ⟨filter, hfilter, rfl⟩ := h
    have hfield : Writes .mongo whole
        (.obj (Entries.optional "field" (q.distinctField.map fun f => .str f.path))) [] := by
      cases q.distinctField with
      | none => exact .obj_nil
      | some f => exact .single (.frame (by decide)) (.path f.path_valid)
    exact hfield.obj_append
      (.obj_optional (.frame (by decide)) (fun f v qs => writes_filter f) hfilter)

end DocumentQuery.Mongo

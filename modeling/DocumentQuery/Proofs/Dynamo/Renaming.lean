import DocumentQuery.Proofs.Dynamo.Writing
import DocumentQuery.Proofs.RenamedSteps
/-!
# Renamed queries for dynamo

Aliases are numbered by position. A renamed filter has the same paths at the same
positions, so its expression is the same text; only the map of value aliases
changes.

Main definitions:
* `Condition.rename`, `Action.rename`: the parameters of a condition or of an
  update action renamed.

Results:
* `text_rename`, `updateText_rename`: expressions do not depend on parameters.
* `condition_rename`, `actions_rename`: what a renamed filter or update stands for.
* `renames_parts`: what a renamed query renders to below its header.
-/
namespace DocumentQuery.Dynamo

open Render (Renames)

variable (ρ : Param → Param)

/-! ## Conditions -/

namespace Condition

mutual

/-- The condition with all its parameters renamed. -/
def rename : Condition → Condition
  | .compare path comparisons => .compare path (comparisons.map fun c => (c.1, ρ c.2))
  | .presence path present => .presence path present
  | .group joiner parts => .group joiner (renameAll parts)

/-- The conditions with all their parameters renamed. -/
def renameAll : List Condition → List Condition
  | [] => []
  | c :: cs => rename c :: renameAll cs

end

mutual

@[simp] theorem paths_rename : ∀ c : Condition, (c.rename ρ).paths = c.paths
  | .compare _ _ | .presence _ _ => rfl
  | .group _ parts => pathsOfAll_rename parts

theorem pathsOfAll_rename : ∀ cs : List Condition, pathsOfAll (renameAll ρ cs) = pathsOfAll cs
  | [] => rfl
  | c :: cs => by rw [renameAll, pathsOfAll, pathsOfAll, paths_rename c, pathsOfAll_rename cs]

end

mutual

@[simp] theorem values_rename : ∀ c : Condition, (c.rename ρ).values = c.values.map ρ
  | .compare _ comparisons => by simp [rename, values]
  | .presence _ _ => rfl
  | .group _ parts => valuesOfAll_rename parts

theorem valuesOfAll_rename : ∀ cs : List Condition,
    valuesOfAll (renameAll ρ cs) = (valuesOfAll cs).map ρ
  | [] => rfl
  | c :: cs => by
    rw [renameAll, valuesOfAll, valuesOfAll, values_rename c, valuesOfAll_rename cs,
      List.map_append]

end

theorem comparisonTexts_rename (n v : Nat) (comparisons : List (String × Param)) :
    comparisonTexts n v (comparisons.map fun c => (c.1, ρ c.2)) =
      comparisonTexts n v comparisons := by
  induction comparisons generalizing v with
  | nil => rfl
  | cons c comparisons ih => rw [List.map_cons, comparisonTexts, comparisonTexts, ih]

mutual

@[simp] theorem text_rename : ∀ (c : Condition) (n v : Nat), (c.rename ρ).text n v = c.text n v
  | .compare _ comparisons, n, v => by rw [rename, text, text, comparisonTexts_rename]
  | .presence _ _, _, _ => rfl
  | .group _ parts, n, v => by rw [rename, text, text, textsOfAll_rename parts n v]

theorem textsOfAll_rename : ∀ (cs : List Condition) (n v : Nat),
    textsOfAll n v (renameAll ρ cs) = textsOfAll n v cs
  | [], _, _ => rfl
  | c :: cs, n, v => by
    -- the numbers of the next part depend on how many paths and values this one has
    rw [renameAll, textsOfAll, textsOfAll, text_rename c, paths_rename, values_rename,
      List.length_map, textsOfAll_rename cs]

end

end Condition

/-! ## Filters -/

theorem comparison_rename (operator : FilterOperator) (value : Param) :
    comparison operator (ρ value) = (comparison operator value).map fun c => (c.1, ρ c.2) := by
  unfold comparison
  cases sign? operator <;> rfl

theorem rangeCondition_rename (r : RangeFilter) :
    rangeCondition (r.rename ρ) = (rangeCondition r).map (Condition.rename ρ) := by
  have hcomparisons : (r.rename ρ).bounds.mapM (fun b => comparison b.1 b.2) =
      (r.bounds.mapM fun b => comparison b.1 b.2).map
        (List.map fun c : String × Param => (c.1, ρ c.2)) := by
    rw [RangeFilter.bounds_rename]
    exact mapM_rename (fun b => comparison_rename ρ b.1 b.2) r.bounds
  unfold rangeCondition
  rw [hcomparisons]
  cases r.bounds.mapM fun b => comparison b.1 b.2 with
  | error e => rfl
  | ok comparisons => cases comparisons <;> rfl

mutual

theorem condition_rename : ∀ f : Filter,
    condition (f.rename ρ) = (condition f).map (Condition.rename ρ)
  | .condition field operator value => by
    rw [Filter.rename, condition, condition, comparison_rename]
    cases comparison operator value <;> rfl
  | .group logic conditions => by
    rw [Filter.rename, condition, condition]
    cases Joiner.ofLogic? logic with
    | none => rfl
    | some joiner =>
      show (conditionsOfAll _ >>= _) = Except.map _ (conditionsOfAll _ >>= _)
      rw [conditionsOfAll_rename conditions]
      cases conditionsOfAll conditions <;> rfl
  | .range r => rangeCondition_rename ρ r
  | .presence .. | .regex .. | .textSearch _ | .geo _ | .array .. | .elemMatch .. => rfl

theorem conditionsOfAll_rename : ∀ fs : List Filter,
    conditionsOfAll (Filter.renameAll ρ fs) = (conditionsOfAll fs).map (Condition.renameAll ρ)
  | [] => rfl
  | f :: fs => by
    rw [Filter.renameAll, conditionsOfAll, conditionsOfAll, condition_rename f,
      conditionsOfAll_rename fs]
    cases condition f with
    | error e => rfl
    | ok c => cases conditionsOfAll fs <;> rfl

end

theorem queryCondition_rename (q : Query) :
    queryCondition (q.rename ρ) = (queryCondition q).map (Option.map (Condition.rename ρ)) := by
  unfold queryCondition Query.rename
  cases q.filter with
  | none => rfl
  | some f =>
    rw [Option.map_some, Option.mapM_some, Option.mapM_some, condition_rename]
    cases condition f <;> rfl

section Query

variable (c : Option Condition)

theorem pathsOf_rename : pathsOf (c.map (Condition.rename ρ)) = pathsOf c := by
  cases c with
  | none => rfl
  | some c => exact c.paths_rename ρ

theorem valuesOf_rename : valuesOf (c.map (Condition.rename ρ)) = (valuesOf c).map ρ := by
  cases c with
  | none => rfl
  | some c => exact c.values_rename ρ

theorem conditionEntries_rename (key : String) :
    conditionEntries key (c.map (Condition.rename ρ)) = conditionEntries key c := by
  cases c with
  | none => rfl
  | some c => simp [conditionEntries]

theorem conditionEntries_kept (key : String) :
    Json.renameEntries ρ (conditionEntries key c) = conditionEntries key c := by
  have hmarked : isMarked ((c.map fun c => c.text 0 0).getD "") = false := by
    cases c with
    | none => rfl
    | some c => exact isMarked_text c 0 0
  rw [conditionEntries, Json.renameEntries_when, Json.rename_str ρ hmarked]

end Query

/-! ## Updates -/

/-- The action with its parameter renamed. -/
def Action.rename : Action → Action
  | .set path value => .set path (ρ value)
  | .add path value => .add path (ρ value)
  | .remove path => .remove path

theorem path_rename (a : Action) : (a.rename ρ).path = a.path := by
  cases a <;> rfl

theorem value?_rename (a : Action) : (a.rename ρ).value? = a.value?.map ρ := by
  cases a <;> rfl

theorem assignmentTexts_rename (acts : List Action) (n v : Nat) :
    assignmentTexts n v (acts.map (Action.rename ρ)) = assignmentTexts n v acts := by
  induction acts generalizing n v with
  | nil => rfl
  | cons a acts ih => cases a <;> simp [Action.rename, assignmentTexts, ih]

theorem removalTexts_rename (acts : List Action) (n : Nat) :
    removalTexts n (acts.map (Action.rename ρ)) = removalTexts n acts := by
  induction acts generalizing n with
  | nil => rfl
  | cons a acts ih => cases a <;> simp [Action.rename, removalTexts, ih]

theorem updateText_rename (n v : Nat) (acts : List Action) :
    updateText n v (acts.map (Action.rename ρ)) = updateText n v acts := by
  rw [updateText, updateText, assignmentTexts_rename, removalTexts_rename]

theorem valueActions_rename (operator : UpdateOperator) {make : String → Param → Action}
    (hmake : ∀ path p, make path (ρ p) = (make path p).rename ρ)
    (es : List (Field × Option Param)) :
    (es.map fun e => (e.1, e.2.map ρ)).mapM (fun e => valueAction operator make e.1 e.2) =
      (es.mapM fun e => valueAction operator make e.1 e.2).map (List.map (Action.rename ρ)) := by
  refine mapM_rename (fun e => ?_) es
  obtain ⟨field, value⟩ := e
  cases value with
  | none => rfl
  | some p => exact congrArg Except.ok (hmake field.path p)

theorem operationActions_rename (op : UpdateOperation) :
    operationActions (op.rename ρ) = (operationActions op).map (List.map (Action.rename ρ)) := by
  obtain ⟨operator, fields⟩ := op
  cases operator with
  | set => exact valueActions_rename ρ .set (fun _ _ => rfl) fields.entries
  | inc => exact valueActions_rename ρ .inc (fun _ _ => rfl) fields.entries
  | unset =>
    simp [operationActions, UpdateOperation.rename, Except.map, Action.rename, Function.comp_def]
  | _ => rfl

theorem actions_rename (ops : List UpdateOperation) :
    actions (ops.map (UpdateOperation.rename ρ)) =
      (actions ops).map (List.map (Action.rename ρ)) := by
  unfold actions
  rw [mapM_rename (operationActions_rename ρ) ops]
  cases ops.mapM operationActions with
  | error e => rfl
  | ok lists => exact congrArg Except.ok List.map_flatten.symm

/-! ## Queries -/

theorem renames_valueEntries (values : List Param) :
    Renames ρ (Json.renameEntries ρ) (valueEntries values) (valueEntries (values.map ρ)) := by
  refine (Renames.items Renames.placeholder values).bind fun placeholders => .pure ?_
  have hmap : (Json.obj (placeholders.zipIdx.map fun p => (valueAlias p.2, p.1))).rename ρ =
      .obj ((Json.renameItems ρ placeholders).zipIdx.map fun p => (valueAlias p.2, p.1)) := by
    simp [Json.rename, Json.renameEntries_eq, Json.renameItems_eq, List.zipIdx_map,
      Function.comp_def]
  have hempty : (Json.renameItems ρ placeholders).isEmpty = placeholders.isEmpty := by
    simp [Json.renameItems_eq]
  rw [Json.renameEntries_when, hmap, hempty]

section Queries

variable {q : Query}

theorem nameEntries_kept {paths : List String} (h : ∀ path ∈ paths, FieldPath.Valid path) :
    Json.renameEntries ρ (nameEntries paths) = nameEntries paths :=
  (writes_nameEntries h).renameEntries_eq ρ

theorem renames_find :
    Renames ρ (Json.renameEntries ρ) (renderFind q) (renderFind (q.rename ρ)) := by
  have hselection : (q.rename ρ).projection.mapM (selectedPaths .dynamo) =
      q.projection.mapM (selectedPaths .dynamo) := selection_rename ρ .dynamo q.projection
  unfold renderFind
  rw [hselection]
  refine Renames.ofExcept_bind (queryCondition_rename ρ q) fun c hc =>
    Renames.check_bind fun fields hfields => ?_
  simp only [valuesOf_rename, pathsOf_rename, conditionEntries_rename]
  refine (renames_valueEntries ρ (valuesOf c)).bind fun values =>
    (Renames.optional Renames.pagination q.limit).bind fun limit => .pure ?_
  have hpaths : ∀ path ∈ pathsOf c ++ fields.getD [], FieldPath.Valid path :=
    List.forall_mem_append.mpr ⟨valid_of_mem_pathsOf hc, valid_of_selection hfields⟩
  have hprojection := (writes_projection (pathsOf c).length (fields.getD [])).renameEntries_eq ρ
  simp only [Json.renameEntries_append, Json.renameEntries_optional, hprojection,
    conditionEntries_kept, nameEntries_kept ρ hpaths]

theorem renames_update :
    Renames ρ (Json.renameEntries ρ) (renderUpdate q) (renderUpdate (q.rename ρ)) := by
  refine Renames.ofExcept_bind (queryCondition_rename ρ q) fun c hc =>
    Renames.ofExcept_bind (actions_rename ρ q.updates) fun acts hacts => ?_
  have hvalues : valuesOf (c.map (Condition.rename ρ)) ++
      (acts.map (Action.rename ρ)).filterMap Action.value? =
        (valuesOf c ++ acts.filterMap Action.value?).map ρ := by
    simp [valuesOf_rename, value?_rename, List.filterMap_map, List.map_filterMap]
  have hnames : (acts.map (Action.rename ρ)).map Action.path = acts.map Action.path := by
    simp [path_rename, Function.comp_def]
  rw [hvalues]
  refine (renames_valueEntries ρ _).bind fun values => .pure ?_
  have hpaths : ∀ path ∈ pathsOf c ++ acts.map Action.path, FieldPath.Valid path :=
    List.forall_mem_append.mpr
      ⟨valid_of_mem_pathsOf hc, List.forall_mem_map.mpr (valid_of_mem_actions hacts)⟩
  have hupdate : ∀ n v : Nat,
      (Json.str (updateText n v acts)).rename ρ = .str (updateText n v acts) :=
    fun n v => Json.rename_str ρ (isMarked_update acts n v)
  simp only [valuesOf_rename, List.length_map, pathsOf_rename, conditionEntries_rename,
    updateText_rename, hnames, List.cons_append, Json.renameEntries, Json.renameEntries_append,
    hupdate, conditionEntries_kept, nameEntries_kept ρ hpaths]

theorem renames_delete :
    Renames ρ (Json.renameEntries ρ) (renderDelete q) (renderDelete (q.rename ρ)) := by
  refine Renames.ofExcept_bind (queryCondition_rename ρ q) fun c hc => ?_
  rw [valuesOf_rename, pathsOf_rename, conditionEntries_rename]
  refine (renames_valueEntries ρ (valuesOf c)).bind fun values => .pure ?_
  simp only [Json.renameEntries_append, conditionEntries_kept,
    nameEntries_kept ρ (valid_of_mem_pathsOf hc)]

/-- What a renamed query renders to below its header. -/
theorem renames_parts :
    Renames ρ (Json.renameEntries ρ) (renderParts q) (renderParts (q.rename ρ)) := by
  have hoperation : (q.rename ρ).operation = q.operation := rfl
  unfold renderParts
  rw [hoperation]
  cases q.operation with
  | find | findOne => exact renames_find ρ
  | insert =>
    refine (Renames.firstDocument q.documents).bind fun item => .pure ?_
    rw [Json.renameEntries_optional]
  | update => exact renames_update ρ
  | delete => exact renames_delete ρ
  | _ => exact .unsupported

theorem renames_entries :
    Renames ρ (Json.renameEntries ρ) (renderEntries q) (renderEntries (q.rename ρ)) := by
  refine (renames_parts ρ).bind fun parts => .pure ?_
  rw [Json.renameEntries, Json.rename_identifier ρ q.target.valid]
  rfl

end Queries

end DocumentQuery.Dynamo

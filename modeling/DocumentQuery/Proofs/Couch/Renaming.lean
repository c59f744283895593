import DocumentQuery.Proofs.Couch.Writing
import DocumentQuery.Proofs.RenamedSteps
/-!
# Renamed queries for couch

Selectors are checked by their operators, and an update by its operator and by
which of its fields have a value. None of this looks at parameters.

Results:
* `renames_selector`: a renamed filter renders to the renamed selector.
* `renames_entries`: the object of a renamed query.
-/
namespace DocumentQuery.Couch

open Render (Renames)

variable (ρ : Param → Param)

/-! ## Selectors -/

theorem renames_test (field : Field) (operator : FilterOperator) (value : Param) :
    Renames ρ (Json.rename ρ) (renderTest field operator value)
      (renderTest field operator (ρ value)) := by
  unfold renderTest
  by_cases hsupports : Dialect.couch.supportsFilter operator = true
  · rw [if_pos hsupports, if_pos hsupports]
    exact (Renames.placeholder value).bind fun _ => .pure rfl
  · rw [if_neg hsupports, if_neg hsupports]
    exact .unsupported

theorem renames_range (r : RangeFilter) :
    Renames ρ (Json.rename ρ) (renderRange r) (renderRange (r.rename ρ)) :=
  (Renames.bounds r).bind fun _ => .pure rfl

theorem renames_regex (field : Field) (pattern : Param) (options : Option Param) :
    Renames ρ (Json.rename ρ) (renderRegex field pattern options)
      (renderRegex field (ρ pattern) (options.map ρ)) := by
  cases options with
  | some o => exact .unsupported
  | none => exact (Renames.placeholder pattern).bind fun _ => .pure rfl

mutual

theorem renames_selector : ∀ f : Filter,
    Renames ρ (Json.rename ρ) (renderSelector f) (renderSelector (f.rename ρ))
  | .condition field operator value => renames_test ρ field operator value
  | .group logic conditions => by
    rw [Filter.rename, renderSelector, renderSelector]
    by_cases hlogic : Dialect.couch.supportsLogic logic = true
    · rw [if_pos hlogic, if_pos hlogic]
      exact (renames_selectors conditions).bind fun _ => .pure rfl
    · rw [if_neg hlogic, if_neg hlogic]
      exact .unsupported
  | .range r => renames_range ρ r
  | .regex field pattern options => renames_regex ρ field pattern options
  | .presence _ _ => .pure rfl
  | .textSearch _ | .geo _ | .array .. | .elemMatch .. => .unsupported

theorem renames_selectors : ∀ fs : List Filter,
    Renames ρ (Json.renameItems ρ) (renderSelectors fs) (renderSelectors (Filter.renameAll ρ fs))
  | [] => .pure rfl
  | f :: fs => by
    rw [Filter.renameAll, renderSelectors, renderSelectors]
    exact (renames_selector f).bind fun _ => (renames_selectors fs).bind fun _ => .pure rfl

end

/-! ## Updates -/

theorem valued_rename (op : UpdateOperation) :
    valued (op.rename ρ) = (valued op).map fun e => (e.1, ρ e.2) := by
  unfold valued UpdateOperation.rename OrderedMap.mapValues
  rw [List.filterMap_map, List.map_filterMap]
  refine List.filterMap_congr fun e _ => ?_
  cases h : e.2 <;> simp [h]

theorem renames_update (op : UpdateOperation) :
    Renames ρ (Json.renameEntries ρ) (renderUpdate op) (renderUpdate (op.rename ρ)) := by
  have hoperator : (op.rename ρ).operator = op.operator := rfl
  unfold renderUpdate
  rw [hoperator, valued_rename]
  by_cases hsupports : Dialect.couch.supportsUpdate op.operator = true
  · rw [if_pos hsupports, if_pos hsupports]
    refine Renames.entries (fun e => ?_) (valued op)
    exact Renames.entry e.1 (.placeholder e.2)
  · rw [if_neg hsupports, if_neg hsupports]
    exact .unsupported

theorem renameEntries_flatten (lists : List Entries) :
    (lists.map (Json.renameEntries ρ)).flatten = Json.renameEntries ρ lists.flatten := by
  induction lists with
  | nil => rfl
  | cons es lists ih => simp [ih]

theorem renames_updates (ops : List UpdateOperation) :
    Renames ρ (List.map (Json.renameEntries ρ)) (Render.each renderUpdate ops)
      (Render.each renderUpdate (ops.map (UpdateOperation.rename ρ))) :=
  .each ops fun op _ => renames_update ρ op

/-! ## Queries -/

variable (q : Query)

theorem renames_queryFilter :
    Renames ρ (Option.map (Json.rename ρ)) (Render.optional renderSelector q.filter)
      (Render.optional renderSelector (q.rename ρ).filter) :=
  .optional (renames_selector ρ) q.filter

theorem renames_find :
    Renames ρ (Json.renameEntries ρ) (renderFind q) (renderFind (q.rename ρ)) := by
  have hselection : (q.rename ρ).projection.mapM (selectedPaths .couch) =
      q.projection.mapM (selectedPaths .couch) := selection_rename ρ .couch q.projection
  unfold renderFind
  rw [hselection]
  refine (renames_queryFilter ρ q).bind fun selector => Renames.check_bind fun fields hfields =>
    (Renames.optional Renames.pagination q.limit).bind fun limit =>
    (Renames.optional Renames.pagination q.skip).bind fun skip => .pure ?_
  have hselect :=
    (writes_selection "fields" (.frame (by decide)) hfields).renameEntries_eq ρ
  have hsort := (writes_sort q.sort).renameEntries_eq ρ
  have hsame : (q.rename ρ).sort = q.sort := rfl
  have hselector : (selector.map (Json.rename ρ)).getD (.obj []) =
      (selector.getD (.obj [])).rename ρ := by
    cases selector <;> rfl
  simp only [hsame, hselector, List.cons_append, Json.renameEntries, Json.renameEntries_append,
    Json.renameEntries_optional, hselect, hsort]

/-- What a renamed query renders to below its header. -/
theorem renames_parts :
    Renames ρ (Json.renameEntries ρ) (renderParts q) (renderParts (q.rename ρ)) := by
  have hoperation : (q.rename ρ).operation = q.operation := rfl
  unfold renderParts
  rw [hoperation]
  cases q.operation with
  | find | findOne => exact renames_find ρ q
  | insert =>
    refine (Renames.firstDocument q.documents).bind fun document => .pure ?_
    simp [Json.renameEntries, Json.rename_str ρ (s := "insert") (by decide)]
  | update =>
    refine (renames_queryFilter ρ q).bind fun selector =>
      (renames_updates ρ q.updates).bind fun updates => .pure ?_
    simp [Json.renameEntries, Json.rename_str ρ (s := "update") (by decide),
      renameEntries_flatten]
  | delete =>
    refine (renames_queryFilter ρ q).bind fun selector => .pure ?_
    simp [Json.renameEntries, Json.rename_str ρ (s := "delete") (by decide)]
  | _ => exact .unsupported

theorem renames_entries :
    Renames ρ (Json.renameEntries ρ) (renderEntries q) (renderEntries (q.rename ρ)) := by
  refine (renames_parts ρ q).bind fun parts => .pure ?_
  rw [Json.renameEntries, Json.rename_identifier ρ q.target.valid]
  rfl

end DocumentQuery.Couch

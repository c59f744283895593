import DocumentQuery.Dialect.Mongo.Query
import DocumentQuery.Proofs.RenamedSteps
/-!
# Renamed filters, selections and expressions for mongo

Merging compares keys and looks at nothing else, so the conditions of an element
match are merged alike before and after the renaming.

Results:
* `mergeAll_rename`: renamed objects merge to the renamed object.
* `renames_filter`, `renames_projection`, `renames_expression`, …: a renamed part
  renders to the renamed value.
-/
namespace DocumentQuery.Mongo

open Entries (get?)
open Render (Renames)

variable (ρ : Param → Param)

/-! ## Merged objects -/

theorem operatorsOnly_renameEntries (es : Entries) :
    operatorsOnly (Json.renameEntries ρ es) = operatorsOnly es := by
  rw [operatorsOnly, operatorsOnly, Json.keys_renameEntries]

theorem disjoint_renameEntries (es fs : Entries) :
    disjoint (Json.renameEntries ρ es) (Json.renameEntries ρ fs) = disjoint es fs := by
  simp only [disjoint, Json.keys_renameEntries, Json.get?_renameEntries, Option.isNone_map]

theorem joinOperators?_rename (w v : Json) :
    joinOperators? (w.rename ρ) (v.rename ρ) = (joinOperators? w v).map (Json.rename ρ) := by
  cases w with
  | obj es =>
    cases v with
    | obj fs =>
      simp only [joinOperators?, Json.rename, operatorsOnly_renameEntries, disjoint_renameEntries]
      split
      · simp only [Option.map_some, Json.rename, Json.renameEntries_append]
      · rfl
    | _ => rfl
  | _ => rfl

theorem mergeAt?_rename (es : Entries) (key : String) (v : Json) :
    mergeAt? (Json.renameEntries ρ es) key (v.rename ρ) =
      (mergeAt? es key v).map (Json.renameEntries ρ) := by
  unfold mergeAt?
  rw [Json.get?_renameEntries]
  cases get? key es with
  | none => simp [Json.renameEntries]
  | some w =>
    simp only [Option.map_some, joinOperators?_rename, Option.map_map]
    refine congrArg (Option.map · _) (funext fun u => ?_)
    exact (Json.renameEntries_insert ρ key u es).symm

theorem mergeInto?_rename (fs : Entries) : ∀ es : Entries,
    mergeInto? (Json.renameEntries ρ es) (Json.renameEntries ρ fs) =
      (mergeInto? es fs).map (Json.renameEntries ρ) := by
  induction fs with
  | nil => intro es; rfl
  | cons e fs ih =>
    intro es
    obtain ⟨k, v⟩ := e
    rw [Json.renameEntries, mergeInto?, mergeInto?, mergeAt?_rename]
    cases mergeAt? es k v with
    | none => rfl
    | some mid => exact ih mid

theorem mergeObjects?_rename (vs : List Json) : ∀ es : Entries,
    mergeObjects? (Json.renameEntries ρ es) (Json.renameItems ρ vs) =
      (mergeObjects? es vs).map (Json.renameEntries ρ) := by
  induction vs with
  | nil => intro es; rfl
  | cons v vs ih =>
    intro es
    cases v with
    | obj fs =>
      rw [Json.renameItems, Json.rename, mergeObjects?, mergeObjects?, mergeInto?_rename]
      cases mergeInto? es fs with
      | none => rfl
      | some mid => exact ih mid
    | _ => rfl

/-- Objects are merged by their keys, so merging does not see the renaming. -/
theorem mergeAll_rename (vs : List Json) :
    mergeAll (Json.renameItems ρ vs) = (mergeAll vs).rename ρ := by
  have hmerge : mergeObjects? [] (Json.renameItems ρ vs) =
      (mergeObjects? [] vs).map (Json.renameEntries ρ) := mergeObjects?_rename ρ vs []
  unfold mergeAll
  rw [hmerge]
  cases mergeObjects? [] vs <;> rfl

/-! ## Filters -/

theorem renames_test (field : Field) (operator : FilterOperator) (value : Param) :
    Renames ρ (Json.rename ρ) (renderTest field operator value)
      (renderTest field operator (ρ value)) :=
  (Renames.placeholder value).bind fun _ => .pure rfl

theorem renames_range (r : RangeFilter) :
    Renames ρ (Json.rename ρ) (renderRange r) (renderRange (r.rename ρ)) :=
  (Renames.bounds r).bind fun _ => .pure rfl

theorem renames_regex (field : Field) (pattern : Param) (options : Option Param) :
    Renames ρ (Json.rename ρ) (renderRegex field pattern options)
      (renderRegex field (ρ pattern) (options.map ρ)) := by
  refine (Renames.placeholder pattern).bind fun _ =>
    (Renames.optional Renames.placeholder options).bind fun o => .pure ?_
  cases o <;> rfl

theorem renames_textSearch (t : TextSearch) :
    Renames ρ (Json.rename ρ) (renderTextSearch t) (renderTextSearch (t.rename ρ)) := by
  refine (Renames.placeholder t.search).bind fun _ =>
    (Renames.optional Renames.placeholder t.language).bind fun o => .pure ?_
  simp [Json.single, Json.rename, Json.renameEntries, TextSearch.rename]

theorem greatestDistance_rename (g : GeoFilter) :
    greatestDistance (g.rename ρ) = (greatestDistance g).map (Option.map ρ) := by
  obtain ⟨field, operator, lon, lat, radius, maxDistance, minDistance⟩ := g
  cases radius <;> cases maxDistance <;> rfl

theorem renames_geo (g : GeoFilter) :
    Renames ρ (Json.rename ρ) (renderGeo g) (renderGeo (g.rename ρ)) := by
  have hpoint : renameText ρ "Point" = "Point" := renameText_of_not_marked ρ (by decide)
  refine (Renames.placeholder g.lon).bind fun _ => (Renames.placeholder g.lat).bind fun _ =>
    (Renames.ofExcept (greatestDistance_rename ρ g)).bind fun greatest =>
    (Renames.optional Renames.placeholder greatest).bind fun _ =>
    (Renames.optional Renames.placeholder g.minDistance).bind fun _ => .pure ?_
  simp [Json.single, Json.rename, Json.renameEntries, Json.renameItems, GeoFilter.rename, hpoint]

mutual

theorem renames_filter : ∀ f : Filter,
    Renames ρ (Json.rename ρ) (renderFilter f) (renderFilter (f.rename ρ))
  | .condition field operator value | .array field operator value =>
    renames_test ρ field operator value
  | .group logic conditions => by
    rw [Filter.rename, renderFilter, renderFilter]
    by_cases hlogic : Dialect.mongo.supportsLogic logic = true
    · rw [if_pos hlogic, if_pos hlogic]
      exact (renames_filters conditions).bind fun _ => .pure rfl
    · rw [if_neg hlogic, if_neg hlogic]
      exact .unsupported
  | .range r => renames_range ρ r
  | .regex field pattern options => renames_regex ρ field pattern options
  | .textSearch t => renames_textSearch ρ t
  | .geo g => renames_geo ρ g
  | .elemMatch field conditions => by
    rw [Filter.rename, renderFilter, renderFilter]
    refine (renames_filters conditions).bind fun vs => .pure ?_
    rw [mergeAll_rename]
    rfl
  | .presence field present => .pure rfl

theorem renames_filters : ∀ fs : List Filter,
    Renames ρ (Json.renameItems ρ) (renderFilters fs) (renderFilters (Filter.renameAll ρ fs))
  | [] => .pure rfl
  | f :: fs => by
    rw [Filter.renameAll, renderFilters, renderFilters]
    exact (renames_filter f).bind fun _ => (renames_filters fs).bind fun _ => .pure rfl

end

theorem renames_merged (conditions : List Filter) :
    Renames ρ (Json.rename ρ) (renderMerged conditions)
      (renderMerged (Filter.renameAll ρ conditions)) :=
  (renames_filters ρ conditions).bind fun vs => .pure (mergeAll_rename ρ vs)

/-! ## Selections -/

theorem sortObject_rename (sorts : List SortClause) :
    (sortObject sorts).rename ρ = sortObject sorts := by
  rw [sortObject, Json.rename_ofEntries, Json.renameEntries_eq, List.map_map]
  rfl

theorem renames_slice (s : Slice) :
    Renames ρ (Json.rename ρ) (renderSlice s) (renderSlice (s.rename ρ)) := by
  refine (Renames.placeholder s.count).bind fun _ =>
    (Renames.optional Renames.placeholder s.skip).bind fun o => ?_
  cases o <;> exact .pure rfl

theorem renames_projectionField (p : ProjectionField) :
    Renames ρ (fun e => (e.1, e.2.rename ρ)) (renderProjectionField p)
      (renderProjectionField (p.rename ρ)) := by
  obtain ⟨field, included, slice, elemMatch⟩ := p
  cases slice with
  | some s => exact Renames.entry field.path (renames_slice ρ s)
  | none =>
    cases elemMatch with
    | some conditions =>
      refine (renames_merged ρ conditions).bind fun vs => ?_
      exact Renames.entry field.path (.pure rfl)
    | none => exact .pure rfl

theorem renames_projectionEntries (p : Projection) :
    Renames ρ (Json.renameEntries ρ) (renderProjectionEntries p)
      (renderProjectionEntries (p.rename ρ)) :=
  .entries (renames_projectionField ρ) p.fields

theorem renames_projection (p : Projection) :
    Renames ρ (Json.rename ρ) (renderProjection p) (renderProjection (p.rename ρ)) :=
  (renames_projectionEntries ρ p).bind fun es => .pure (Json.rename_ofEntries ρ es).symm

/-! ## Expressions -/

theorem pathReference_rename (field : Field) :
    (pathReference field).rename ρ = pathReference field :=
  Json.rename_str ρ (isMarked_append (by decide) field.path)

mutual

theorem renames_expression : ∀ e : Expression,
    Renames ρ (Json.rename ρ) (renderExpression e) (renderExpression (e.rename ρ))
  | .field field => .pure (pathReference_rename ρ field).symm
  | .literal value => .placeholder value
  | .operator operator args => by
    rw [Expression.rename, renderExpression, renderExpression]
    exact Renames.check_bind fun _ _ => (renames_expressions args).bind fun _ => .pure rfl
  | .conditional condition consequence alternative => by
    rw [Expression.rename, renderExpression, renderExpression]
    exact (renames_expression condition).bind fun _ =>
      (renames_expression consequence).bind fun _ =>
      (renames_expression alternative).bind fun _ => .pure rfl

theorem renames_expressions : ∀ es : List Expression,
    Renames ρ (Json.renameItems ρ) (renderExpressions es)
      (renderExpressions (Expression.renameAll ρ es))
  | [] => .pure rfl
  | e :: es => by
    rw [Expression.renameAll, renderExpressions, renderExpressions]
    exact (renames_expression e).bind fun _ => (renames_expressions es).bind fun _ => .pure rfl

end

theorem renames_named (m : Named Expression) :
    Renames ρ (Json.renameEntries ρ) (renderNamed m)
      (renderNamed (m.mapValues (Expression.rename ρ))) :=
  .entriesBy _ (renames_expression ρ) m

theorem renames_accumulator (a : Accumulator) :
    Renames ρ (Json.rename ρ) (renderAccumulator a) (renderAccumulator (a.rename ρ)) := by
  refine (Renames.optional (renames_expression ρ) a.expression).bind fun input => .pure ?_
  cases input <;> rfl

theorem renames_accumulators (m : Named Accumulator) :
    Renames ρ (Json.renameEntries ρ) (renderAccumulators m)
      (renderAccumulators (m.mapValues (Accumulator.rename ρ))) :=
  .entriesBy _ (renames_accumulator ρ) m

end DocumentQuery.Mongo

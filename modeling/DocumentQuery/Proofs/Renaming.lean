import DocumentQuery.Proofs.Formula
import DocumentQuery.Proofs.Writing
/-!
# Renamed parameters

A renaming `ρ` gives every parameter another one, and two parameters may get the
same. A query is renamed by renaming the parameters in all its parts, and an
object by renaming the placeholders among its string values.

Main definitions:
* `Query.rename` and one `rename` for each part of a query.
* `Json.rename`, `Rendered.rename`: placeholders replaced, everything else kept.

Results:
* `Json.rename_ofEntries`: entries are inserted by their keys, so the renaming
  can be done before or after.
* `Writes.rename_eq`: what is written without binding a parameter is kept.
-/
namespace DocumentQuery

variable (ρ : Param → Param)

/-! ## Queries -/

/-- The range with its bounds renamed. -/
def RangeFilter.rename (r : RangeFilter) : RangeFilter :=
  { r with min := r.min.map ρ, max := r.max.map ρ }

/-- The search with its words and its language renamed. -/
def TextSearch.rename (t : TextSearch) : TextSearch :=
  { t with search := ρ t.search, language := t.language.map ρ }

/-- The test of location with its point and its distances renamed. -/
def GeoFilter.rename (g : GeoFilter) : GeoFilter :=
  { g with
    lon := ρ g.lon, lat := ρ g.lat, radius := g.radius.map ρ, maxDistance := g.maxDistance.map ρ
    minDistance := g.minDistance.map ρ }

mutual

/-- The filter with all its parameters renamed. -/
def Filter.rename : Filter → Filter
  | .condition field operator value => .condition field operator (ρ value)
  | .group logic conditions => .group logic (Filter.renameAll conditions)
  | .range r => .range (r.rename ρ)
  | .regex field pattern options => .regex field (ρ pattern) (options.map ρ)
  | .textSearch t => .textSearch (t.rename ρ)
  | .geo g => .geo (g.rename ρ)
  | .array field operator value => .array field operator (ρ value)
  | .elemMatch field conditions => .elemMatch field (Filter.renameAll conditions)
  | .presence field present => .presence field present

/-- The filters with all their parameters renamed. -/
def Filter.renameAll : List Filter → List Filter
  | [] => []
  | f :: fs => Filter.rename f :: Filter.renameAll fs

end

/-- The slice with its numbers renamed. -/
def Slice.rename (s : Slice) : Slice := ⟨ρ s.count, s.skip.map ρ⟩

/-- The field of a projection with its parameters renamed. -/
def ProjectionField.rename (p : ProjectionField) : ProjectionField :=
  { p with
    slice := p.slice.map (Slice.rename ρ)
    elemMatch := p.elemMatch.map (Filter.renameAll ρ) }

/-- The projection with all its parameters renamed. -/
def Projection.rename (p : Projection) : Projection :=
  { p with fields := p.fields.map (ProjectionField.rename ρ) }

/-- The count of documents with its parameter renamed. -/
def Pagination.rename : Pagination → Pagination
  | .fixed n => .fixed n
  | .bound p => .bound (ρ p)

/-- The document with its parameters renamed. -/
def Document.rename (d : Document) : Document := ⟨d.fields.mapValues ρ⟩

/-- The update operation with its parameters renamed. -/
def UpdateOperation.rename (op : UpdateOperation) : UpdateOperation :=
  { op with fields := op.fields.mapValues (Option.map ρ) }

mutual

/-- The expression with all its parameters renamed. -/
def Expression.rename : Expression → Expression
  | .field f => .field f
  | .literal value => .literal (ρ value)
  | .operator name args => .operator name (Expression.renameAll args)
  | .conditional condition consequence alternative =>
    .conditional (Expression.rename condition) (Expression.rename consequence)
      (Expression.rename alternative)

/-- The expressions with all their parameters renamed. -/
def Expression.renameAll : List Expression → List Expression
  | [] => []
  | e :: es => Expression.rename e :: Expression.renameAll es

end

/-- The accumulator with its parameters renamed. -/
def Accumulator.rename (a : Accumulator) : Accumulator :=
  { a with expression := a.expression.map (Expression.rename ρ) }

mutual

/-- The stage with all its parameters renamed. -/
def Stage.rename : Stage → Stage
  | .filter f => .filter (f.rename ρ)
  | .project projection computed =>
    .project (projection.rename ρ) (computed.mapValues (Expression.rename ρ))
  | .group id accumulators =>
    .group (id.map (Expression.rename ρ)) (accumulators.mapValues (Accumulator.rename ρ))
  | .sort sorts => .sort sorts
  | .limit value => .limit (value.rename ρ)
  | .skip value => .skip (value.rename ρ)
  | .unwind path includeArrayIndex preserve => .unwind path includeArrayIndex preserve
  | .lookup source localField foreignField output pipeline bindings =>
    .lookup source localField foreignField output (Stage.renameAll pipeline)
      (bindings.mapValues (Expression.rename ρ))
  | .addFields fields => .addFields (fields.mapValues (Expression.rename ρ))
  | .replaceRoot newRoot => .replaceRoot (newRoot.rename ρ)
  | .count name => .count name
  | .facet facets => .facet (Stage.renameFacets facets)
  | .bucket groupBy boundaries fallback output =>
    .bucket (groupBy.rename ρ) (boundaries.map ρ) (fallback.map ρ)
      (output.mapValues (Accumulator.rename ρ))

/-- The stages with all their parameters renamed. -/
def Stage.renameAll : List Stage → List Stage
  | [] => []
  | s :: rest => Stage.rename s :: Stage.renameAll rest

/-- The facets with all their parameters renamed. -/
def Stage.renameFacets : List (String × List Stage) → List (String × List Stage)
  | [] => []
  | (name, stages) :: rest => (name, Stage.renameAll stages) :: Stage.renameFacets rest

end

namespace Stage

theorem kind_rename (s : Stage) : (s.rename ρ).kind = s.kind := by
  cases s <;> rfl

theorem isEmpty_renameAll (stages : List Stage) :
    (renameAll ρ stages).isEmpty = stages.isEmpty := by
  cases stages <;> rfl

theorem length_renameAll (stages : List Stage) : (renameAll ρ stages).length = stages.length := by
  induction stages with
  | nil => rfl
  | cons s rest ih => rw [renameAll, List.length_cons, List.length_cons, ih]

end Stage

/-- The query with all its parameters renamed. -/
def Query.rename (q : Query) : Query :=
  { q with
    filter := q.filter.map (Filter.rename ρ)
    projection := q.projection.map (Projection.rename ρ)
    skip := q.skip.map (Pagination.rename ρ)
    limit := q.limit.map (Pagination.rename ρ)
    documents := q.documents.map (Document.rename ρ)
    updates := q.updates.map (UpdateOperation.rename ρ)
    pipeline := Stage.renameAll ρ q.pipeline }

/-! ## Objects -/

/-- A placeholder is replaced by that of the new parameter, any other text is kept. -/
def renameText (s : String) : String :=
  match Param.ofPlaceholder? s with
  | some p => (ρ p).placeholder
  | none => s

namespace Json

mutual

/-- The value with the placeholders among its string values renamed. Keys are kept. -/
def rename : Json → Json
  | .str s => .str (renameText ρ s)
  | .arr items => .arr (renameItems items)
  | .obj entries => .obj (renameEntries entries)
  | .null => .null
  | .bool b => .bool b
  | .int n => .int n

/-- The values with their placeholders renamed. -/
def renameItems : List Json → List Json
  | [] => []
  | v :: vs => rename v :: renameItems vs

/-- The entries with the placeholders in their values renamed. -/
def renameEntries : Entries → Entries
  | [] => []
  | (k, v) :: es => (k, rename v) :: renameEntries es

end

end Json

/-- The rendered query with its placeholders and its parameters renamed. -/
def Rendered.rename (r : Rendered) : Rendered := ⟨r.body.rename ρ, r.params.map ρ⟩

theorem renameText_placeholder (p : Param) : renameText ρ p.placeholder = (ρ p).placeholder := by
  rw [renameText, Param.ofPlaceholder?_placeholder]

/-- Only texts that start with a colon are renamed. -/
theorem renameText_of_not_marked {s : String} (h : isMarked s = false) : renameText ρ s = s := by
  have hnone : Param.ofPlaceholder? s = none := by
    unfold Param.ofPlaceholder?
    unfold isMarked at h
    split
    · rename_i cs hs
      simp [hs] at h
    · rfl
  rw [renameText, hnone]

namespace Json

theorem rename_placeholder (p : Param) :
    (Json.str p.placeholder).rename ρ = .str (ρ p).placeholder := by
  rw [rename, renameText_placeholder]

theorem rename_str {s : String} (h : isMarked s = false) : (Json.str s).rename ρ = .str s := by
  rw [rename, renameText_of_not_marked ρ h]

theorem rename_identifier {s : String} (h : Identifier.Valid s) :
    (Json.str s).rename ρ = .str s := rename_str ρ h.not_marked

theorem rename_path (field : Field) : (Json.str field.path).rename ρ = .str field.path :=
  rename_str ρ field.path_valid.not_marked

theorem rename_operation (operation : Operation) :
    (Json.str operation.token).rename ρ = .str operation.token :=
  rename_str ρ (by cases operation <;> decide)

theorem renameItems_eq (vs : List Json) : renameItems ρ vs = vs.map (rename ρ) := by
  induction vs with
  | nil => rfl
  | cons v vs ih => rw [renameItems, ih, List.map_cons]

theorem renameEntries_eq (es : Entries) :
    renameEntries ρ es = es.map fun e => (e.1, e.2.rename ρ) := by
  induction es with
  | nil => rfl
  | cons e es ih => rw [renameEntries, ih, List.map_cons]

@[simp] theorem keys_renameEntries (es : Entries) :
    Entries.keys (renameEntries ρ es) = Entries.keys es := by
  simp [renameEntries_eq, Entries.keys, Function.comp_def]

@[simp] theorem renameEntries_append (es fs : Entries) :
    renameEntries ρ (es ++ fs) = renameEntries ρ es ++ renameEntries ρ fs := by
  simp [renameEntries_eq]

@[simp] theorem renameEntries_optional (key : String) (o : Option Json) :
    renameEntries ρ (Entries.optional key o) = Entries.optional key (o.map (rename ρ)) := by
  cases o <;> rfl

@[simp] theorem renameEntries_when (cond : Bool) (key : String) (v : Json) :
    renameEntries ρ (Entries.when cond key v) = Entries.when cond key (v.rename ρ) := by
  cases cond <;> rfl

theorem renameEntries_insert (key : String) (v : Json) (es : Entries) :
    renameEntries ρ (Entries.insert key v es) =
      Entries.insert key (v.rename ρ) (renameEntries ρ es) := by
  induction es with
  | nil => rfl
  | cons e es ih =>
    obtain ⟨k, w⟩ := e
    rw [Entries.insert, renameEntries, Entries.insert]
    split
    · rfl
    · rw [renameEntries, ih]

/-- Insertion looks at keys only, so it does not see the renaming. -/
@[simp] theorem rename_ofEntries (pairs : Entries) :
    (ofEntries pairs).rename ρ = ofEntries (renameEntries ρ pairs) := by
  have hfold : ∀ es : Entries,
      renameEntries ρ (pairs.foldl (fun es p => Entries.insert p.1 p.2 es) es) =
        (renameEntries ρ pairs).foldl (fun es p => Entries.insert p.1 p.2 es)
          (renameEntries ρ es) := by
    induction pairs with
    | nil => intro es; rfl
    | cons p pairs ih =>
      intro es
      rw [List.foldl_cons, ih, renameEntries_insert]
      rfl
  rw [ofEntries, rename, Entries.ofPairs, hfold]
  rfl

theorem get?_renameEntries (key : String) (es : Entries) :
    Entries.get? key (renameEntries ρ es) = (Entries.get? key es).map (rename ρ) := by
  induction es with
  | nil => rfl
  | cons e es ih =>
    obtain ⟨k, v⟩ := e
    rw [renameEntries, Entries.get?, Entries.get?]
    split
    · rfl
    · exact ih

end Json

namespace Json

mutual

theorem rename_of_not_marked : ∀ v : Json, (∀ s ∈ v.texts, isMarked s = false) → v.rename ρ = v
  | .str _, h => rename_str ρ (h _ List.mem_cons_self)
  | .arr items, h => congrArg arr (renameItems_of_not_marked items h)
  | .obj entries, h => congrArg obj (renameEntries_of_not_marked entries h)
  | .null, _ | .bool _, _ | .int _, _ => rfl

theorem renameItems_of_not_marked : ∀ vs : List Json, (∀ s ∈ textsOfAll vs, isMarked s = false) →
    renameItems ρ vs = vs
  | [], _ => rfl
  | v :: vs, h => by
    obtain ⟨hv, hvs⟩ := List.forall_mem_append.mp h
    rw [renameItems, rename_of_not_marked v hv, renameItems_of_not_marked vs hvs]

theorem renameEntries_of_not_marked : ∀ es : Entries,
    (∀ s ∈ textsOfEntries es, isMarked s = false) → renameEntries ρ es = es
  | [], _ => rfl
  | (_, v) :: es, h => by
    obtain ⟨hv, hes⟩ := List.forall_mem_append.mp h
    rw [renameEntries, rename_of_not_marked v hv, renameEntries_of_not_marked es hes]

end

end Json

namespace Writes

variable {dialect : Dialect} {v : Json} {es : Entries}

/-- What is written without binding a parameter has no placeholder. -/
theorem rename_eq (h : Writes dialect False v []) : v.rename ρ = v := by
  have hnone : v.placeholders = [] := List.subperm_nil.mp h.among
  refine Json.rename_of_not_marked ρ v fun s hs => ?_
  simpa using List.filter_eq_nil_iff.mp hnone s hs

theorem renameEntries_eq (h : Writes dialect False (.obj es) []) : Json.renameEntries ρ es = es :=
  Json.obj.inj (h.rename_eq ρ)

end Writes

end DocumentQuery

import DocumentQuery.Proofs.QueryParts
import DocumentQuery.Proofs.Tidy
import DocumentQuery.Proofs.Writing
/-!
# What documents and selections are written with

The parts that several dialects write alike: a document holds its values under
their paths, and a list of selected fields holds paths that were checked.

Results:
* `writes_document`, `writes_first_document`: a document, and that of an insertion.
* `writes_selection`: the paths that a projection selects.
-/
namespace DocumentQuery

variable {whole : Prop} {v : Json} {ps : List Param}

theorem writes_document {dialect : Dialect} {d : Document} (hd : whole → d.Tidy)
    (h : (Render.document d).Gives v ps) : Writes dialect whole v ps := by
  obtain ⟨rfl, rfl⟩ := Render.document_gives.mp h
  have hentries : Writes dialect whole (.obj d.entries) d.fields.values :=
    .obj_placeholders fun e _ => .path e.1.path_valid
  refine hentries.ofEntries fun hwhole => ?_
  have hkeys : Entries.keys d.entries = d.fields.keys.map Field.path := by
    simp [Document.entries, Entries.keys, OrderedMap.keys]
  rw [hkeys]
  exact hd hwhole

/-- The one document of an insertion, if there is one. -/
theorem writes_first_document {dialect : Dialect} {documents : List Document} {key : String}
    {o : Option Json} (hkey : dialect.Safe key) (hds : whole → ∀ d ∈ documents, d.Tidy)
    (h : (Render.optional Render.document documents.head?).Gives o ps) :
    Writes dialect whole (.obj (Entries.optional key o)) ps := by
  rcases Render.gives_optional.mp h with ⟨-, rfl, rfl⟩ | ⟨d, v, hd, rfl, hv⟩
  · exact .obj_nil
  · exact .single hkey (writes_document (fun hwhole => hds hwhole d (List.mem_of_head? hd)) hv)

theorem valid_of_selectedPaths {dialect : Dialect} {p : Projection} {paths : List String}
    (h : selectedPaths dialect p = .ok paths) : ∀ path ∈ paths, FieldPath.Valid path := by
  rw [selectedPaths, mapM_eq_ok_iff] at h
  generalize p.fields = fields at h
  induction h with
  | nil => simp
  | @cons f path fields paths hf _ ih =>
    refine List.forall_mem_cons.mpr ⟨?_, ih⟩
    split at hf
    · cases hf
    · split at hf
      · cases hf
      · split at hf
        · cases hf
        · cases hf
          exact f.field.path_valid

/-- The selected paths of a query, if it has a projection. -/
theorem valid_of_selection {dialect : Dialect} {o : Option Projection}
    {selected : Option (List String)} (h : o.mapM (selectedPaths dialect) = .ok selected) :
    ∀ path ∈ selected.getD [], FieldPath.Valid path := by
  cases o with
  | none =>
    cases h
    simp
  | some p =>
    obtain ⟨paths, hpaths, h⟩ := bind_eq_ok_iff.mp h
    obtain rfl := pure_eq_ok_iff.mp h
    exact valid_of_selectedPaths hpaths

theorem writes_selection {dialect : Dialect} {o : Option Projection}
    {selected : Option (List String)} (key : String) (hkey : dialect.Safe key)
    (h : o.mapM (selectedPaths dialect) = .ok selected) :
    Writes dialect whole (.obj (Entries.when (!(selected.getD []).isEmpty) key
      (.strings (selected.getD [])))) [] :=
  .obj_when hkey (fun _ => .arr_plain fun path hpath => .path (valid_of_selection h path hpath))
    fun _ => rfl

end DocumentQuery

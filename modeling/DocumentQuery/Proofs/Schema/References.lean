import DocumentQuery.Proofs.Schema.Catalog
/-!
# References of a catalog

A catalog checks the names in a schema one by one, and the path of a reference
as a whole. The two agree, since a path of identifiers is a field path. Hence a
catalog hands out a reference exactly for what it lists.

Results:
* `FieldPath.valid_fullPath`: a path of identifiers is a field path.
* `Catalog.collection_eq_ok_iff`, `Catalog.field_eq_ok_iff`: what a catalog
  hands out.
* `handed_out_iff_listed`: every listed collection and field can be referred to,
  and no other.
-/
namespace DocumentQuery

namespace FieldPath

/-- A path of identifiers is a field path. -/
theorem valid_fullPath : ∀ {names : List String}, names ≠ [] →
    (∀ n ∈ names, Identifier.Valid n) → Valid (FieldDefinition.fullPath names)
  | [], hne, _ => absurd rfl hne
  | [n], _, h => by
    rw [FieldDefinition.fullPath, String.intercalate_singleton]
    exact valid_of_identifier (h n List.mem_cons_self)
  | n :: m :: names, _, h => by
    obtain ⟨hn, hnames⟩ := List.forall_mem_cons.mp h
    rw [FieldDefinition.fullPath, String.intercalate_cons_cons]
    exact valid_append_dot hn (valid_fullPath (List.cons_ne_nil m names) hnames)

end FieldPath

/-! ## What a catalog hands out -/

theorem Collection.ofName_eq_ok_iff {name : String} {k : Collection} :
    Collection.ofName name = .ok k ↔ k.name = name := by
  unfold Collection.ofName
  constructor
  · intro h
    split at h
    · cases h
      rfl
    · cases h
  · rintro rfl
    have hvalid : Identifier.fault? k.name = none := k.valid
    split
    · rfl
    · rename_i fault hfault
      cases hvalid.symm.trans hfault

theorem Field.ofPath_eq_ok_iff {collection path : String} {f : Field} :
    Field.ofPath collection path = .ok f ↔ f.collection = collection ∧ f.path = path := by
  unfold Field.ofPath
  constructor
  · intro h
    split at h
    · cases h
    · split at h
      · cases h
      · cases h
        exact ⟨rfl, rfl⟩
  · rintro ⟨rfl, rfl⟩
    have hcollection : Identifier.fault? f.collection = none := f.collection_valid
    have hpath : FieldPath.fault? f.path = none := f.path_valid
    split
    · rename_i fault hfault
      cases hcollection.symm.trans hfault
    · split
      · rename_i fault hfault
        cases hpath.symm.trans hfault
      · rfl

namespace Catalog

variable {c : Catalog} {name path : String}

theorem hasCollection_iff : c.hasCollection name = true ↔ name ∈ c.collectionNames := by
  rw [hasCollection, Option.isSome_iff_ne_none, ne_eq, table?_eq_none_iff, not_not]

theorem collection_eq_ok_iff {k : Collection} :
    c.collection name = .ok k ↔ k.name = name ∧ name ∈ c.collectionNames := by
  rw [collection, bind_eq_ok_iff]
  simp only [Collection.ofName_eq_ok_iff, ← hasCollection_iff]
  by_cases h : c.hasCollection name = true
  · simp only [h, if_true, pure_eq_ok_iff, and_true]
    constructor
    · rintro ⟨_, hname, rfl⟩
      exact hname
    · intro hname
      exact ⟨k, hname, rfl⟩
  · simp only [h, Bool.false_eq_true, if_false, and_false, iff_false]
    rintro ⟨_, -, hthrow⟩
    cases hthrow

theorem field_eq_ok_iff {f : Field} : c.field name path = .ok f ↔
    f.collection = name ∧ f.path = path ∧ name ∈ c.collectionNames ∧ path ∈ c.fieldPaths name := by
  rw [field, bind_eq_ok_iff]
  simp only [Field.ofPath_eq_ok_iff, bind_eq_ok_iff, collection_eq_ok_iff,
    ← hasField_iff_mem_fieldPaths]
  by_cases h : c.hasField name path = true
  · simp only [h, if_true, pure_eq_ok_iff, and_true]
    constructor
    · rintro ⟨_, ⟨hcollection, hpath⟩, _, ⟨-, hmem⟩, rfl⟩
      exact ⟨hcollection, hpath, hmem⟩
    · rintro ⟨rfl, rfl, hmem⟩
      exact ⟨f, ⟨rfl, rfl⟩, ⟨f.collection, f.collection_valid⟩, ⟨rfl, hmem⟩, rfl⟩
  · simp only [h, Bool.false_eq_true, if_false, and_false, iff_false]
    rintro ⟨_, -, _, -, hthrow⟩
    cases hthrow

variable {s : Schema}

/-- The names of a schema that has a catalog are identifiers, so all of its paths can be used. -/
theorem valid_of_mem_fieldPaths (h : ofSchema s = .ok c) (hpath : path ∈ c.fieldPaths name) :
    FieldPath.Valid path := by
  obtain ⟨names, e, ⟨d, hd, -, hreach⟩, rfl⟩ := (mem_fieldPaths_iff h).mp hpath
  have hwell : s.WellFormed := ofSchema_isOk_iff.mp ⟨c, h⟩
  exact FieldPath.valid_fullPath hreach.ne_nil (hreach.valid_names (hwell.fields_valid d hd))

theorem valid_of_mem_collectionNames (h : ofSchema s = .ok c) (hname : name ∈ c.collectionNames) :
    Identifier.Valid name := by
  rw [collectionNames_of_ofSchema h] at hname
  obtain ⟨d, hd, rfl⟩ := List.mem_map.mp hname
  have hwell : s.WellFormed := ofSchema_isOk_iff.mp ⟨c, h⟩
  exact hwell.collections_valid d hd

end Catalog

/-- The catalog of a schema hands out a collection exactly if it lists the name, and a field exactly
if it lists the collection and, for it, the path. The reference is to just that collection or field.
Every path that is listed is a field path as a whole, however deep the definition lies. -/
theorem handed_out_iff_listed {s : Schema} {c : Catalog} (h : Catalog.ofSchema s = .ok c)
    (name path : String) :
    ((∃ k, c.collection name = .ok k) ↔ name ∈ c.collectionNames) ∧
    (∀ k, c.collection name = .ok k → k.name = name) ∧
    ((∃ f, c.field name path = .ok f) ↔
      name ∈ c.collectionNames ∧ path ∈ c.fieldPaths name) ∧
    (∀ f, c.field name path = .ok f → f.collection = name ∧ f.path = path) ∧
    (path ∈ c.fieldPaths name → FieldPath.Valid path) := by
  simp only [Catalog.collection_eq_ok_iff, Catalog.field_eq_ok_iff]
  refine ⟨⟨?_, fun hname => ?_⟩, fun k hk => hk.1, ⟨?_, fun hfield => ?_⟩,
    fun f hf => ⟨hf.1, hf.2.1⟩, Catalog.valid_of_mem_fieldPaths h⟩
  · rintro ⟨_, -, hname⟩
    exact hname
  · exact ⟨⟨name, Catalog.valid_of_mem_collectionNames h hname⟩, rfl, hname⟩
  · rintro ⟨_, -, -, hfield⟩
    exact hfield
  · obtain ⟨hname, hpath⟩ := hfield
    exact ⟨⟨path, name, Catalog.valid_of_mem_fieldPaths h hpath,
      Catalog.valid_of_mem_collectionNames h hname⟩, rfl, rfl, hname, hpath⟩

theorem handed_out_iff_listed_orders : ∃ c f, Catalog.ofSchema Schema.orders = .ok c ∧
    c.field "orders" "lines.article.name" = .ok f ∧ f.collection = "orders" ∧
    f.path = "lines.article.name" ∧ ¬ ∃ f, c.field "orders" "note.no name" = .ok f := by
  have hreach : Schema.orders.Reaches "orders" ["lines", "article", "name"]
      (FieldDefinition.ofType "name" .string) :=
    ⟨_, List.mem_cons_self, rfl, .child List.mem_cons_self
      (.child (d := Schema.article) List.mem_cons_self (.here List.mem_cons_self))⟩
  obtain ⟨c, hc⟩ : ∃ c, Catalog.ofSchema Schema.orders = .ok c := ⟨_, rfl⟩
  have hpath : "lines.article.name" ∈ c.fieldPaths "orders" :=
    (Catalog.mem_fieldPaths_iff hc).mpr ⟨_, _, hreach, rfl⟩
  have hname : "orders" ∈ c.collectionNames := by
    rw [Catalog.collectionNames_of_ofSchema hc]
    exact List.mem_cons_self
  obtain ⟨-, -, hfield, hsame, -⟩ := handed_out_iff_listed hc "orders" "lines.article.name"
  obtain ⟨f, hf⟩ := hfield.mpr ⟨hname, hpath⟩
  obtain ⟨hcollection, hfpath⟩ := hsame f hf
  refine ⟨c, f, hc, hf, hcollection, hfpath, fun hnote => ?_⟩
  obtain ⟨-, -, hiff, -, hvalid⟩ := handed_out_iff_listed hc "orders" "note.no name"
  have hnot : ¬ FieldPath.Valid "note.no name" := by decide +kernel
  exact hnot (hvalid (hiff.mp hnote).2)

end DocumentQuery

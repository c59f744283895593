import DocumentQuery.Proofs.Schema.Index
/-!
# What a catalog lists

A catalog is built collection by collection, each under its own name
(`addAll_eq_ok_iff`). So it exists exactly for the schemas that are well formed,
lists the reachable definitions at their full paths, and answers questions about
a path with the one definition that is there (`catalog_exact`). Definitions that
are not reachable can be left out (`ofSchema_trimmed`).

Main definitions:
* `Schema.WellFormed`: names are identifiers, and no two collections or sibling
  fields have the same one.
* `Schema.Reaches`: the names lead from a collection to a definition.
* `Schema.trimmed`: the schema without the definitions that are not reachable.
-/
namespace DocumentQuery

namespace Schema

/-- All names are identifiers, and those of collections and of siblings are distinct. -/
structure WellFormed (s : Schema) : Prop where
  collections_valid : ∀ d ∈ s.collections, Identifier.Valid d.name
  collections_distinct : (s.collections.map CollectionDefinition.name).Nodup
  fields_valid : ∀ d ∈ s.collections, ∀ names e, FieldDefinition.Reaches d.fields names e →
    Identifier.Valid e.name
  fields_distinct : ∀ d ∈ s.collections, FieldDefinition.Distinct d.fields

/-- The names lead from the fields of the collection to the definition. -/
def Reaches (s : Schema) (collection : String) (names : List String) (e : FieldDefinition) : Prop :=
  ∃ d ∈ s.collections, d.name = collection ∧ FieldDefinition.Reaches d.fields names e

end Schema

namespace Catalog

/-! ## Collection by collection -/

/-- The entry has the table of the collection under its name. -/
def Tabulates (d : CollectionDefinition) (entry : String × FieldTable) : Prop :=
  entry.1 = d.name ∧ FieldDefinition.indexAll d.name none ∅ d.fields = .ok entry.2

theorem table?_eq_none_iff {c : Catalog} {collection : String} :
    c.table? collection = none ↔ collection ∉ c.collectionNames := lookup_eq_none_iff

theorem addCollection_eq_ok_iff {c c' : Catalog} {d : CollectionDefinition} :
    c.addCollection d = .ok c' ↔ Identifier.Valid d.name ∧ d.name ∉ c.collectionNames ∧
      ∃ entry, Tabulates d entry ∧ c'.tables = c.tables ++ [entry] := by
  rw [← table?_eq_none_iff, addCollection, Identifier.Valid]
  cases Identifier.fault? d.name with
  | some fault => simp
  | none =>
    cases c.table? d.name with
    | some table => simp
    | none =>
      obtain ⟨tables⟩ := c'
      cases hindex : FieldDefinition.indexAll d.name none ∅ d.fields with
      | error fault => simp [Tabulates, hindex, Except.map]
      | ok table =>
        simp only [Tabulates, hindex, Except.map, Option.isSome_none, Bool.false_eq_true, if_false,
          Except.ok.injEq, true_and, Prod.exists]
        constructor
        · intro h
          cases h
          exact ⟨d.name, table, ⟨rfl, rfl⟩, rfl⟩
        · rintro ⟨_, _, ⟨rfl, rfl⟩, rfl⟩
          rfl

theorem collectionNames_of_tabulates {c c' : Catalog} {d : CollectionDefinition}
    {entry : String × FieldTable} (hentry : Tabulates d entry)
    (htables : c'.tables = c.tables ++ [entry]) :
    c'.collectionNames = c.collectionNames ++ [d.name] := by
  simp [collectionNames, htables, hentry.1]

theorem addAll_cons_eq_ok_iff {c c' : Catalog} {d : CollectionDefinition}
    {ds : List CollectionDefinition} :
    c.addAll (d :: ds) = .ok c' ↔
      ∃ next, c.addCollection d = .ok next ∧ next.addAll ds = .ok c' := by
  rw [addAll, ← bind_eq_ok_iff]
  cases c.addCollection d <;> rfl

/-- A list of collections is added exactly if their names are identifiers, distinct and new, and
each has a table. -/
theorem addAll_eq_ok_iff {ds : List CollectionDefinition} : ∀ {c c' : Catalog},
    c.collectionNames.Nodup → (c.addAll ds = .ok c' ↔
      (∀ d ∈ ds, Identifier.Valid d.name) ∧
      (c.collectionNames ++ ds.map CollectionDefinition.name).Nodup ∧
      ∃ entries, List.Forall₂ Tabulates ds entries ∧ c'.tables = c.tables ++ entries) := by
  induction ds with
  | nil =>
    rintro ⟨tables⟩ ⟨tables'⟩ hc
    have hnil : (collectionNames ⟨tables⟩ ++ [].map CollectionDefinition.name).Nodup := by
      simpa using hc
    simp only [addAll, hnil, Except.ok.injEq, mk.injEq, List.forall₂_nil_left_iff, exists_eq_left,
      List.append_nil, List.not_mem_nil, false_implies, implies_true, true_and]
    exact eq_comm
  | cons d ds ih =>
    intro c c' hc
    rw [addAll_cons_eq_ok_iff, List.forall_mem_cons, List.map_cons,
      ← List.singleton_append, ← List.append_assoc]
    -- the first name moves from those still to be added to those that are there
    constructor
    · rintro ⟨next, hnext, hrest⟩
      obtain ⟨hvalid, hnew, entry, hentry, htables⟩ := addCollection_eq_ok_iff.mp hnext
      have hnames := collectionNames_of_tabulates hentry htables
      have hnodup : next.collectionNames.Nodup := by
        rw [hnames, ← List.concat_eq_append]
        exact hc.concat hnew
      obtain ⟨hvalids, hall, entries, hentries, htables'⟩ := (ih hnodup).mp hrest
      refine ⟨⟨hvalid, hvalids⟩, hnames ▸ hall, entry :: entries, .cons hentry hentries, ?_⟩
      rw [htables', htables, List.append_assoc, List.singleton_append]
    · rintro ⟨⟨hvalid, hvalids⟩, hall, entries, hentries, htables⟩
      obtain ⟨entry, rest, hentry, hrest, rfl⟩ := List.forall₂_cons_left_iff.mp hentries
      have hnames : (collectionNames ⟨c.tables ++ [entry]⟩) = c.collectionNames ++ [d.name] :=
        collectionNames_of_tabulates hentry rfl
      have hnodup : (c.collectionNames ++ [d.name]).Nodup := hall.of_append_left
      have hnew : d.name ∉ c.collectionNames := fun hmem =>
        List.disjoint_of_nodup_append hnodup hmem List.mem_cons_self
      refine ⟨⟨c.tables ++ [entry]⟩, addCollection_eq_ok_iff.mpr ⟨hvalid, hnew, entry, hentry, rfl⟩,
        (ih (hnames ▸ hnodup)).mpr ⟨hvalids, hnames ▸ hall, rest, hrest, ?_⟩⟩
      rw [htables, List.append_assoc, List.singleton_append]

/-! ## Catalogs of schemas -/

section Schema

variable {s : Schema} {c : Catalog}

theorem ofSchema_eq_ok_iff : ofSchema s = .ok c ↔
    (∀ d ∈ s.collections, Identifier.Valid d.name) ∧
    (s.collections.map CollectionDefinition.name).Nodup ∧
    List.Forall₂ Tabulates s.collections c.tables := by
  have hall : ofSchema s = .ok c ↔ addAll ⟨[]⟩ s.collections = .ok c := by
    rw [ofSchema]
    cases addAll ⟨[]⟩ s.collections <;> simp
  have hempty : collectionNames ⟨[]⟩ = [] := rfl
  rw [hall, addAll_eq_ok_iff (hempty ▸ List.nodup_nil)]
  simp [hempty]

/-- Whatever is wrong, it is the schema that is. -/
theorem schema_of_ofSchema_eq_error {e : Error} (h : ofSchema s = .error e) :
    ∃ fault, e = .schema fault := by
  rw [ofSchema] at h
  cases hall : addAll ⟨[]⟩ s.collections with
  | error fault =>
    rw [hall] at h
    cases h
    exact ⟨fault, rfl⟩
  | ok c =>
    rw [hall] at h
    cases h

theorem exists_tabulates_iff {d : CollectionDefinition} : (∃ entry, Tabulates d entry) ↔
    (∀ names e, FieldDefinition.Reaches d.fields names e → Identifier.Valid e.name) ∧
      FieldDefinition.Distinct d.fields := by
  rw [← FieldDefinition.indexAll_isOk_iff d.name d.fields]
  constructor
  · rintro ⟨entry, -, h⟩
    exact ⟨entry.2, h⟩
  · rintro ⟨table, h⟩
    exact ⟨(d.name, table), rfl, h⟩

/-- The schemas that have a catalog are those that are well formed. -/
theorem ofSchema_isOk_iff : (∃ c, ofSchema s = .ok c) ↔ s.WellFormed := by
  have htables : (∃ c, ofSchema s = .ok c) ↔ (∀ d ∈ s.collections, Identifier.Valid d.name) ∧
      (s.collections.map CollectionDefinition.name).Nodup ∧
      ∃ entries, List.Forall₂ Tabulates s.collections entries := by
    simp only [ofSchema_eq_ok_iff]
    constructor
    · rintro ⟨c, hvalid, hnodup, h⟩
      exact ⟨hvalid, hnodup, c.tables, h⟩
    · rintro ⟨hvalid, hnodup, entries, h⟩
      exact ⟨⟨entries⟩, hvalid, hnodup, h⟩
  rw [htables, exists_forall₂_iff]
  simp only [exists_tabulates_iff]
  constructor
  · rintro ⟨hvalid, hnodup, hfields⟩
    exact ⟨hvalid, hnodup, fun d hd => (hfields d hd).1, fun d hd => (hfields d hd).2⟩
  · intro h
    exact ⟨h.collections_valid, h.collections_distinct,
      fun d hd => ⟨h.fields_valid d hd, h.fields_distinct d hd⟩⟩

/-! ## What is listed -/

theorem collectionNames_of_forall₂ {ds : List CollectionDefinition}
    {entries : List (String × FieldTable)} (h : List.Forall₂ Tabulates ds entries) :
    entries.map Prod.fst = ds.map CollectionDefinition.name := by
  induction h with
  | nil => rfl
  | cons hentry _ ih => rw [List.map_cons, List.map_cons, ih, hentry.1]

/-- The collections are listed in the order of their definition. -/
theorem collectionNames_of_ofSchema (h : ofSchema s = .ok c) :
    c.collectionNames = s.collections.map CollectionDefinition.name :=
  collectionNames_of_forall₂ (ofSchema_eq_ok_iff.mp h).2.2

theorem Tabulates.unique {d : CollectionDefinition} {entry entry' : String × FieldTable}
    (h : Tabulates d entry) (h' : Tabulates d entry') : entry = entry' := by
  have htable := h.2.symm.trans h'.2
  exact Prod.ext (h.1.trans h'.1.symm) (Except.ok.inj htable)

theorem mem_iff_of_forall₂ {ds : List CollectionDefinition} {entries : List (String × FieldTable)}
    (h : List.Forall₂ Tabulates ds entries) {entry : String × FieldTable} :
    entry ∈ entries ↔ ∃ d ∈ ds, Tabulates d entry := by
  induction h with
  | nil => simp
  | cons hentry _ ih =>
    rw [List.mem_cons, ih, List.exists_mem_cons_iff]
    refine or_congr_left ⟨?_, fun h => h.unique hentry⟩
    rintro rfl
    exact hentry

theorem table?_eq_some_iff (h : ofSchema s = .ok c) {collection : String} {table : FieldTable} :
    c.table? collection = some table ↔ ∃ d ∈ s.collections, d.name = collection ∧
      FieldDefinition.indexAll d.name none ∅ d.fields = .ok table := by
  obtain ⟨-, hnodup, htables⟩ := ofSchema_eq_ok_iff.mp h
  rw [← collectionNames_of_forall₂ htables] at hnodup
  rw [table?, lookup_eq_some_iff hnodup, mem_iff_of_forall₂ htables]
  simp only [Tabulates, eq_comm]

/-- What is known of the field at a path is what its definition says. -/
theorem info?_eq_some_iff (h : ofSchema s = .ok c) {collection path : String} {i : FieldInfo} :
    c.info? collection path = some i ↔ ∃ names e, s.Reaches collection names e ∧
      path = FieldDefinition.fullPath names ∧ i = e.info := by
  have hinfo : c.info? collection path = some i ↔
      ∃ table, c.table? collection = some table ∧ (path, i) ∈ table.entries := by
    simp only [info?, Option.bind_eq_some_iff, OrderedMap.get?_eq_some_iff]
  rw [hinfo]
  constructor
  · rintro ⟨table, htable, hmem⟩
    obtain ⟨d, hd, hname, hindex⟩ := (table?_eq_some_iff h).mp htable
    obtain ⟨names, e, hreach, hpath, hi⟩ := (FieldDefinition.mem_entries_of_indexAll hindex).mp hmem
    exact ⟨names, e, ⟨d, hd, hname, hreach⟩, hpath, hi⟩
  · rintro ⟨names, e, ⟨d, hd, hname, hreach⟩, hpath, hi⟩
    have hwell := ofSchema_isOk_iff.mp ⟨c, h⟩
    obtain ⟨table, hindex⟩ := (FieldDefinition.indexAll_isOk_iff d.name d.fields).mpr
      ⟨hwell.fields_valid d hd, hwell.fields_distinct d hd⟩
    exact ⟨table, (table?_eq_some_iff h).mpr ⟨d, hd, hname, hindex⟩,
      (FieldDefinition.mem_entries_of_indexAll hindex).mpr ⟨names, e, hreach, hpath, hi⟩⟩

theorem hasField_iff_mem_fieldPaths {collection path : String} :
    c.hasField collection path = true ↔ path ∈ c.fieldPaths collection := by
  rw [hasField, info?, fieldPaths]
  cases c.table? collection with
  | none => simp
  | some table =>
    rw [Option.bind_some, Option.map_some, Option.getD_some, Option.isSome_iff_ne_none, ne_eq,
      OrderedMap.get?_eq_none_iff, not_not]

theorem fieldPaths_pairwise {collection : String} :
    (c.fieldPaths collection).Pairwise (· < ·) := by
  rw [fieldPaths]
  cases c.table? collection with
  | none => exact .nil
  | some table => exact List.pairwise_map.mpr table.ordered

/-- The paths are those of the reachable definitions. -/
theorem mem_fieldPaths_iff (h : ofSchema s = .ok c) {collection path : String} :
    path ∈ c.fieldPaths collection ↔
      ∃ names e, s.Reaches collection names e ∧ path = FieldDefinition.fullPath names := by
  rw [← hasField_iff_mem_fieldPaths, hasField, Option.isSome_iff_exists]
  simp only [info?_eq_some_iff h]
  constructor
  · rintro ⟨_, names, e, hreach, hpath, -⟩
    exact ⟨names, e, hreach, hpath⟩
  · rintro ⟨names, e, hreach, hpath⟩
    exact ⟨e.info, names, e, hreach, hpath, rfl⟩

end Schema

end Catalog

namespace Schema

/-! ## Schemas that have a catalog -/

/-- The path gives back the names, and the definition they lead to. -/
theorem WellFormed.reaches_unique {s : Schema} (h : s.WellFormed) {collection : String}
    {names names' : List String} {e e' : FieldDefinition} (he : s.Reaches collection names e)
    (he' : s.Reaches collection names' e')
    (hpath : FieldDefinition.fullPath names = FieldDefinition.fullPath names') :
    names = names' ∧ e = e' := by
  obtain ⟨d, hd, hname, hreach⟩ := he
  obtain ⟨d', hd', hname', hreach'⟩ := he'
  obtain rfl : d = d' :=
    List.inj_on_of_nodup_map h.collections_distinct hd hd' (hname.trans hname'.symm)
  have hvalid := h.fields_valid d hd
  obtain rfl : names = names' := FieldDefinition.fullPath_injective hreach.ne_nil hreach'.ne_nil
    (hreach.valid_names hvalid) (hreach'.valid_names hvalid) hpath
  exact ⟨rfl, (h.fields_distinct d hd).reaches_unique hreach hreach'⟩

/-- The schema without the definitions that are not reachable. -/
def trimmed (s : Schema) : Schema :=
  ⟨s.collections.map fun d => ⟨d.name, FieldDefinition.trimmedAll d.fields⟩⟩

end Schema

namespace Catalog

theorem addAll_trimmed (ds : List CollectionDefinition) : ∀ c : Catalog,
    c.addAll (ds.map fun d => ⟨d.name, FieldDefinition.trimmedAll d.fields⟩) = c.addAll ds := by
  induction ds with
  | nil =>
    intro c
    rfl
  | cons d ds ih =>
    intro c
    have hfirst : c.addCollection ⟨d.name, FieldDefinition.trimmedAll d.fields⟩ =
        c.addCollection d := by
      simp only [addCollection, FieldDefinition.indexAll_trimmedAll]
    simp only [List.map_cons, addAll, hfirst, ih]

/-- Definitions that are not reachable have no influence. -/
theorem ofSchema_trimmed (s : Schema) : ofSchema s.trimmed = ofSchema s := by
  rw [ofSchema, ofSchema, Schema.trimmed, addAll_trimmed]

end Catalog

/-- A catalog exists exactly for a schema that is well formed. It lists the collections in the order
of their definition, and for each the paths of its reachable definitions, in increasing order. What
it says of the field at such a path is what the one definition there says, and it knows nothing of
other paths. Definitions that are not reachable have no influence. -/
theorem catalog_exact (s : Schema) :
    ((∃ c, Catalog.ofSchema s = .ok c) ↔ s.WellFormed) ∧
    (∀ e, Catalog.ofSchema s = .error e → ∃ fault, e = .schema fault) ∧
    (∀ c, Catalog.ofSchema s = .ok c →
      c.collectionNames = s.collections.map CollectionDefinition.name ∧
      ∀ collection,
        (c.fieldPaths collection).Pairwise (· < ·) ∧
        (∀ path, path ∈ c.fieldPaths collection ↔
          ∃ names e, s.Reaches collection names e ∧ path = FieldDefinition.fullPath names) ∧
        (∀ path, c.hasField collection path = true ↔ path ∈ c.fieldPaths collection) ∧
        (∀ names e, s.Reaches collection names e →
          c.fieldType? collection (FieldDefinition.fullPath names) = some e.type ∧
          c.isRequired collection (FieldDefinition.fullPath names) = e.required ∧
          ∀ names' e', s.Reaches collection names' e' →
            FieldDefinition.fullPath names' = FieldDefinition.fullPath names →
              names' = names ∧ e' = e) ∧
        (∀ path, path ∉ c.fieldPaths collection →
          c.fieldType? collection path = none ∧ c.isRequired collection path = false)) ∧
    Catalog.ofSchema s.trimmed = Catalog.ofSchema s := by
  refine ⟨Catalog.ofSchema_isOk_iff, fun e => Catalog.schema_of_ofSchema_eq_error, ?_,
    Catalog.ofSchema_trimmed s⟩
  intro c hc
  refine ⟨Catalog.collectionNames_of_ofSchema hc, fun collection => ⟨Catalog.fieldPaths_pairwise,
    fun path => Catalog.mem_fieldPaths_iff hc, fun path => Catalog.hasField_iff_mem_fieldPaths,
    ?_, ?_⟩⟩
  · intro names e hreach
    have hinfo : c.info? collection (FieldDefinition.fullPath names) = some e.info :=
      (Catalog.info?_eq_some_iff hc).mpr ⟨names, e, hreach, rfl, rfl⟩
    refine ⟨?_, ?_, fun names' e' hreach' hpath => ?_⟩
    · rw [Catalog.fieldType?, hinfo]
      rfl
    · rw [Catalog.isRequired, hinfo]
      rfl
    · have hwell : s.WellFormed := Catalog.ofSchema_isOk_iff.mp ⟨c, hc⟩
      exact hwell.reaches_unique hreach' hreach hpath
  · intro path hpath
    have hinfo : c.info? collection path = none := by
      rw [← Catalog.hasField_iff_mem_fieldPaths, Catalog.hasField, Bool.not_eq_true,
        Option.isSome_eq_false_iff, Option.isNone_iff_eq_none] at hpath
      exact hpath
    rw [Catalog.fieldType?, Catalog.isRequired, hinfo]
    exact ⟨rfl, rfl⟩

namespace Schema

/-- The article of a line, which has a name. -/
def article : FieldDefinition :=
  (FieldDefinition.ofFields "article" [FieldDefinition.ofType "name" .string]).asRequired

/-- Orders have lines with an article each. The definition inside the note does not count, so its
name need not be an identifier. -/
def orders : Schema :=
  ⟨[⟨"orders", [.arrayOfObjects "lines" [article],
    .mk "note" .string false [FieldDefinition.ofType "no name" .int] none]⟩]⟩

end Schema

theorem catalog_exact_orders : ∃ c, Catalog.ofSchema Schema.orders = .ok c ∧
    "lines.article" ∈ c.fieldPaths "orders" ∧
    c.fieldType? "orders" "lines.article" = some .object ∧
    c.isRequired "orders" "lines.article" = true := by
  have hok : (Catalog.ofSchema Schema.orders).isOk = true := rfl
  have harticle : Schema.orders.Reaches "orders" ["lines", "article"] Schema.article :=
    ⟨_, List.mem_cons_self, rfl, .child List.mem_cons_self (.here List.mem_cons_self)⟩
  cases hc : Catalog.ofSchema Schema.orders with
  | error e =>
    rw [hc] at hok
    cases hok
  | ok c =>
    obtain ⟨-, hcollection⟩ := (catalog_exact Schema.orders).2.2.1 c hc
    obtain ⟨-, hpaths, -, hfields, -⟩ := hcollection "orders"
    obtain ⟨htype, hrequired, -⟩ := hfields ["lines", "article"] Schema.article harticle
    exact ⟨c, rfl, (hpaths _).mpr ⟨_, _, harticle, rfl⟩, htype, hrequired⟩

end DocumentQuery

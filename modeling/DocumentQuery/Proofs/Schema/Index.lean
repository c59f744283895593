import DocumentQuery.Proofs.OrderedMap
import DocumentQuery.Proofs.Schema.Reachable
import DocumentQuery.Proofs.Steps
/-!
# Indexed definitions

Indexing a list of definitions adds the reachable ones to a table, parents before
children, each at its full path (`indexAll_eq_addRows`). That fails at the first
name that is no identifier and at the first path that is there already
(`addRows_isOk_iff`). Paths of identifiers collide only if names do, so it
succeeds exactly if all names are identifiers and siblings are distinct
(`indexAll_isOk_iff`), and then the table has one entry for each reachable
definition (`mem_entries_of_indexAll`).
-/
namespace DocumentQuery

namespace FieldDefinition

/-! ## Paths below a parent -/

/-- The path of the names below a parent, if there is one. -/
def pathBelow (parent : Option String) (names : List String) : String :=
  fullPath (parent.toList ++ names)

theorem joinPath_eq (parent : Option String) (name : String) :
    joinPath parent name = pathBelow parent [name] := by
  cases parent with
  | none => rfl
  | some p => simp [joinPath, pathBelow, fullPath, String.intercalate_cons_cons]

theorem pathBelow_joinPath (parent : Option String) (name : String) (names : List String) :
    pathBelow (some (joinPath parent name)) names = pathBelow parent (name :: names) := by
  cases parent with
  | none => rfl
  | some p =>
    cases names with
    | nil => simp [joinPath, pathBelow, fullPath, String.intercalate_cons_cons]
    | cons n names =>
      simp [joinPath, pathBelow, fullPath, String.intercalate_cons_cons, String.append_assoc]

/-! ## Indexing by the listing -/

/-- What is known of the field that is defined. -/
def info (d : FieldDefinition) : FieldInfo := ⟨d.type, d.required⟩

/-- Adds the field of a definition at a new path. -/
def addAt (collection path : String) (table : FieldTable) (d : FieldDefinition) :
    Except SchemaFault FieldTable :=
  match Identifier.fault? d.name with
  | some fault => .error (.invalidField d.name collection fault)
  | none =>
    if (table.get? path).isSome then .error (.duplicateField path collection)
    else .ok (table.insert path d.info)

theorem addField_eq (collection : String) (parent : Option String) (table : FieldTable)
    (d : FieldDefinition) :
    addField collection parent d.name d.info table =
      addAt collection (pathBelow parent [d.name]) table d := by
  rw [← joinPath_eq]
  rfl

/-- A definition is added before its children; one without any adds nothing else. -/
theorem index_eq (collection : String) (parent : Option String) (table : FieldTable)
    (d : FieldDefinition) :
    index collection parent table d = (do
      let table ← addAt collection (pathBelow parent [d.name]) table d
      indexAll collection (some (joinPath parent d.name)) table d.children) := by
  obtain ⟨name, type, required, fields, items⟩ := d
  have hnil (t : FieldTable) :
      .ok t = indexAll collection (some (joinPath parent name)) t [] := by
    rw [indexAll]
  rw [← addField_eq, index]
  -- the definition matches on the result where the statement binds it
  change _ = (addField collection parent name ⟨type, required⟩ table).bind _
  cases addField collection parent name ⟨type, required⟩ table with
  | error fault => rfl
  | ok table =>
    cases type with
    | object => rfl
    | array =>
      rcases items with _ | ⟨type, fields⟩
      · exact hnil table
      · cases type
        case object => rfl
        all_goals exact hnil table
    | _ => exact hnil table

/-- A definition is indexed before its children, and these before the definitions after it. -/
theorem indexAll_cons (collection : String) (parent : Option String) (table : FieldTable)
    (d : FieldDefinition) (ds : List FieldDefinition) :
    indexAll collection parent table (d :: ds) = (do
      let table ← addAt collection (pathBelow parent [d.name]) table d
      let table ← indexAll collection (some (joinPath parent d.name)) table d.children
      indexAll collection parent table ds) := by
  rw [indexAll, ← bind_assoc, ← index_eq]
  cases index collection parent table d <;> rfl

/-- The fields of definitions, each at its own path, added in turn. -/
def addRows (collection : String) (table : FieldTable) (rows : List (String × FieldDefinition)) :
    Except SchemaFault FieldTable :=
  rows.foldlM (fun t row => addAt collection row.1 t row.2) table

/-- The definitions that are listed, each with its path below a parent. -/
def rowsBelow (parent : Option String) (ds : List FieldDefinition) :
    List (String × FieldDefinition) :=
  (listingOfAll ds).map fun e => (pathBelow parent e.1, e.2)

theorem rowsBelow_cons (parent : Option String) (d : FieldDefinition) (ds : List FieldDefinition) :
    rowsBelow parent (d :: ds) = (pathBelow parent [d.name], d) ::
      rowsBelow (some (joinPath parent d.name)) d.children ++ rowsBelow parent ds := by
  simp [rowsBelow, listingOfAll_cons, pathBelow_joinPath]

/-- Indexing adds what is listed. -/
theorem indexAll_eq_addRows (collection : String) (ds : List FieldDefinition) :
    ∀ (parent : Option String) (table : FieldTable),
      indexAll collection parent table ds = addRows collection table (rowsBelow parent ds) := by
  induction ds using induction_on_children with
  | nil =>
    intro parent table
    rw [indexAll]
    rfl
  | cons d ds ihchildren ihrest =>
    intro parent table
    rw [indexAll_cons, rowsBelow_cons]
    simp only [ihchildren, ihrest, addRows, List.cons_append, List.foldlM_cons,
      List.foldlM_append]

/-- What does not count inside a definition is not looked at. -/
theorem indexAll_trimmedAll (collection : String) (ds : List FieldDefinition) :
    ∀ (parent : Option String) (table : FieldTable),
      indexAll collection parent table (trimmedAll ds) = indexAll collection parent table ds := by
  induction ds using induction_on_children with
  | nil =>
    intro parent table
    rfl
  | cons d ds ihchildren ihrest =>
    intro parent table
    obtain ⟨hname, htype, hrequired, hchildren⟩ := d.trimmed_eq
    have hadd (path : String) (t : FieldTable) :
        addAt collection path t d.trimmed = addAt collection path t d := by
      simp only [addAt, info, hname, htype, hrequired]
    rw [trimmedAll, indexAll_cons, indexAll_cons, hname, hchildren]
    simp only [hadd, ihchildren, ihrest]

/-! ## Adding rows -/

section Rows

variable {collection : String} {t : FieldTable} {table : FieldTable}

theorem addAt_eq_ok_iff {path : String} {d : FieldDefinition} :
    addAt collection path table d = .ok t ↔
      Identifier.Valid d.name ∧ path ∉ table.keys ∧ t = table.insert path d.info := by
  rw [← OrderedMap.get?_eq_none_iff, addAt, Identifier.Valid]
  cases Identifier.fault? d.name with
  | some fault => simp
  | none =>
    cases table.get? path with
    | some i => simp
    | none => simp [eq_comm]

variable {row : String × FieldDefinition} {rows : List (String × FieldDefinition)}

theorem addRows_cons_eq_ok_iff : addRows collection table (row :: rows) = .ok t ↔
    Identifier.Valid row.2.name ∧ row.1 ∉ table.keys ∧
      addRows collection (table.insert row.1 row.2.info) rows = .ok t := by
  simp only [addRows, List.foldlM_cons, bind_eq_ok_iff, addAt_eq_ok_iff]
  constructor
  · rintro ⟨_, ⟨hvalid, hnew, rfl⟩, hrest⟩
    exact ⟨hvalid, hnew, hrest⟩
  · rintro ⟨hvalid, hnew, hrest⟩
    exact ⟨_, ⟨hvalid, hnew, rfl⟩, hrest⟩

/-- Rows are added exactly if all names are identifiers and no path is met twice. -/
theorem addRows_isOk_iff : (∃ t, addRows collection table rows = .ok t) ↔
    (∀ row ∈ rows, Identifier.Valid row.2.name) ∧
      (table.keys ++ rows.map Prod.fst).Nodup := by
  induction rows generalizing table with
  | nil => simp [addRows, pure, Except.pure, table.nodup_keys]
  | cons row rows ih =>
    simp only [addRows_cons_eq_ok_iff, exists_and_left, ih]
    -- the key of the first row moves from the paths still to come to those in the table
    rw [List.forall_mem_cons, List.map_cons, ← OrderedMap.nodup_insert_keys_iff row.2.info,
      and_assoc, and_left_comm (a := row.1 ∉ table.keys)]

/-- A table that rows were added to has one more entry for each of them. -/
theorem entries_of_addRows (h : addRows collection table rows = .ok t) :
    t.entries.Perm (table.entries ++ rows.map fun row => (row.1, row.2.info)) := by
  induction rows generalizing table with
  | nil =>
    cases h
    simp
  | cons row rows ih =>
    obtain ⟨-, hnew, hrest⟩ := addRows_cons_eq_ok_iff.mp h
    have hhere : (table.insert row.1 row.2.info).entries.Perm
        ((row.1, row.2.info) :: table.entries) := OrderedMap.entries_insert_perm hnew
    exact (ih hrest).trans ((hhere.append_right _).trans List.perm_middle.symm)

end Rows

/-! ## The table of a list of definitions -/

section Table

variable {collection : String} {t : FieldTable} {ds : List FieldDefinition}

theorem mem_rowsBelow_none_iff {path : String} {d : FieldDefinition} :
    (path, d) ∈ rowsBelow none ds ↔ ∃ names, Reaches ds names d ∧ path = fullPath names := by
  rw [rowsBelow, List.mem_map]
  constructor
  · rintro ⟨⟨names, d⟩, hmem, heq⟩
    cases heq
    exact ⟨names, mem_listingOfAll_iff.mp hmem, rfl⟩
  · rintro ⟨names, hreach, rfl⟩
    exact ⟨(names, d), mem_listingOfAll_iff.mpr hreach, rfl⟩

/-- Different definitions are at different paths exactly if siblings are distinct. -/
theorem nodup_paths_iff (hvalid : ∀ names d, Reaches ds names d → Identifier.Valid d.name) :
    ((rowsBelow none ds).map Prod.fst).Nodup ↔ Distinct ds := by
  have hpaths : (rowsBelow none ds).map Prod.fst = (namesOfAll ds).map fullPath := by
    simp [rowsBelow, namesOfAll, Function.comp_def, pathBelow]
  rw [hpaths, ← nodup_namesOfAll_iff]
  refine ⟨List.Nodup.of_map _, fun hnodup => hnodup.map_on ?_⟩
  intro names hmem names' hmem' heq
  obtain ⟨_, hreach⟩ := mem_namesOfAll_iff.mp hmem
  obtain ⟨_, hreach'⟩ := mem_namesOfAll_iff.mp hmem'
  exact fullPath_injective hreach.ne_nil hreach'.ne_nil (hreach.valid_names hvalid)
    (hreach'.valid_names hvalid) heq

/-- Indexing succeeds exactly if all names are identifiers and siblings are distinct. -/
theorem indexAll_isOk_iff (collection : String) (ds : List FieldDefinition) :
    (∃ t, indexAll collection none ∅ ds = .ok t) ↔
    (∀ names d, Reaches ds names d → Identifier.Valid d.name) ∧ Distinct ds := by
  have hvalid : (∀ e ∈ rowsBelow none ds, Identifier.Valid e.2.name) ↔
      ∀ names d, Reaches ds names d → Identifier.Valid d.name := by
    constructor
    · intro h names d hreach
      exact h (fullPath names, d) (mem_rowsBelow_none_iff.mpr ⟨names, hreach, rfl⟩)
    · intro h e hmem
      obtain ⟨names, hreach, -⟩ := mem_rowsBelow_none_iff.mp hmem
      exact h names e.2 hreach
  have hkeys : (∅ : FieldTable).keys = [] := rfl
  rw [indexAll_eq_addRows, addRows_isOk_iff, hvalid, hkeys, List.nil_append]
  exact and_congr_right nodup_paths_iff

/-- The table has one row for each reachable definition. -/
theorem mem_entries_of_indexAll (h : indexAll collection none ∅ ds = .ok t) {path : String}
    {i : FieldInfo} :
    (path, i) ∈ t.entries ↔ ∃ names d, Reaches ds names d ∧ path = fullPath names ∧ i = d.info := by
  rw [indexAll_eq_addRows] at h
  have hentries : (∅ : FieldTable).entries = [] := rfl
  rw [(entries_of_addRows h).mem_iff, hentries, List.nil_append, List.mem_map]
  constructor
  · rintro ⟨⟨path, d⟩, hmem, heq⟩
    cases heq
    obtain ⟨names, hreach, rfl⟩ := mem_rowsBelow_none_iff.mp hmem
    exact ⟨names, d, hreach, rfl, rfl⟩
  · rintro ⟨names, d, hreach, rfl, rfl⟩
    exact ⟨(fullPath names, d), mem_rowsBelow_none_iff.mpr ⟨names, hreach, rfl⟩, rfl⟩

end Table

end FieldDefinition

end DocumentQuery

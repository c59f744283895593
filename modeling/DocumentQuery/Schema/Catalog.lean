import DocumentQuery.Error
import DocumentQuery.Schema.Basic
import DocumentQuery.Schema.Suggestion
/-!
# Catalogs

A catalog is a schema flattened to full field paths. It hands out only the
collections and fields that it lists, and offers a suggestion for others.

Main definitions:
* `Catalog.ofSchema`: the catalog of a schema whose names are identifiers and
  whose collections and fields are distinct.
* `Catalog.collection`, `Catalog.field`: the references it hands out.
-/
namespace DocumentQuery

/-- What a catalog knows of a field. -/
structure FieldInfo where
  type : FieldType
  required : Bool
deriving DecidableEq, Repr

/-- The fields of one collection, by full path. -/
abbrev FieldTable := OrderedMap String FieldInfo

/-- Collections in the order of their definition, each with its fields by full path. -/
structure Catalog where
  tables : List (String × FieldTable)

/-! ## Flattening -/

/-- The full path of a field below a parent. -/
def joinPath (parent : Option String) (name : String) : String :=
  match parent with
  | none => name
  | some p => p ++ "." ++ name

/-- Adds a field at a new path. -/
def addField (collection : String) (parent : Option String) (name : String) (info : FieldInfo)
    (table : FieldTable) : Except SchemaFault FieldTable :=
  match Identifier.fault? name with
  | some fault => .error (.invalidField name collection fault)
  | none =>
    let path := joinPath parent name
    if (table.get? path).isSome then .error (.duplicateField path collection)
    else .ok (table.insert path info)

namespace FieldDefinition

mutual

/-- Adds a field and the fields below it. -/
def index (collection : String) (parent : Option String) (table : FieldTable) :
    FieldDefinition → Except SchemaFault FieldTable
  | .mk name type required fields items =>
    match addField collection parent name ⟨type, required⟩ table with
    | .error fault => .error fault
    | .ok table =>
      let path := some (joinPath parent name)
      match type, items with
      | .object, _ => indexAll collection path table fields
      | .array, some ⟨.object, fields⟩ => indexAll collection path table fields
      | _, _ => .ok table

/-- Adds the fields of a list, each with the fields below it. -/
def indexAll (collection : String) (parent : Option String) (table : FieldTable) :
    List FieldDefinition → Except SchemaFault FieldTable
  | [] => .ok table
  | d :: ds =>
    match index collection parent table d with
    | .error fault => .error fault
    | .ok table => indexAll collection parent table ds

end

end FieldDefinition

namespace Catalog

/-- The fields of a collection. -/
def table? (c : Catalog) (collection : String) : Option FieldTable :=
  (c.tables.find? fun t => t.1 = collection).map Prod.snd

/-- The catalog with one more collection. -/
def addCollection (c : Catalog) (d : CollectionDefinition) : Except SchemaFault Catalog :=
  match Identifier.fault? d.name with
  | some fault => .error (.invalidCollection d.name fault)
  | none =>
    if (c.table? d.name).isSome then .error (.duplicateCollection d.name)
    else (FieldDefinition.indexAll d.name none ∅ d.fields).map fun table =>
      ⟨c.tables ++ [(d.name, table)]⟩

/-- The catalog of a list of collections, after those in `c`. -/
def addAll (c : Catalog) : List CollectionDefinition → Except SchemaFault Catalog
  | [] => .ok c
  | d :: ds =>
    match c.addCollection d with
    | .error fault => .error fault
    | .ok c => addAll c ds

/-- The catalog of a schema. -/
def ofSchema (s : Schema) : Except Error Catalog :=
  match addAll ⟨[]⟩ s.collections with
  | .error fault => .error (.schema fault)
  | .ok c => .ok c

/-! ## Questions -/

/-- The names of the collections, in the order of their definition. -/
def collectionNames (c : Catalog) : List String := c.tables.map Prod.fst

/-- The full paths of a collection's fields, in order; none for an unknown collection. -/
def fieldPaths (c : Catalog) (collection : String) : List String :=
  ((c.table? collection).map OrderedMap.keys).getD []

/-- What is known of a field. -/
def info? (c : Catalog) (collection path : String) : Option FieldInfo :=
  (c.table? collection).bind fun t => t.get? path

/-- Whether the collection is listed. -/
def hasCollection (c : Catalog) (collection : String) : Bool := (c.table? collection).isSome

/-- Whether the field is listed. -/
def hasField (c : Catalog) (collection path : String) : Bool := (c.info? collection path).isSome

/-- The type of a field. -/
def fieldType? (c : Catalog) (collection path : String) : Option FieldType :=
  (c.info? collection path).map FieldInfo.type

/-- Whether every document has the field. -/
def isRequired (c : Catalog) (collection path : String) : Bool :=
  (c.info? collection path).any FieldInfo.required

/-! ## References -/

/-- The collection of a name that is listed. -/
def collection (c : Catalog) (name : String) : Except Error Collection := do
  let reference ← Collection.ofName name
  if c.hasCollection name then pure reference
  else throw (.unknownCollection name (suggest name c.collectionNames))

/-- The field at a path that is listed; the names are checked first, then the collection. -/
def field (c : Catalog) (collectionName path : String) : Except Error Field := do
  let reference ← Field.ofPath collectionName path
  let _ ← c.collection collectionName
  if c.hasField collectionName path then pure reference
  else throw (.unknownField collectionName path (suggest path (c.fieldPaths collectionName)))

end Catalog

end DocumentQuery

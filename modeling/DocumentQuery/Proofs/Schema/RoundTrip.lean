import Mathlib.Data.List.Nodup
import DocumentQuery.Proofs.Schema.KeyedTables
/-!
# Encoded schemas

A schema is written as a tree of tables, one for each definition in it. Two lists are not written
when they are empty, and an element type is not written when there is none; where decoding misses
one of these it takes just that. So what is written can be read back.

Main definitions:
* `Json.nodes`, `Json.tableKeys`: the values inside a tree, and the keys of each of its tables.
* `Definition`, `Schema.definitions`: the definitions in a schema, parents before children.
* `Definition.keys`: the keys at which a definition is written.

Results:
* `FieldDefinition.decode?_encode`: a field definition is read back.
* `FieldDefinition.tableKeys_encode`: where it is written.
* `Schema.encode_faithful`: both for schemas, and how their tables are read.
-/
namespace DocumentQuery

open Toml (Value)

/-! ## Trees -/

namespace Json

mutual

/-- The value and the values inside of it, depth first. -/
def nodes : Json → List Json
  | .arr items => .arr items :: nodesOfAll items
  | .obj entries => .obj entries :: nodesOfEntries entries
  | v => [v]

/-- The values of a list and the values inside of them. -/
def nodesOfAll : List Json → List Json
  | [] => []
  | v :: vs => nodes v ++ nodesOfAll vs

/-- The values of entries and the values inside of them. -/
def nodesOfEntries : Entries → List Json
  | [] => []
  | (_, v) :: es => nodes v ++ nodesOfEntries es

end

/-- The keys of a value that is a table. -/
def keys? : Json → Option (List String)
  | .obj entries => some (Entries.keys entries)
  | _ => none

/-- The keys of each table of a tree, depth first. -/
def tableKeys (v : Json) : List (List String) := v.nodes.filterMap keys?

end Json

namespace Toml.Value

mutual

/-- There is no `null` in the tree of a value. -/
theorem null_notMem_nodes : ∀ v : Value, Json.null ∉ v.toJson.nodes
  | .string _ | .integer _ | .float _ | .boolean _ | .datetime _ => by simp [toJson, Json.nodes]
  | .array items => by
    simpa [toJson, Json.nodes] using null_notMem_nodesOfAll items
  | .table es => by
    simpa [toJson, Json.nodes] using null_notMem_nodesOfEntries es

theorem null_notMem_nodesOfAll : ∀ vs : List Value, Json.null ∉ Json.nodesOfAll (itemsToJson vs)
  | [] => by simp [itemsToJson, Json.nodesOfAll]
  | v :: vs => by
    simpa [itemsToJson, Json.nodesOfAll] using ⟨null_notMem_nodes v, null_notMem_nodesOfAll vs⟩

theorem null_notMem_nodesOfEntries : ∀ es : List (String × Value),
    Json.null ∉ Json.nodesOfEntries (entriesToJson es)
  | [] => by simp [entriesToJson, Json.nodesOfEntries]
  | (_, v) :: es => by
    simpa [entriesToJson, Json.nodesOfEntries] using
      ⟨null_notMem_nodes v, null_notMem_nodesOfEntries es⟩

end

/-- The keys of each table of a value. -/
def tableKeys (v : Value) : List (List String) := v.toJson.tableKeys

theorem tableKeys_array (vs : List Value) : (array vs).tableKeys = vs.flatMap tableKeys := by
  have h : (Json.nodesOfAll (itemsToJson vs)).filterMap Json.keys? = vs.flatMap tableKeys := by
    induction vs with
    | nil => rfl
    | cons v vs ih =>
      rw [itemsToJson, Json.nodesOfAll, List.filterMap_append, ih]
      rfl
  rw [← h]
  rfl

theorem tableKeys_table (es : List (String × Value)) :
    (table es).tableKeys = es.map Prod.fst :: es.flatMap fun e => e.2.tableKeys := by
  have hbelow : (Json.nodesOfEntries (entriesToJson es)).filterMap Json.keys? =
      es.flatMap fun e => e.2.tableKeys := by
    induction es with
    | nil => rfl
    | cons e es ih =>
      rw [entriesToJson, Json.nodesOfEntries, List.filterMap_append, ih]
      rfl
  have hkeys : Entries.keys (entriesToJson es) = es.map Prod.fst := by
    clear hbelow
    induction es with
    | nil => rfl
    | cons e es ih => exact congrArg (e.1 :: ·) ih
  rw [← hbelow, ← hkeys]
  rfl

end Toml.Value

/-! ## Entries for lists -/

section Lists

variable {key k : String} {items : List Value}

theorem lookup_listEntry_of_ne (h : k ≠ key) : (listEntry key items).lookup k = none := by
  unfold listEntry
  split
  · rfl
  · simp [List.lookup_cons, beq_false_of_ne h]

theorem lookup_listEntry_nil : (listEntry key []).lookup key = none := rfl

theorem lookup_listEntry_cons (v : Value) :
    (listEntry key (v :: items)).lookup key = some (.array (v :: items)) :=
  List.lookup_cons_self

theorem tableKeys_listEntry :
    (listEntry key items).flatMap (fun e => e.2.tableKeys) = items.flatMap Value.tableKeys := by
  cases items with
  | nil => rfl
  | cons v items => simp [listEntry, Value.tableKeys_array]

theorem keys_listEntry :
    (listEntry key items).map Prod.fst = if items.isEmpty then [] else [key] := by
  unfold listEntry
  split <;> rfl

end Lists

/-! ## Definitions -/

/-- A definition at any level of a schema. -/
inductive Definition where
  | schema (s : Schema)
  | collection (c : CollectionDefinition)
  | field (d : FieldDefinition)
  | element (e : ArrayElement FieldDefinition)

namespace Definition

/-- The keys at which a definition has parts. -/
def allKeys : Definition → List String
  | .schema _ => ["collections"]
  | .collection _ => ["name", "fields"]
  | .field _ => fieldKeys
  | .element _ => elementKeys

/-- The keys whose parts are not written: empty fields inside of fields and elements, and element
types that are not there. -/
def omitted : Definition → List String
  | .field (.mk _ _ _ fields items) =>
    (if fields.isEmpty then ["fields"] else []) ++ if items.isNone then ["items"] else []
  | .element e => if e.fields.isEmpty then ["fields"] else []
  | .schema _ | .collection _ => []

/-- The keys at which a definition is written. -/
def keys (d : Definition) : List String := d.allKeys.filter (· ∉ d.omitted)

theorem nodup_keys (d : Definition) : d.keys.Nodup := by
  refine List.Nodup.filter _ ?_
  cases d <;> simp [allKeys, fieldKeys, elementKeys]

end Definition

namespace FieldDefinition

mutual

/-- The definition and the definitions inside of it. -/
def definitions : FieldDefinition → List Definition
  | .mk name type required fields items =>
    .field (.mk name type required fields items) ::
      (definitionsOfAll fields ++ definitionsOfItems items)

/-- The definitions of a list and those inside of them. -/
def definitionsOfAll : List FieldDefinition → List Definition
  | [] => []
  | d :: ds => definitions d ++ definitionsOfAll ds

/-- The element type, if there is one, and the definitions inside of it. -/
def definitionsOfItems : Option (ArrayElement FieldDefinition) → List Definition
  | none => []
  | some ⟨type, fields⟩ => .element ⟨type, fields⟩ :: definitionsOfAll fields

end

end FieldDefinition

/-- The schema and the definitions inside of it. -/
def Schema.definitions (s : Schema) : List Definition :=
  .schema s :: s.collections.flatMap fun c =>
    .collection c :: FieldDefinition.definitionsOfAll c.fields

/-! ## Fields -/

namespace FieldDefinition

/-- The entries of a definition that is written. -/
def entries : FieldDefinition → List (String × Value)
  | .mk name type required fields items =>
    [("name", .string name), ("type", type.encode), ("required", .boolean required)]
      ++ listEntry "fields" (encodeAll fields) ++ encodeItems items

/-- The entries of an element type that is written. -/
def elementEntries (e : ArrayElement FieldDefinition) : List (String × Value) :=
  ("type", e.type.encode) :: listEntry "fields" (encodeAll e.fields)

theorem encode_eq (d : FieldDefinition) : d.encode = .table d.entries := by
  cases d
  rw [encode, entries]

theorem isEmpty_encodeAll (ds : List FieldDefinition) : (encodeAll ds).isEmpty = ds.isEmpty := by
  cases ds <;> rw [encodeAll] <;> rfl

theorem keys_entries (d : FieldDefinition) :
    d.entries.map Prod.fst = (Definition.field d).keys := by
  obtain ⟨name, type, required, fields, items⟩ := d
  rw [entries, List.map_append, List.map_append, keys_listEntry, isEmpty_encodeAll]
  cases items with
  | none => cases fields <;> rfl
  | some e => cases fields <;> rfl

theorem keys_elementEntries (e : ArrayElement FieldDefinition) :
    (elementEntries e).map Prod.fst = (Definition.element e).keys := by
  obtain ⟨type, fields⟩ := e
  rw [elementEntries, List.map_cons, keys_listEntry, isEmpty_encodeAll]
  cases fields <;> rfl

mutual

theorem tableKeys_encode : ∀ d : FieldDefinition,
    d.encode.tableKeys = d.definitions.map Definition.keys
  | .mk name type required fields items => by
    rw [encode_eq, Value.tableKeys_table, keys_entries, definitions, List.map_cons,
      List.map_append, ← tableKeys_encodeAll fields, ← tableKeys_encodeItems items, entries,
      List.flatMap_append, List.flatMap_append, tableKeys_listEntry]
    rfl

theorem tableKeys_encodeAll : ∀ ds : List FieldDefinition,
    (encodeAll ds).flatMap Value.tableKeys = (definitionsOfAll ds).map Definition.keys
  | [] => by rw [encodeAll, definitionsOfAll]; rfl
  | d :: ds => by
    rw [encodeAll, definitionsOfAll, List.flatMap_cons, List.map_append, tableKeys_encode d,
      tableKeys_encodeAll ds]

theorem tableKeys_encodeItems : ∀ items : Option (ArrayElement FieldDefinition),
    (encodeItems items).flatMap (fun e => e.2.tableKeys) =
      (definitionsOfItems items).map Definition.keys
  | none => by rw [encodeItems, definitionsOfItems]; rfl
  | some ⟨type, fields⟩ => by
    have htable : (Value.table (elementEntries ⟨type, fields⟩)).tableKeys =
        (Definition.element ⟨type, fields⟩).keys :: (definitionsOfAll fields).map Definition.keys := by
      rw [Value.tableKeys_table, keys_elementEntries, elementEntries, List.flatMap_cons,
        tableKeys_listEntry, tableKeys_encodeAll fields]
      rfl
    rw [encodeItems, definitionsOfItems, List.map_cons, ← htable, List.flatMap_singleton]
    rfl

end

/-! ## Reading back -/

/-- Fields that are read back are the fields that were written, or not written. -/
theorem partOr?_fields {fields : List FieldDefinition} {es : List (String × Value)}
    (hlookup : es.lookup "fields" = (listEntry "fields" (encodeAll fields)).lookup "fields")
    (h : decodeAll? (encodeAll fields) = some fields) :
    partOr? "fields" decodeList? [] es = some fields := by
  rw [partOr?, hlookup]
  cases fields with
  | nil => rw [encodeAll, lookup_listEntry_nil]; rfl
  | cons d ds =>
    rw [encodeAll, lookup_listEntry_cons, ← encodeAll]
    exact h

theorem elementOfTable?_elementEntries {e : ArrayElement FieldDefinition}
    (h : decodeAll? (encodeAll e.fields) = some e.fields) :
    elementOfTable? (elementEntries e) = some e := by
  have htype : partAt? "type" FieldType.decode? (elementEntries e) = some e.type :=
    FieldType.ofName?_name e.type
  have hfields : partOr? "fields" decodeList? [] (elementEntries e) = some e.fields :=
    partOr?_fields rfl h
  rw [elementOfTable?, htype, hfields]
  rfl

theorem lookup_encodeItems (items : Option (ArrayElement FieldDefinition)) :
    (encodeItems items).lookup "items" = items.map fun e => .table (elementEntries e) := by
  rcases items with _ | ⟨type, fields⟩ <;> rw [encodeItems] <;> rfl

theorem lookup_encodeItems_of_ne {key : String} (h : key ≠ "items")
    (items : Option (ArrayElement FieldDefinition)) : (encodeItems items).lookup key = none := by
  rcases items with _ | ⟨type, fields⟩
  · rw [encodeItems]
    rfl
  · simp [encodeItems, List.lookup_cons, beq_false_of_ne h]

theorem ofTable?_entries {name : String} {type : FieldType} {required : Bool}
    {fields : List FieldDefinition} {items : Option (ArrayElement FieldDefinition)}
    (hfields : decodeAll? (encodeAll fields) = some fields)
    (hitems : ∀ e ∈ items, decodeElement? (.table (elementEntries e)) = some e) :
    ofTable? (entries (.mk name type required fields items)) =
      some (.mk name type required fields items) := by
  set es := entries (.mk name type required fields items) with hes
  have hlookup : es.lookup "fields" = (listEntry "fields" (encodeAll fields)).lookup "fields" := by
    rw [hes, entries, List.lookup_append, List.lookup_append,
      lookup_encodeItems_of_ne (by decide), Option.or_none]
    rfl
  have hlookupItems : es.lookup "items" = items.map fun e => .table (elementEntries e) := by
    rw [hes, entries, List.lookup_append, List.lookup_append, lookup_encodeItems,
      lookup_listEntry_of_ne (by decide)]
    rfl
  have hname : partAt? "name" decodeString? es = some name := rfl
  have htype : partAt? "type" FieldType.decode? es = some type := FieldType.ofName?_name type
  have hrequired : partOr? "required" decodeBool? false es = some required := rfl
  have hitem : partOr? "items" (fun v => (decodeElement? v).map some) none es = some items := by
    rw [partOr?, hlookupItems]
    cases items with
    | none => rfl
    | some e => exact congrArg (Option.map some) (hitems e rfl)
  rw [ofTable?, hname, htype, hrequired, partOr?_fields hlookup hfields, hitem]
  rfl

mutual

/-- A definition is read back. -/
theorem decode?_encode : ∀ d : FieldDefinition, decode? d.encode = some d
  | .mk name type required fields items => by
    -- what is written has no key twice, so it is read by key
    have hkeys := Definition.nodup_keys (.field (.mk name type required fields items))
    rw [encode_eq, decode?_table (by rwa [keys_entries])]
    exact ofTable?_entries (decodeAll?_encodeAll fields) (decodeElement?_encode items)

theorem decodeAll?_encodeAll : ∀ ds : List FieldDefinition, decodeAll? (encodeAll ds) = some ds
  | [] => by rw [encodeAll, decodeAll?]
  | d :: ds => by rw [encodeAll, decodeAll?, decode?_encode d, decodeAll?_encodeAll ds]

theorem decodeElement?_encode : ∀ items : Option (ArrayElement FieldDefinition), ∀ e ∈ items,
    decodeElement? (.table (elementEntries e)) = some e
  | none, e, he => by cases he
  | some ⟨type, fields⟩, e, he => by
    cases he
    have hkeys := Definition.nodup_keys (.element ⟨type, fields⟩)
    rw [decodeElement?_table (by rwa [keys_elementEntries])]
    exact elementOfTable?_elementEntries (decodeAll?_encodeAll fields)

end

end FieldDefinition

/-! ## Collections and schemas -/

namespace CollectionDefinition

theorem tableKeys_encode (c : CollectionDefinition) :
    c.encode.tableKeys = (Definition.collection c).keys ::
      (FieldDefinition.definitionsOfAll c.fields).map Definition.keys := by
  rw [encode, Value.tableKeys_table, ← FieldDefinition.tableKeys_encodeAll,
    ← Value.tableKeys_array]
  exact congrArg (List.cons _) (List.append_nil _)

theorem decode?_encode (c : CollectionDefinition) : decode? c.encode = some c := by
  have hname : partAt? "name" decodeString?
      [("name", .string c.name), ("fields", .array (FieldDefinition.encodeAll c.fields))] =
      some c.name := rfl
  have hfields : partOr? "fields" FieldDefinition.decodeList? []
      [("name", .string c.name), ("fields", .array (FieldDefinition.encodeAll c.fields))] =
      some c.fields := FieldDefinition.decodeAll?_encodeAll c.fields
  rw [encode, decode?_table (by simp), ofTable?, hname, hfields]
  rfl

end CollectionDefinition

namespace Schema

theorem tableKeys_encode (s : Schema) :
    s.encode.tableKeys = s.definitions.map Definition.keys := by
  have hcollections : (s.collections.map CollectionDefinition.encode).flatMap Value.tableKeys =
      (s.collections.flatMap fun c =>
        .collection c :: FieldDefinition.definitionsOfAll c.fields).map Definition.keys := by
    rw [List.flatMap_map, List.map_flatMap]
    exact List.flatMap_congr fun c _ => c.tableKeys_encode
  rw [encode, Value.tableKeys_table, List.flatMap_singleton, Value.tableKeys_array, hcollections]
  rfl

theorem decode?_encode (s : Schema) : decode? s.encode = some s := by
  have hcollections : (s.collections.map CollectionDefinition.encode).mapM
      CollectionDefinition.decode? = some s.collections := by
    induction s.collections with
    | nil => rfl
    | cons c cs ih => simp [CollectionDefinition.decode?_encode, ih]
  have hpart : partOr? "collections" CollectionDefinition.decodeList? []
      [("collections", .array (s.collections.map CollectionDefinition.encode))] =
      some s.collections := hcollections
  rw [encode, decode?_table (by simp), ofTable?, hpart]
  rfl

/-- A schema that is written is read back. The tree has no `null`, and one table for each
definition, with all keys of the definition but those of empty fields inside of fields and elements
and of element types that are not there. Reading any tables looks their keys up: other keys do not
count, names and types have to be there, and all else has a default. -/
theorem encode_faithful (s : Schema) :
    decode? s.encode = some s ∧
    Json.null ∉ s.encode.toJson.nodes ∧
    s.encode.toJson.tableKeys = s.definitions.map Definition.keys ∧
    ∀ es : List (String × Value), (es.map Prod.fst).Nodup →
      decode? (.table es) = ofTable? es ∧
      CollectionDefinition.decode? (.table es) = CollectionDefinition.ofTable? es ∧
      FieldDefinition.decode? (.table es) = FieldDefinition.ofTable? es ∧
      FieldDefinition.decodeElement? (.table es) = FieldDefinition.elementOfTable? es :=
  ⟨s.decode?_encode, s.encode.null_notMem_nodes, s.tableKeys_encode, fun _ h =>
    ⟨decode?_table h, CollectionDefinition.decode?_table h, FieldDefinition.decode?_table h,
      FieldDefinition.decodeElement?_table h⟩⟩

/-- Users with a name and with scores, which are objects. -/
def scoredUsers : Schema :=
  ⟨[⟨"users", [(FieldDefinition.ofType "name" .string).asRequired,
    .arrayOfObjects "scores" [.ofType "points" .int]]⟩]⟩

theorem encode_faithful_scoredUsers :
    decode? scoredUsers.encode = some scoredUsers ∧
    scoredUsers.encode.toJson.tableKeys =
      [["collections"], ["name", "fields"], ["name", "type", "required"],
        ["name", "type", "required", "items"], ["type", "fields"],
        ["name", "type", "required"]] ∧
    FieldDefinition.decode? (.table [("comment", .string "in years"), ("type", .string "int"),
      ("name", .string "age")]) = some (.ofType "age" .int) ∧
    FieldDefinition.decode? (.table [("name", .string "age")]) = none := by
  obtain ⟨hback, -, hkeys, hread⟩ := encode_faithful scoredUsers
  obtain ⟨-, -, hage, -⟩ := hread [("comment", .string "in years"), ("type", .string "int"),
    ("name", .string "age")] (by decide)
  obtain ⟨-, -, huntyped, -⟩ := hread [("name", .string "age")] (by decide)
  exact ⟨hback, hkeys, hage, huntyped⟩

end Schema

end DocumentQuery

import DocumentQuery.Schema.Basic
import DocumentQuery.Toml.Document
/-!
# Schemas as value trees

Main definitions:
* `Schema.encode`: a schema as a value tree. Lists of fields inside a field
  are left out when they are empty, as is the element type where there is none.
* `Schema.decode?`: the schema of a value tree. Names and types have to be
  there; what else is missing takes the value that `encode` leaves out, and
  unknown keys are skipped.
* `Schema.ofToml`: the schema of a TOML document.

A record is read from a table, by key, or from an array, by position. A type
is read from its name, or from a table with the name as its only key and
nothing below it.
-/
namespace DocumentQuery

open Toml (Value)

/-! ## Encoding -/

/-- An entry for a list, left out when it is empty. -/
def listEntry (key : String) (items : List Value) : List (String × Value) :=
  if items.isEmpty then [] else [(key, .array items)]

namespace FieldType

/-- The type as a value. -/
def encode (t : FieldType) : Value := .string t.name

end FieldType

namespace FieldDefinition

mutual

/-- The definition as a table. -/
def encode : FieldDefinition → Value
  | .mk name type required fields items =>
    .table ([("name", .string name), ("type", type.encode), ("required", .boolean required)]
      ++ listEntry "fields" (encodeAll fields) ++ encodeItems items)

/-- The definitions of a list as tables. -/
def encodeAll : List FieldDefinition → List Value
  | [] => []
  | d :: ds => encode d :: encodeAll ds

/-- The entry of an element type, if there is one. -/
def encodeItems : Option (ArrayElement FieldDefinition) → List (String × Value)
  | none => []
  | some ⟨type, fields⟩ =>
    [("items", .table (("type", type.encode) :: listEntry "fields" (encodeAll fields)))]

end

end FieldDefinition

namespace CollectionDefinition

/-- The definition as a table. -/
def encode (c : CollectionDefinition) : Value :=
  .table [("name", .string c.name), ("fields", .array (FieldDefinition.encodeAll c.fields))]

end CollectionDefinition

namespace Schema

/-- The schema as a table. -/
def encode (s : Schema) : Value :=
  .table [("collections", .array (s.collections.map CollectionDefinition.encode))]

end Schema

/-! ## Decoding -/

/-- Sets a slot that is read for the first time. -/
def fillSlot {α : Type} (slot read : Option α) : Option (Option α) :=
  match slot, read with
  | none, some a => some (some a)
  | _, _ => none

/-- The text of a string value. -/
def decodeString? : Value → Option String
  | .string s => some s
  | _ => none

/-- The truth value of a boolean. -/
def decodeBool? : Value → Option Bool
  | .boolean b => some b
  | _ => none

namespace FieldType

/-- The type of a value. -/
def decode? : Value → Option FieldType
  | .string s => ofName? s
  | .table [(s, .table [])] => ofName? s
  | .table [(s, .array [])] => ofName? s
  | _ => none

end FieldType

/-- The parts of a field definition read so far. -/
structure FieldDraft where
  name : Option String := none
  type : Option FieldType := none
  required : Option Bool := none
  fields : Option (List FieldDefinition) := none
  items : Option (Option (ArrayElement FieldDefinition)) := none

namespace FieldDraft

/-- The definition, if its name and type have been read. -/
def finish? (d : FieldDraft) : Option FieldDefinition := do
  let name ← d.name
  let type ← d.type
  pure (.mk name type (d.required.getD false) (d.fields.getD []) (d.items.getD none))

end FieldDraft

/-- The parts of an element type read so far. -/
structure ElementDraft where
  type : Option FieldType := none
  fields : Option (List FieldDefinition) := none

namespace ElementDraft

/-- The element type, if its type has been read. -/
def finish? (d : ElementDraft) : Option (ArrayElement FieldDefinition) := do
  let type ← d.type
  pure ⟨type, d.fields.getD []⟩

end ElementDraft

/-- The keys of a field definition, in the order of their positions. -/
def fieldKeys : List String := ["name", "type", "required", "fields", "items"]

/-- The keys of an element type, in the order of their positions. -/
def elementKeys : List String := ["type", "fields"]

namespace FieldDefinition

mutual

/-- The definition of a value. -/
def decode? : Value → Option FieldDefinition
  | .table entries => (decodeEntries? {} entries).bind FieldDraft.finish?
  | .array items => (decodePositions? {} fieldKeys items).bind FieldDraft.finish?
  | _ => none

/-- The definitions of the items of an array. -/
def decodeAll? : List Value → Option (List FieldDefinition)
  | [] => some []
  | v :: vs =>
    match decode? v, decodeAll? vs with
    | some d, some ds => some (d :: ds)
    | _, _ => none

/-- One part of a definition; an unknown key is skipped. -/
def decodePart? (draft : FieldDraft) (key : String) (v : Value) : Option FieldDraft :=
  if key = "name" then
    (fillSlot draft.name (decodeString? v)).map fun slot => { draft with name := slot }
  else if key = "type" then
    (fillSlot draft.type (FieldType.decode? v)).map fun slot => { draft with type := slot }
  else if key = "required" then
    (fillSlot draft.required (decodeBool? v)).map fun slot => { draft with required := slot }
  else if key = "fields" then
    let read := match v with
      | .array items => decodeAll? items
      | _ => none
    (fillSlot draft.fields read).map fun slot => { draft with fields := slot }
  else if key = "items" then
    let read := match v with
      | .table entries => (decodeElementEntries? {} entries).bind ElementDraft.finish?
      | .array items => (decodeElementPositions? {} elementKeys items).bind ElementDraft.finish?
      | _ => none
    (fillSlot draft.items (read.map some)).map fun slot => { draft with items := slot }
  else some draft

/-- The parts of a definition, by key. -/
def decodeEntries? (draft : FieldDraft) : List (String × Value) → Option FieldDraft
  | [] => some draft
  | (key, v) :: rest =>
    match decodePart? draft key v with
    | some draft => decodeEntries? draft rest
    | none => none

/-- The parts of a definition, by position; surplus parts are skipped. -/
def decodePositions? (draft : FieldDraft) (keys : List String) : List Value → Option FieldDraft
  | [] => some draft
  | v :: vs =>
    match keys with
    | [] => some draft
    | key :: keys =>
      match decodePart? draft key v with
      | some draft => decodePositions? draft keys vs
      | none => none

/-- One part of an element type; an unknown key is skipped. -/
def decodeElementPart? (draft : ElementDraft) (key : String) (v : Value) : Option ElementDraft :=
  if key = "type" then
    (fillSlot draft.type (FieldType.decode? v)).map fun slot => { draft with type := slot }
  else if key = "fields" then
    let read := match v with
      | .array items => decodeAll? items
      | _ => none
    (fillSlot draft.fields read).map fun slot => { draft with fields := slot }
  else some draft

/-- The parts of an element type, by key. -/
def decodeElementEntries? (draft : ElementDraft) : List (String × Value) → Option ElementDraft
  | [] => some draft
  | (key, v) :: rest =>
    match decodeElementPart? draft key v with
    | some draft => decodeElementEntries? draft rest
    | none => none

/-- The parts of an element type, by position; surplus parts are skipped. -/
def decodeElementPositions? (draft : ElementDraft) (keys : List String) :
    List Value → Option ElementDraft
  | [] => some draft
  | v :: vs =>
    match keys with
    | [] => some draft
    | key :: keys =>
      match decodeElementPart? draft key v with
      | some draft => decodeElementPositions? draft keys vs
      | none => none

end

end FieldDefinition

/-- The parts of a collection read so far. -/
structure CollectionDraft where
  name : Option String := none
  fields : Option (List FieldDefinition) := none

namespace CollectionDefinition

/-- One part of a collection; an unknown key is skipped. -/
def decodePart? (draft : CollectionDraft) (part : String × Value) : Option CollectionDraft :=
  if part.1 = "name" then
    (fillSlot draft.name (decodeString? part.2)).map fun slot => { draft with name := slot }
  else if part.1 = "fields" then
    let read := match part.2 with
      | .array items => FieldDefinition.decodeAll? items
      | _ => none
    (fillSlot draft.fields read).map fun slot => { draft with fields := slot }
  else some draft

/-- The collection of parts, whose name has to be among them. -/
def ofParts? (parts : List (String × Value)) : Option CollectionDefinition := do
  let draft ← parts.foldlM decodePart? {}
  let name ← draft.name
  pure ⟨name, draft.fields.getD []⟩

/-- The definition of a value. -/
def decode? : Value → Option CollectionDefinition
  | .table entries => ofParts? entries
  | .array items => ofParts? (["name", "fields"].zip items)
  | _ => none

end CollectionDefinition

namespace Schema

/-- The collections among the parts of a schema; an unknown key is skipped. -/
def decodePart? (slot : Option (List CollectionDefinition)) (part : String × Value) :
    Option (Option (List CollectionDefinition)) :=
  if part.1 = "collections" then
    fillSlot slot (match part.2 with
      | .array items => items.mapM CollectionDefinition.decode?
      | _ => none)
  else some slot

/-- The schema of parts. -/
def ofParts? (parts : List (String × Value)) : Option Schema := do
  let slot ← parts.foldlM decodePart? none
  pure ⟨slot.getD []⟩

/-- The schema of a value. -/
def decode? : Value → Option Schema
  | .table entries => ofParts? entries
  | .array items => ofParts? (["collections"].zip items)
  | _ => none

/-- The schema of a TOML document. -/
def ofToml? (text : String) : Option Schema := do
  let v ← Toml.parse? text
  decode? v

end Schema

end DocumentQuery

import DocumentQuery.Schema.Encoding
/-!
# Records read by key

Decoding goes through a table entry by entry and fills the slot of each key that it knows. If no
key comes twice, this looks up the keys of the record: entries at other keys do not count, and a
part that is not there takes its default or, if it has none, is missed.

Main definitions:
* `partAt?`, `partOr?`: a part of a record, looked up at its key; the one has to be there, the other
  has a default.
* `FieldDefinition.ofTable?`, `FieldDefinition.elementOfTable?`, `CollectionDefinition.ofTable?`,
  `Schema.ofTable?`: the records of a table, made of such parts.

Results:
* `FieldDefinition.decode?_table`, `FieldDefinition.decodeElement?_table`,
  `CollectionDefinition.decode?_table`, `Schema.decode?_table`: decoding finds just these records.
-/
namespace DocumentQuery

open Toml (Value)

/-! ## Parts -/

section Parts

variable {α : Type} (key : String) (decode : Value → Option α)

/-- The part of a record at a key. -/
def partAt? (es : List (String × Value)) : Option α := (es.lookup key).bind decode

/-- The part of a record at a key, or the default if there is none. -/
def partOr? (default : α) (es : List (String × Value)) : Option α :=
  (es.lookup key).elim (some default) decode

/-- The slot of a key after one entry. -/
def fillAt? (k : String) (v : Value) (slot : Option α) : Option (Option α) :=
  if k = key then fillSlot slot (decode v) else some slot

/-- The slot of a key after the entries of a table. -/
def slotAt? (es : List (String × Value)) (slot : Option α) : Option (Option α) :=
  (es.lookup key).elim (some slot) fun v => fillSlot slot (decode v)

variable {key decode} {es : List (String × Value)}

theorem slotAt?_of_notMem (h : key ∉ es.map Prod.fst) (slot : Option α) :
    slotAt? key decode es slot = some slot := by
  have hlookup : es.lookup key = none := by
    rw [List.lookup_eq_none_iff]
    intro e he
    exact bne_iff_ne.mpr fun heq => h (heq ▸ List.mem_map_of_mem he)
  rw [slotAt?, hlookup]
  rfl

/-- If no key comes twice, the first entry and the other ones do not interfere. -/
theorem slotAt?_cons {k : String} (h : k ∉ es.map Prod.fst) (v : Value) (slot : Option α) :
    slotAt? key decode ((k, v) :: es) slot =
      (fillAt? key decode k v slot).bind (slotAt? key decode es) := by
  by_cases hk : k = key
  · subst hk
    have hrest : slotAt? k decode es = some := funext (slotAt?_of_notMem h)
    simp [slotAt?, fillAt?, hrest]
  · have hne : (key == k) = false := beq_false_of_ne (Ne.symm hk)
    simp [slotAt?, fillAt?, hk, List.lookup_cons, hne]

/-- A part that has to be there is what its slot is filled with. -/
theorem partAt?_eq : partAt? key decode es = (slotAt? key decode es none).bind id := by
  unfold partAt? slotAt?
  cases es.lookup key with
  | none => rfl
  | some v => cases h : decode v <;> simp [fillSlot, h]

/-- A part with a default is what its slot is filled with, if it is filled. -/
theorem partOr?_eq {default : α} :
    partOr? key decode default es = (slotAt? key decode es none).map (Option.getD · default) := by
  unfold partOr? slotAt?
  cases es.lookup key with
  | none => rfl
  | some v => cases h : decode v <;> simp [fillSlot, h]

end Parts

namespace FieldDefinition

/-! ## Element types -/

/-- The field definitions of an array. -/
def decodeList? : Value → Option (List FieldDefinition)
  | .array items => decodeAll? items
  | _ => none

/-- The element type of a table, by key. -/
def elementOfTable? (es : List (String × Value)) : Option (ArrayElement FieldDefinition) := do
  let type ← partAt? "type" FieldType.decode? es
  let fields ← partOr? "fields" decodeList? [] es
  pure ⟨type, fields⟩

/-- The element type of a value. -/
def decodeElement? : Value → Option (ArrayElement FieldDefinition)
  | .table es => (decodeElementEntries? {} es).bind ElementDraft.finish?
  | .array items => (decodeElementPositions? {} elementKeys items).bind ElementDraft.finish?
  | _ => none

theorem decodeElementPart?_eq (draft : ElementDraft) (key : String) (v : Value) :
    decodeElementPart? draft key v =
      (fillAt? "type" FieldType.decode? key v draft.type).bind fun type =>
      (fillAt? "fields" decodeList? key v draft.fields).map fun fields => ⟨type, fields⟩ := by
  have hparts : decodeElementPart? draft key v =
      if key = "type" then
        (fillSlot draft.type (FieldType.decode? v)).map fun slot => { draft with type := slot }
      else if key = "fields" then
        (fillSlot draft.fields (decodeList? v)).map fun slot => { draft with fields := slot }
      else some draft := by
    unfold decodeElementPart?
    cases v <;> rfl
  rw [hparts]
  unfold fillAt?
  by_cases htype : key = "type"
  · simp only [htype]
    cases fillSlot draft.type (FieldType.decode? v) <;> rfl
  by_cases hfields : key = "fields"
  · simp [hfields]
  simp [htype, hfields]

theorem decodeElementEntries?_cons (draft : ElementDraft) (key : String) (v : Value)
    (rest : List (String × Value)) :
    decodeElementEntries? draft ((key, v) :: rest) =
      (decodeElementPart? draft key v).bind (decodeElementEntries? · rest) := by
  rw [decodeElementEntries?]
  cases decodeElementPart? draft key v <;> rfl

/-- The walk through a table fills each slot at its key. -/
theorem decodeElementEntries?_eq {es : List (String × Value)} (h : (es.map Prod.fst).Nodup)
    (draft : ElementDraft) :
    decodeElementEntries? draft es =
      (slotAt? "type" FieldType.decode? es draft.type).bind fun type =>
      (slotAt? "fields" decodeList? es draft.fields).map fun fields => ⟨type, fields⟩ := by
  induction es generalizing draft with
  | nil => rfl
  | cons e rest ih =>
    obtain ⟨key, v⟩ := e
    obtain ⟨hkey, hrest⟩ := List.nodup_cons.mp h
    rw [decodeElementEntries?_cons, decodeElementPart?_eq, slotAt?_cons hkey, slotAt?_cons hkey]
    simp only [ih hrest]
    cases fillAt? "type" FieldType.decode? key v draft.type with
    | none => rfl
    | some type => cases fillAt? "fields" decodeList? key v draft.fields <;> simp

theorem decodeElement?_table {es : List (String × Value)} (h : (es.map Prod.fst).Nodup) :
    decodeElement? (.table es) = elementOfTable? es := by
  rw [decodeElement?, decodeElementEntries?_eq h, elementOfTable?, partAt?_eq, partOr?_eq]
  rcases slotAt? "type" FieldType.decode? es none with _ | _ | type
  · rfl
  · cases slotAt? "fields" decodeList? es none <;> rfl
  · cases slotAt? "fields" decodeList? es none <;> rfl

/-! ## Fields -/

/-- The definition of a table, by key. -/
def ofTable? (es : List (String × Value)) : Option FieldDefinition := do
  let name ← partAt? "name" decodeString? es
  let type ← partAt? "type" FieldType.decode? es
  let required ← partOr? "required" decodeBool? false es
  let fields ← partOr? "fields" decodeList? [] es
  let items ← partOr? "items" (fun v => (decodeElement? v).map some) none es
  pure (.mk name type required fields items)

theorem decodePart?_eq (draft : FieldDraft) (key : String) (v : Value) :
    decodePart? draft key v =
      (fillAt? "name" decodeString? key v draft.name).bind fun name =>
      (fillAt? "type" FieldType.decode? key v draft.type).bind fun type =>
      (fillAt? "required" decodeBool? key v draft.required).bind fun required =>
      (fillAt? "fields" decodeList? key v draft.fields).bind fun fields =>
      (fillAt? "items" (fun v => (decodeElement? v).map some) key v draft.items).map fun items =>
        ⟨name, type, required, fields, items⟩ := by
  have hparts : decodePart? draft key v =
      if key = "name" then
        (fillSlot draft.name (decodeString? v)).map fun slot => { draft with name := slot }
      else if key = "type" then
        (fillSlot draft.type (FieldType.decode? v)).map fun slot => { draft with type := slot }
      else if key = "required" then
        (fillSlot draft.required (decodeBool? v)).map fun slot => { draft with required := slot }
      else if key = "fields" then
        (fillSlot draft.fields (decodeList? v)).map fun slot => { draft with fields := slot }
      else if key = "items" then
        (fillSlot draft.items ((decodeElement? v).map some)).map fun slot =>
          { draft with items := slot }
      else some draft := by
    unfold decodePart?
    cases v <;> rfl
  rw [hparts]
  unfold fillAt?
  by_cases hname : key = "name"
  · simp only [hname]
    cases fillSlot draft.name (decodeString? v) <;> rfl
  by_cases htype : key = "type"
  · simp only [htype]
    cases fillSlot draft.type (FieldType.decode? v) <;> rfl
  by_cases hrequired : key = "required"
  · simp only [hrequired]
    cases fillSlot draft.required (decodeBool? v) <;> rfl
  by_cases hfields : key = "fields"
  · simp only [hfields]
    cases fillSlot draft.fields (decodeList? v) <;> rfl
  by_cases hitems : key = "items"
  · simp [hitems]
  simp [hname, htype, hrequired, hfields, hitems]

theorem decodeEntries?_cons (draft : FieldDraft) (key : String) (v : Value)
    (rest : List (String × Value)) :
    decodeEntries? draft ((key, v) :: rest) =
      (decodePart? draft key v).bind (decodeEntries? · rest) := by
  rw [decodeEntries?]
  cases decodePart? draft key v <;> rfl

/-- The walk through a table fills each slot at its key. -/
theorem decodeEntries?_eq {es : List (String × Value)} (h : (es.map Prod.fst).Nodup)
    (draft : FieldDraft) :
    decodeEntries? draft es =
      (slotAt? "name" decodeString? es draft.name).bind fun name =>
      (slotAt? "type" FieldType.decode? es draft.type).bind fun type =>
      (slotAt? "required" decodeBool? es draft.required).bind fun required =>
      (slotAt? "fields" decodeList? es draft.fields).bind fun fields =>
      (slotAt? "items" (fun v => (decodeElement? v).map some) es draft.items).map fun items =>
        ⟨name, type, required, fields, items⟩ := by
  induction es generalizing draft with
  | nil => rfl
  | cons e rest ih =>
    obtain ⟨key, v⟩ := e
    obtain ⟨hkey, hrest⟩ := List.nodup_cons.mp h
    rw [decodeEntries?_cons, decodePart?_eq]
    simp only [ih hrest, slotAt?_cons hkey]
    -- where one slot cannot be filled both sides fail, in whatever order they come to it
    cases fillAt? "name" decodeString? key v draft.name with
    | none => rfl
    | some name =>
    cases fillAt? "type" FieldType.decode? key v draft.type with
    | none => simp
    | some type =>
    cases fillAt? "required" decodeBool? key v draft.required with
    | none => simp
    | some required =>
    cases fillAt? "fields" decodeList? key v draft.fields with
    | none => simp
    | some fields =>
    cases fillAt? "items" (fun v => (decodeElement? v).map some) key v draft.items <;> simp

theorem decode?_table {es : List (String × Value)} (h : (es.map Prod.fst).Nodup) :
    decode? (.table es) = ofTable? es := by
  rw [decode?, decodeEntries?_eq h, ofTable?, partAt?_eq, partAt?_eq, partOr?_eq, partOr?_eq,
    partOr?_eq]
  rcases slotAt? "name" decodeString? es none with _ | _ | name
  · rfl
  · simp [Option.bind_assoc, FieldDraft.finish?, Option.bind_map, Function.comp_def]
  rcases slotAt? "type" FieldType.decode? es none with _ | _ | type
  · rfl
  · simp [Option.bind_assoc, FieldDraft.finish?, Option.bind_map, Function.comp_def]
  simp [Option.bind_assoc, FieldDraft.finish?, Option.bind_map, Function.comp_def]

end FieldDefinition

/-! ## Collections and schemas -/

namespace CollectionDefinition

/-- The collection of a table, by key. -/
def ofTable? (es : List (String × Value)) : Option CollectionDefinition := do
  let name ← partAt? "name" decodeString? es
  let fields ← partOr? "fields" FieldDefinition.decodeList? [] es
  pure ⟨name, fields⟩

theorem decodePart?_eq (draft : CollectionDraft) (key : String) (v : Value) :
    decodePart? draft (key, v) =
      (fillAt? "name" decodeString? key v draft.name).bind fun name =>
      (fillAt? "fields" FieldDefinition.decodeList? key v draft.fields).map fun fields =>
        ⟨name, fields⟩ := by
  have hparts : decodePart? draft (key, v) =
      if key = "name" then
        (fillSlot draft.name (decodeString? v)).map fun slot => { draft with name := slot }
      else if key = "fields" then
        (fillSlot draft.fields (FieldDefinition.decodeList? v)).map fun slot =>
          { draft with fields := slot }
      else some draft := by
    cases v <;> rfl
  rw [hparts]
  unfold fillAt?
  by_cases hname : key = "name"
  · simp only [hname]
    cases fillSlot draft.name (decodeString? v) <;> rfl
  by_cases hfields : key = "fields"
  · simp [hfields]
  simp [hname, hfields]

theorem foldlM_decodePart?_eq {es : List (String × Value)} (h : (es.map Prod.fst).Nodup)
    (draft : CollectionDraft) :
    es.foldlM decodePart? draft =
      (slotAt? "name" decodeString? es draft.name).bind fun name =>
      (slotAt? "fields" FieldDefinition.decodeList? es draft.fields).map fun fields =>
        ⟨name, fields⟩ := by
  induction es generalizing draft with
  | nil => rfl
  | cons e rest ih =>
    obtain ⟨key, v⟩ := e
    obtain ⟨hkey, hrest⟩ := List.nodup_cons.mp h
    rw [List.foldlM_cons, decodePart?_eq]
    simp only [ih hrest, slotAt?_cons hkey]
    cases fillAt? "name" decodeString? key v draft.name with
    | none => rfl
    | some name => cases fillAt? "fields" FieldDefinition.decodeList? key v draft.fields <;> simp

theorem decode?_table {es : List (String × Value)} (h : (es.map Prod.fst).Nodup) :
    decode? (.table es) = ofTable? es := by
  rw [decode?, ofParts?, foldlM_decodePart?_eq h, ofTable?, partAt?_eq, partOr?_eq]
  rcases slotAt? "name" decodeString? es none with _ | _ | name
  · rfl
  · cases slotAt? "fields" FieldDefinition.decodeList? es none <;> rfl
  · cases slotAt? "fields" FieldDefinition.decodeList? es none <;> rfl

/-- The collections of an array. -/
def decodeList? : Value → Option (List CollectionDefinition)
  | .array items => items.mapM decode?
  | _ => none

end CollectionDefinition

namespace Schema

/-- The schema of a table, by key. -/
def ofTable? (es : List (String × Value)) : Option Schema := do
  let collections ← partOr? "collections" CollectionDefinition.decodeList? [] es
  pure ⟨collections⟩

theorem foldlM_decodePart?_eq {es : List (String × Value)} (h : (es.map Prod.fst).Nodup)
    (slot : Option (List CollectionDefinition)) :
    es.foldlM decodePart? slot = slotAt? "collections" CollectionDefinition.decodeList? es slot := by
  induction es generalizing slot with
  | nil => rfl
  | cons e rest ih =>
    obtain ⟨key, v⟩ := e
    obtain ⟨hkey, hrest⟩ := List.nodup_cons.mp h
    have hpart : decodePart? slot (key, v) =
        fillAt? "collections" CollectionDefinition.decodeList? key v slot := by
      cases v <;> rfl
    rw [List.foldlM_cons, hpart, slotAt?_cons hkey]
    exact Option.bind_congr fun slot _ => ih hrest slot

theorem decode?_table {es : List (String × Value)} (h : (es.map Prod.fst).Nodup) :
    decode? (.table es) = ofTable? es := by
  rw [decode?, ofParts?, foldlM_decodePart?_eq h, ofTable?, partOr?_eq]
  cases slotAt? "collections" CollectionDefinition.decodeList? es none <;> rfl

end Schema

end DocumentQuery

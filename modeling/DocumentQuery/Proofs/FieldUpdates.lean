import Mathlib.Data.List.Nodup
import DocumentQuery.Proofs.Built
import DocumentQuery.Proofs.QueryParts
import DocumentQuery.Proofs.Texts
import DocumentQuery.Proofs.Tidy
/-!
# Updates, field by field

An update is a list of operations, each with some fields. Read field by field it
is a list of single changes (`FieldUpdate`), and that is what the rendered forms of
an update have in common. Three of them are objects of texts by path: one for each
operator in mongo, and one for the whole update in firestore and in couch.

Main definitions:
* `Query.fieldUpdates`: the changes that a query asks for.
* `readFields`: the changes that an object of texts says, given what one text says.
* `Mongo.readUpdates`, `Firestore.readUpdates`, `Couch.readUpdates`: the changes
  that the rendered object of an update says.

Results:
* `Mongo.readUpdates_updates`, `Firestore.readUpdates_data`,
  `Couch.readUpdates_updates`: they are the changes that the query asks for, as
  long as no path is changed twice.
-/
namespace DocumentQuery

/-- One change of one field; a removal has no value. -/
structure FieldUpdate where
  operator : UpdateOperator
  path : String
  value : Option Param
deriving DecidableEq

/-- The changes of an operation, by field. -/
def UpdateOperation.fieldUpdates (op : UpdateOperation) : List FieldUpdate :=
  op.fields.entries.map fun e => ⟨op.operator, e.1.path, e.2⟩

/-- The changes that a query asks for. -/
def Query.fieldUpdates (q : Query) : List FieldUpdate :=
  q.updates.flatMap UpdateOperation.fieldUpdates

/-- No path is changed twice. -/
def DistinctPaths (us : List FieldUpdate) : Prop := (us.map FieldUpdate.path).Nodup

instance (us : List FieldUpdate) : Decidable (DistinctPaths us) :=
  inferInstanceAs (Decidable (List.Nodup _))

/-- The change has a value unless it is a removal. -/
def FieldUpdate.Valued (u : FieldUpdate) : Prop := u.value.isSome = (u.operator != .unset)

theorem UpdateOperation.Valued.fieldUpdates {op : UpdateOperation} (h : op.Valued) :
    ∀ u ∈ op.fieldUpdates, u.Valued :=
  List.forall_mem_map.mpr h

theorem Query.Built.valued {q : Query} (h : q.Built) : ∀ u ∈ q.fieldUpdates, u.Valued := by
  intro u hu
  obtain ⟨op, hop, hu⟩ := List.mem_flatMap.mp hu
  exact (h.values op hop).fieldUpdates u hu

theorem UpdateOperation.map_path_fieldUpdates (op : UpdateOperation) :
    op.fieldUpdates.map FieldUpdate.path = op.fields.keys.map Field.path := by
  rw [fieldUpdates, OrderedMap.keys, List.map_map, List.map_map]
  rfl

/-- If no path is changed twice in a query, none is in one of its operations. -/
theorem Query.tidy_of_distinct {q : Query} (h : DistinctPaths q.fieldUpdates) :
    ∀ op ∈ q.updates, op.Tidy := by
  rw [DistinctPaths, fieldUpdates, List.map_flatMap, List.nodup_flatMap] at h
  intro op hop
  have hop' := h.1 op hop
  rwa [op.map_path_fieldUpdates] at hop'

/-! ## Objects of texts -/

/-- The change that an entry says, given what its text says. -/
def readField (read : String → Option (UpdateOperator × Option Param)) :
    String × Json → Option FieldUpdate
  | (path, .str s) => (read s).map fun c => ⟨c.1, path, c.2⟩
  | _ => none

/-- The changes that an object says, entry by entry. -/
def readFields (read : String → Option (UpdateOperator × Option Param)) :
    Json → Option (List FieldUpdate)
  | .obj es => es.mapM (readField read)
  | _ => none

/-! ## Mongo -/

namespace Mongo

/-- The operator with the given token. -/
def ofUpdateToken? (token : String) : Option UpdateOperator :=
  (Vocabulary.all : List UpdateOperator).find? fun op => op.token == token

/-- The change that a text below an operator says; an empty text says that there is no value. -/
def change? (operator : UpdateOperator) (s : String) : Option (UpdateOperator × Option Param) :=
  if s = "" then some (operator, none)
  else (Param.ofPlaceholder? s).map fun p => (operator, some p)

/-- The changes that the entry of an operator says. -/
def readOperation (e : String × Json) : Option (List FieldUpdate) := do
  let operator ← ofUpdateToken? e.1
  readFields (change? operator) e.2

/-- The changes that the object of an update says. -/
def readUpdates : Json → Option (List FieldUpdate)
  | .obj es => (es.mapM readOperation).map List.flatten
  | _ => none

theorem ofUpdateToken?_token (op : UpdateOperator) : ofUpdateToken? op.token = some op :=
  Vocabulary.all_find?_token op

theorem readField_changed (operator : UpdateOperator) (path : String) (value : Option Param) :
    readField (change? operator) (path, changed value) = some ⟨operator, path, value⟩ := by
  cases value with
  | none => rfl
  | some p =>
    have hne : p.placeholder ≠ "" := by
      intro heq
      have hmarked := p.isMarked_placeholder
      rw [heq] at hmarked
      cases hmarked
    simp [changed, readField, change?, hne]

theorem readOperation_updateEntry {op : UpdateOperation} (h : op.Tidy) :
    readOperation (updateEntry op) = some op.fieldUpdates := by
  have hkeys : (Entries.keys (op.fields.entries.map fun e => (e.1.path, changed e.2))).Nodup := by
    rw [Entries.keys, List.map_map]
    unfold UpdateOperation.Tidy at h
    rwa [OrderedMap.keys, List.map_map] at h
  rw [readOperation, updateEntry, ofUpdateToken?_token, Json.ofEntries,
    Entries.ofPairs_eq_of_nodup hkeys]
  refine mapM_eq_some ?_
  rw [UpdateOperation.fieldUpdates, List.forall₂_map_left_iff, List.forall₂_map_right_iff,
    List.forall₂_same]
  exact fun e _ => readField_changed op.operator e.1.path e.2

/-- No two operations of a built query have the same operator, so none takes another's place. -/
theorem ofEntries_updates {q : Query} (hq : q.Built) :
    Json.ofEntries (q.updates.map updateEntry) = .obj (q.updates.map updateEntry) := by
  have hkeys : (Entries.keys (q.updates.map updateEntry)).Nodup := by
    have htokens := List.Nodup.map Vocabulary.token_injective hq.operators
    rw [List.map_map] at htokens
    rwa [Entries.keys, List.map_map]
  rw [Json.ofEntries, Entries.ofPairs_eq_of_nodup hkeys]

/-- The object of an update says what the operations ask for. -/
theorem readUpdates_updates {q : Query} (h : DistinctPaths q.fieldUpdates) :
    readUpdates (.obj (q.updates.map updateEntry)) = some q.fieldUpdates := by
  have hread : (q.updates.map updateEntry).mapM readOperation =
      some (q.updates.map UpdateOperation.fieldUpdates) := by
    refine mapM_eq_some ?_
    rw [List.forall₂_map_left_iff, List.forall₂_map_right_iff, List.forall₂_same]
    exact fun op hop => readOperation_updateEntry (Query.tidy_of_distinct h op hop)
  rw [readUpdates, hread, Option.map_some, Query.fieldUpdates, List.flatMap_def]

/-- The entry of the operations stands in every rendered update. -/
theorem get?_update_of_parts {q : Query} (hq : q.Built) (hop : q.operation.isUpdate = true)
    {parts : Entries} {ps : List Param} (h : (renderParts q).Gives parts ps) :
    Entries.get? "update" parts = some (.obj (q.updates.map updateEntry)) := by
  obtain ⟨filter, update, qs, rs, -, hupdate, rfl, -⟩ : ∃ filter update qs rs,
      (renderQueryFilter q).Gives filter qs ∧ (renderUpdates q.updates).Gives update rs ∧
      parts = [("filter", filter), ("update", update)] ++
        Entries.when q.upsert "upsert" (.bool true) ∧ ps = qs ++ rs := by
    unfold renderParts at h
    cases hcase : q.operation with
    | update | updateMany =>
      rw [hcase] at h
      exact Render.gives_two.mp h
    | _ =>
      rw [hcase] at hop
      cases hop
  obtain ⟨rfl, -⟩ := renderUpdates_gives.mp hupdate
  rw [ofEntries_updates hq]
  simp

end Mongo

/-! ## Firestore -/

namespace Firestore

/-- The change that a text says: what is no removal sets the field. -/
def change? (s : String) : Option (UpdateOperator × Option Param) :=
  if s = removal then some (.unset, none)
  else (Param.ofPlaceholder? s).map fun p => (.set, some p)

/-- The changes that the object of an update says. -/
def readUpdates : Json → Option (List FieldUpdate) := readFields change?

theorem changes_eq (q : Query) :
    changes q.updates = q.fieldUpdates.map fun u => (u.operator, u.path, u.value) := by
  rw [changes, Query.fieldUpdates, List.map_flatMap]
  refine List.flatMap_congr fun op _ => ?_
  rw [UpdateOperation.fieldUpdates, List.map_map]
  rfl

theorem readField_removal (path : String) :
    readField change? (path, .str removal) = some ⟨.unset, path, none⟩ := by
  simp [readField, change?]

theorem readField_placeholder (path : String) (p : Param) :
    readField change? (path, .str p.placeholder) = some ⟨.set, path, some p⟩ := by
  have hne : p.placeholder ≠ removal := by
    intro heq
    have hmarked := p.isMarked_placeholder
    rw [heq] at hmarked
    revert hmarked
    decide
  simp [readField, change?, hne]

/-- An assignment says the change that it was made for. -/
theorem readField_assignmentEntry {u : FieldUpdate} (hvalued : u.Valued) {a : String × Assignment}
    (h : Makes (u.operator, u.path, u.value) a) :
    readField change? (assignmentEntry a) = some u := by
  obtain ⟨operator, path, value⟩ := u
  obtain ⟨path', a⟩ := a
  obtain ⟨rfl, ha⟩ := h
  cases operator with
  | unset =>
    cases ha
    obtain rfl : value = none := by simpa [FieldUpdate.Valued] using hvalued
    exact readField_removal path'
  | set =>
    cases value with
    | none => cases ha
    | some p =>
      cases ha
      exact readField_placeholder path' p
  | _ => cases ha

/-- The object of an update says what the operations ask for. -/
theorem readUpdates_data {q : Query} (hq : q.Built) {v : Json} {ps : List Param}
    (h : (renderData q.updates).Gives v ps) : readUpdates v = some q.fieldUpdates := by
  obtain ⟨list, hlist, rfl, -⟩ := renderData_gives.mp h
  have hmake := assignments_make hlist
  rw [changes_eq, List.forall₂_map_left_iff] at hmake
  have hvalued := hq.valued
  generalize q.fieldUpdates = us at hmake hvalued
  refine mapM_eq_some ?_
  rw [List.forall₂_map_left_iff]
  clear hlist h
  induction hmake with
  | nil => exact .nil
  | cons ha _ ih =>
    obtain ⟨hu, hus⟩ := List.forall_mem_cons.mp hvalued
    exact .cons (readField_assignmentEntry hu ha) (ih hus)

end Firestore

/-! ## Couch -/

namespace Couch

/-- The change that a text says; there is only setting. -/
def change? (s : String) : Option (UpdateOperator × Option Param) :=
  (Param.ofPlaceholder? s).map fun p => (.set, some p)

/-- The changes that the object of an update says. -/
def readUpdates : Json → Option (List FieldUpdate) := readFields change?

/-- The entry of a change. -/
def updateEntry (u : FieldUpdate) : String × Json :=
  (u.path, .str ((u.value.map Param.placeholder).getD ""))

theorem valued_eq {op : UpdateOperation} (hop : op.Valued) (hset : op.operator = .set) :
    (valued op).map (fun e => (e.1, Json.str e.2.placeholder)) =
      op.fieldUpdates.map updateEntry := by
  unfold UpdateOperation.Valued at hop
  rw [hset] at hop
  rw [valued, UpdateOperation.fieldUpdates]
  generalize op.fields.entries = es at hop
  induction es with
  | nil => rfl
  | cons e es ih =>
    obtain ⟨he, hes⟩ := List.forall_mem_cons.mp hop
    obtain ⟨p, hp⟩ := Option.isSome_iff_exists.mp he
    simp [hp, updateEntry, ih hes]

theorem entries_of_renderUpdates {ops : List UpdateOperation} (hops : ∀ op ∈ ops, op.Valued)
    {lists : List Entries} {ps : List Param} (h : (Render.each renderUpdate ops).Gives lists ps) :
    (∀ u ∈ ops.flatMap UpdateOperation.fieldUpdates, u.operator = .set) ∧
      lists.flatten = (ops.flatMap UpdateOperation.fieldUpdates).map updateEntry := by
  induction ops generalizing lists ps with
  | nil =>
    obtain ⟨rfl, -⟩ := Render.gives_each_nil.mp h
    simp
  | cons op ops ih =>
    obtain ⟨hop, hops⟩ := List.forall_mem_cons.mp hops
    obtain ⟨es, ls, qs, rs, hes, hls, rfl, -⟩ := Render.gives_each_cons.mp h
    obtain ⟨hset, rfl, -⟩ := renderUpdate_gives.mp hes
    obtain ⟨hsets, hflatten⟩ := ih hops hls
    refine ⟨List.forall_mem_append.mpr ⟨List.forall_mem_map.mpr fun _ _ => hset, hsets⟩, ?_⟩
    rw [List.flatten_cons, List.flatMap_cons, List.map_append, hflatten, valued_eq hop hset]

theorem readField_updateEntry {u : FieldUpdate} (hvalued : u.Valued) (hset : u.operator = .set) :
    readField change? (updateEntry u) = some u := by
  obtain ⟨operator, path, value⟩ := u
  obtain rfl : operator = .set := hset
  obtain ⟨p, rfl⟩ := Option.isSome_iff_exists.mp hvalued
  simp [readField, updateEntry, change?]

/-- The object of an update says what the operations ask for. -/
theorem readUpdates_updates {q : Query} (hq : q.Built) (hpaths : DistinctPaths q.fieldUpdates)
    {lists : List Entries} {ps : List Param}
    (h : (Render.each renderUpdate q.updates).Gives lists ps) :
    readUpdates (.ofEntries lists.flatten) = some q.fieldUpdates := by
  obtain ⟨hset, hflatten⟩ := entries_of_renderUpdates hq.values h
  have hkeys : (Entries.keys (q.fieldUpdates.map updateEntry)).Nodup := by
    rw [Entries.keys, List.map_map]
    exact hpaths
  rw [hflatten]
  show readUpdates (.ofEntries (q.fieldUpdates.map updateEntry)) = _
  rw [Json.ofEntries, Entries.ofPairs_eq_of_nodup hkeys]
  refine mapM_eq_some ?_
  rw [List.forall₂_map_left_iff, List.forall₂_same]
  exact fun u hu => readField_updateEntry (hq.valued u hu) (hset u hu)

end Couch

end DocumentQuery

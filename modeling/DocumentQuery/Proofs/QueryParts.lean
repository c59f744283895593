import DocumentQuery.Proofs.Dynamo.Aliases
import DocumentQuery.Proofs.Firestore.Clauses
import DocumentQuery.Proofs.Mongo.Stages
import DocumentQuery.Dialect.Couch
import DocumentQuery.Dialect.Dynamo.Query
/-!
# Parts of queries

What the parts of a query become in each dialect, and with which parameters.
Documents and changes never fail, so their objects are given outright; of the
rest the lemmas say which of its own parts have to succeed.
-/
namespace DocumentQuery

open Render (gives_bind gives_pure gives_map gives_ofExcept)

/-! ## Documents -/

/-- The entries of a document. -/
def Document.entries (d : Document) : Entries :=
  d.fields.entries.map fun e => (e.1.path, .str e.2.placeholder)

theorem Render.document_gives {d : Document} {v : Json} {ps : List Param} :
    (Render.document d).Gives v ps ↔ v = .ofEntries d.entries ∧ ps = d.fields.values := by
  have hentry : ∀ e : Field × Param,
      (do let v ← Render.placeholder e.2; pure (e.1.path, v) : Render (String × Json)).Gives
        (e.1.path, .str e.2.placeholder) [e.2] := by
    intro e
    simp
  have hvalues : d.fields.entries.flatMap (fun e => [e.2]) = d.fields.values :=
    List.flatMap_pure_eq_map ..
  rw [Render.document, bind_pure_comp, gives_map, Render.entriesBy]
  simp only [Render.gives_each_of_forall hentry, hvalues]
  constructor
  · intro h
    obtain ⟨_, ⟨rfl, rfl⟩, rfl⟩ := h
    exact ⟨rfl, rfl⟩
  · intro h
    obtain ⟨rfl, rfl⟩ := h
    exact ⟨_, ⟨rfl, rfl⟩, rfl⟩

/-! ## Mongo -/

namespace Mongo

/-- The value of a changed field. -/
def changed (o : Option Param) : Json := (o.map fun p => .str p.placeholder).getD (.str "")

/-- The entry of an update operation. -/
def updateEntry (op : UpdateOperation) : String × Json :=
  (op.operator.token, .ofEntries (op.fields.entries.map fun e => (e.1.path, changed e.2)))

theorem renderChange_gives (o : Option Param) : (renderChange o).Gives (changed o) o.toList := by
  cases o <;> simp [renderChange, changed]

theorem renderUpdate_gives (op : UpdateOperation) :
    (renderUpdate op).Gives (updateEntry op) (op.fields.values.flatMap Option.toList) := by
  have hentry : ∀ e : Field × Option Param,
      (do let v ← renderChange e.2; pure (e.1.path, v) : Render (String × Json)).Gives
        (e.1.path, changed e.2) e.2.toList := by
    intro e
    exact Render.gives_entry.mpr ⟨_, renderChange_gives e.2, rfl⟩
  rw [renderUpdate, bind_pure_comp, gives_map]
  refine ⟨_, (Render.gives_each_of_forall hentry).mpr ⟨rfl, ?_⟩, rfl⟩
  rw [OrderedMap.values, List.flatMap_map]

theorem renderUpdates_gives {ops : List UpdateOperation} {v : Json} {ps : List Param} :
    (renderUpdates ops).Gives v ps ↔ v = .ofEntries (ops.map updateEntry) ∧
      ps = ops.flatMap fun op => op.fields.values.flatMap Option.toList := by
  rw [renderUpdates, bind_pure_comp, gives_map]
  simp only [Render.gives_each_of_forall renderUpdate_gives]
  constructor
  · intro h
    obtain ⟨_, ⟨rfl, rfl⟩, rfl⟩ := h
    exact ⟨rfl, rfl⟩
  · intro h
    obtain ⟨rfl, rfl⟩ := h
    exact ⟨_, ⟨rfl, rfl⟩, rfl⟩

theorem renderFind_gives {q : Query} {parts : Entries} {ps : List Param} :
    (renderFind q).Gives parts ps ↔ ∃ filter projection skip limit qs rs ts us,
      (renderQueryFilter q).Gives filter qs ∧
      (Render.optional renderProjection q.projection).Gives projection rs ∧
      (Render.optional Render.pagination q.skip).Gives skip ts ∧
      (Render.optional Render.pagination q.limit).Gives limit us ∧
      parts = ("filter", filter) :: Entries.optional "projection" projection
        ++ Entries.when (!q.sort.isEmpty) "sort" (sortObject q.sort)
        ++ Entries.optional "skip" skip ++ Entries.optional "limit" limit ∧
      ps = qs ++ (rs ++ (ts ++ us)) := by
  rw [renderFind]
  exact Render.gives_four

end Mongo

/-! ## Dynamo -/

namespace Dynamo

/-- The map of the values, left out if it is empty. -/
def valueParts (values : List Param) : Entries :=
  Entries.when (!values.isEmpty) "ExpressionAttributeValues" (.obj (valueMap values))

theorem valueAction_eq_ok_iff {operator : UpdateOperator} {make : String → Param → Action}
    {field : Field} {value : Option Param} {a : Action} :
    valueAction operator make field value = .ok a ↔
      ∃ p, value = some p ∧ a = make field.path p := by
  cases value with
  | none => simp [valueAction]
  | some p => simp [valueAction, eq_comm]

/-- The action does to the field what the operator asks for: only a removal leaves the value out. -/
def Action.Makes (operator : UpdateOperator) (e : Field × Option Param) (a : Action) : Prop :=
  a.path = e.1.path ∧ a.value? = if operator = .unset then none else e.2

theorem operationActions_make {op : UpdateOperation} {acts : List Action}
    (h : operationActions op = .ok acts) :
    List.Forall₂ (Action.Makes op.operator) op.fields.entries acts := by
  have hvalued : ∀ {operator : UpdateOperator} {make : String → Param → Action}
      {acts : List Action}, operator ≠ .unset →
      (∀ path p, (make path p).path = path ∧ (make path p).value? = some p) →
      op.fields.entries.mapM (fun e => valueAction operator make e.1 e.2) = .ok acts →
        List.Forall₂ (Action.Makes operator) op.fields.entries acts := by
    intro operator make acts hoperator hmake hacts
    refine (mapM_eq_ok_iff.mp hacts).imp fun e a ha => ?_
    obtain ⟨p, hp, rfl⟩ := valueAction_eq_ok_iff.mp ha
    obtain ⟨hpath, hvalue⟩ := hmake e.1.path p
    exact ⟨hpath, by rw [if_neg hoperator, hvalue, hp]⟩
  unfold operationActions at h
  cases hoperator : op.operator with
  | set =>
    rw [hoperator] at h
    exact hvalued (by decide) (fun _ _ => ⟨rfl, rfl⟩) h
  | inc =>
    rw [hoperator] at h
    exact hvalued (by decide) (fun _ _ => ⟨rfl, rfl⟩) h
  | unset =>
    rw [hoperator] at h
    cases h
    rw [OrderedMap.keys, List.map_map, List.forall₂_map_right_iff]
    exact List.forall₂_same.mpr fun e _ => ⟨rfl, rfl⟩
  | _ =>
    rw [hoperator] at h
    cases h

theorem actions_eq_ok_iff {ops : List UpdateOperation} {acts : List Action} :
    actions ops = .ok acts ↔
      ∃ lists, List.Forall₂ (fun op as => operationActions op = .ok as) ops lists ∧
        acts = lists.flatten := by
  simp only [actions, bind_eq_ok_iff, mapM_eq_ok_iff, pure_eq_ok_iff]

section Queries

variable {q : Query} {parts : Entries} {ps : List Param}

theorem renderFind_gives :
    (renderFind q).Gives parts ps ↔ ∃ c fields limit us, queryCondition q = .ok c ∧
      q.projection.mapM (selectedPaths .dynamo) = .ok fields ∧
      (Render.optional Render.pagination q.limit).Gives limit us ∧
      parts = conditionEntries "FilterExpression" c ++ nameEntries (pathsOf c ++ fields.getD [])
        ++ valueParts (valuesOf c) ++ Entries.optional "Limit" limit
        ++ Entries.when (!(fields.getD []).isEmpty) "ProjectionExpression"
          (.str (", ".intercalate
            ((fields.getD []).zipIdx.map fun p => nameAlias ((pathsOf c).length + p.2)))) ∧
      ps = valuesOf c ++ us := by
  simp only [renderFind, gives_bind, gives_ofExcept, valueEntries_gives, gives_pure]
  constructor
  · intro h
    obtain ⟨c, _, _, ⟨hc, rfl⟩, ⟨fields, _, _, ⟨hfields, rfl⟩, ⟨_, _, _, ⟨rfl, rfl⟩,
      ⟨limit, us, _, hlimit, ⟨rfl, rfl⟩, rfl⟩, rfl⟩, rfl⟩, rfl⟩ := h
    exact ⟨c, fields, limit, us, hc, hfields, hlimit, rfl, by simp⟩
  · intro h
    obtain ⟨c, fields, limit, us, hc, hfields, hlimit, rfl, rfl⟩ := h
    exact ⟨c, _, _, ⟨hc, rfl⟩, ⟨fields, _, _, ⟨hfields, rfl⟩, ⟨_, _, _, ⟨rfl, rfl⟩,
      ⟨limit, us, _, hlimit, ⟨rfl, rfl⟩, rfl⟩, rfl⟩, rfl⟩, by simp⟩

theorem renderUpdate_gives :
    (renderUpdate q).Gives parts ps ↔ ∃ c acts, queryCondition q = .ok c ∧
      actions q.updates = .ok acts ∧
      parts = ("UpdateExpression",
          .str (updateText (pathsOf c).length (valuesOf c).length acts))
        :: conditionEntries "ConditionExpression" c
        ++ nameEntries (pathsOf c ++ acts.map Action.path)
        ++ valueParts (valuesOf c ++ acts.filterMap Action.value?) ∧
      ps = valuesOf c ++ acts.filterMap Action.value? := by
  simp only [renderUpdate, gives_bind, gives_ofExcept, valueEntries_gives, gives_pure]
  constructor
  · intro h
    obtain ⟨c, _, _, ⟨hc, rfl⟩, ⟨acts, _, _, ⟨hacts, rfl⟩, ⟨_, _, _, ⟨rfl, rfl⟩, ⟨rfl, rfl⟩, rfl⟩,
      rfl⟩, rfl⟩ := h
    exact ⟨c, acts, hc, hacts, rfl, by simp⟩
  · intro h
    obtain ⟨c, acts, hc, hacts, rfl, rfl⟩ := h
    exact ⟨c, _, _, ⟨hc, rfl⟩, ⟨acts, _, _, ⟨hacts, rfl⟩, ⟨_, _, _, ⟨rfl, rfl⟩, ⟨rfl, rfl⟩, rfl⟩,
      rfl⟩, by simp⟩

theorem renderDelete_gives :
    (renderDelete q).Gives parts ps ↔ ∃ c, queryCondition q = .ok c ∧
      parts = conditionEntries "ConditionExpression" c ++ nameEntries (pathsOf c)
        ++ valueParts (valuesOf c) ∧
      ps = valuesOf c := by
  simp only [renderDelete, gives_bind, gives_ofExcept, valueEntries_gives, gives_pure]
  constructor
  · intro h
    obtain ⟨c, _, _, ⟨hc, rfl⟩, ⟨_, _, _, ⟨rfl, rfl⟩, ⟨rfl, rfl⟩, rfl⟩, rfl⟩ := h
    exact ⟨c, hc, rfl, by simp⟩
  · intro h
    obtain ⟨c, hc, rfl, rfl⟩ := h
    exact ⟨c, _, _, ⟨hc, rfl⟩, ⟨_, _, _, ⟨rfl, rfl⟩, ⟨rfl, rfl⟩, rfl⟩, by simp⟩

end Queries

end Dynamo

/-! ## Firestore -/

namespace Firestore

/-- The parameter of an assignment. -/
def Assignment.value? : Assignment → Option Param
  | .value p => some p
  | .removal => none

/-- The entry of an assignment. -/
def assignmentEntry (a : String × Assignment) : String × Json :=
  (a.1, (a.2.value?.map fun p => .str p.placeholder).getD (.str removal))

theorem renderAssignment_gives (a : String × Assignment) :
    (renderAssignment a).Gives (assignmentEntry a) a.2.value?.toList := by
  obtain ⟨path, a⟩ := a
  cases a <;> simp [renderAssignment, assignmentEntry, Assignment.value?]

/-- The assignment is to the path of the change, and writes what the change asks for. -/
def Makes (c : UpdateOperator × String × Option Param) (a : String × Assignment) : Prop :=
  a.1 = c.2.1 ∧ assignment c.1 c.2.1 c.2.2 = .ok a.2

theorem makes_of_assignments : ∀ {cs : List (UpdateOperator × String × Option Param)}
    {written list : List (String × Assignment)}, assignments written cs = .ok list →
      ∃ made, list = written ++ made ∧ List.Forall₂ Makes cs made
  | [], written, _, h => by
    cases h
    exact ⟨[], (List.append_nil written).symm, .nil⟩
  | (operator, path, value) :: rest, written, list, h => by
    rw [assignments] at h
    split at h
    · cases h
    · obtain ⟨a, ha, h⟩ := bind_eq_ok_iff.mp h
      obtain ⟨made, rfl, hmade⟩ := makes_of_assignments h
      exact ⟨(path, a) :: made, by simp, .cons ⟨rfl, ha⟩ hmade⟩

/-- Every change of an update makes one assignment. -/
theorem assignments_make {cs : List (UpdateOperator × String × Option Param)}
    {list : List (String × Assignment)} (h : assignments [] cs = .ok list) :
    List.Forall₂ Makes cs list := by
  obtain ⟨made, rfl, hmade⟩ := makes_of_assignments h
  exact hmade

theorem renderData_gives {ops : List UpdateOperation} {v : Json} {ps : List Param} :
    (renderData ops).Gives v ps ↔ ∃ list, assignments [] (changes ops) = .ok list ∧
      v = .obj (list.map assignmentEntry) ∧ ps = list.flatMap fun a => a.2.value?.toList := by
  simp only [renderData, gives_bind, gives_ofExcept,
    Render.gives_each_of_forall renderAssignment_gives, gives_pure]
  constructor
  · intro h
    obtain ⟨list, _, _, ⟨hlist, rfl⟩, ⟨_, _, _, ⟨rfl, rfl⟩, ⟨rfl, rfl⟩, rfl⟩, rfl⟩ := h
    exact ⟨list, hlist, rfl, by simp⟩
  · intro h
    obtain ⟨list, hlist, rfl, rfl⟩ := h
    exact ⟨list, _, _, ⟨hlist, rfl⟩, ⟨_, _, _, ⟨rfl, rfl⟩, ⟨rfl, rfl⟩, rfl⟩, by simp⟩

theorem whereEntries_gives {q : Query} {es : Entries} {ps : List Param} :
    (whereEntries q).Gives es ps ↔ ∃ list, (Render.optional renderWhere q.filter).Gives list ps ∧
      es = Entries.optional "where" list := by
  rw [whereEntries, bind_pure_comp, gives_map]

theorem renderFind_gives {q : Query} {parts : Entries} {ps : List Param} :
    (renderFind q).Gives parts ps ↔ ∃ conditions limit offset fields qs rs ts,
      (whereEntries q).Gives conditions qs ∧
      (Render.optional Render.pagination q.limit).Gives limit rs ∧
      (Render.optional Render.pagination q.skip).Gives offset ts ∧
      q.projection.mapM (selectedPaths .firestore) = .ok fields ∧
      parts = conditions ++ Entries.when (!q.sort.isEmpty) "orderBy" (.arr (q.sort.map orderClause))
        ++ Entries.optional "limit" limit ++ Entries.optional "offset" offset
        ++ Entries.when (!(fields.getD []).isEmpty) "select" (.strings (fields.getD [])) ∧
      ps = qs ++ (rs ++ ts) := by
  rw [renderFind, Render.gives_four]
  simp only [gives_ofExcept]
  constructor
  · intro h
    obtain ⟨conditions, limit, offset, fields, qs, rs, ts, _, hc, hl, ho, ⟨hf, rfl⟩, rfl, rfl⟩ := h
    exact ⟨conditions, limit, offset, fields, qs, rs, ts, hc, hl, ho, hf, rfl, by simp⟩
  · intro h
    obtain ⟨conditions, limit, offset, fields, qs, rs, ts, hc, hl, ho, hf, rfl, rfl⟩ := h
    exact ⟨conditions, limit, offset, fields, qs, rs, ts, _, hc, hl, ho, ⟨hf, rfl⟩, rfl, by simp⟩

end Firestore

/-! ## Couch -/

namespace Couch

theorem renderUpdate_gives {op : UpdateOperation} {es : Entries} {ps : List Param} :
    (renderUpdate op).Gives es ps ↔ op.operator = .set ∧
      es = (valued op).map (fun e => (e.1, .str e.2.placeholder)) ∧
      ps = (valued op).map Prod.snd := by
  have hentry : ∀ e : String × Param,
      (do let v ← Render.placeholder e.2; pure (e.1, v) : Render (String × Json)).Gives
        (e.1, .str e.2.placeholder) [e.2] := by
    intro e
    simp
  have hvalues : (valued op).flatMap (fun e => [e.2]) = (valued op).map Prod.snd :=
    List.flatMap_pure_eq_map ..
  have hsupports : Dialect.couch.supportsUpdate op.operator = true ↔ op.operator = .set := by
    simp [Dialect.supportsUpdate]
  unfold renderUpdate
  by_cases h : op.operator = .set
  · rw [if_pos (hsupports.mpr h), Render.gives_each_of_forall hentry, hvalues]
    simp only [h, true_and]
  · rw [if_neg (fun h' => h (hsupports.mp h')), Render.gives_unsupported]
    simp only [h, false_and]

theorem renderFind_gives {q : Query} {parts : Entries} {ps : List Param} :
    (renderFind q).Gives parts ps ↔ ∃ selector fields limit skip qs rs ts,
      (Render.optional renderSelector q.filter).Gives selector qs ∧
      q.projection.mapM (selectedPaths .couch) = .ok fields ∧
      (Render.optional Render.pagination q.limit).Gives limit rs ∧
      (Render.optional Render.pagination q.skip).Gives skip ts ∧
      parts = ("selector", selector.getD (.obj []))
        :: Entries.when (!(fields.getD []).isEmpty) "fields" (.strings (fields.getD []))
        ++ Entries.when (!q.sort.isEmpty) "sort"
          (.arr (q.sort.map fun s => .single s.field.path (.str s.order.word)))
        ++ Entries.optional "limit" limit ++ Entries.optional "skip" skip ∧
      ps = qs ++ (rs ++ ts) := by
  rw [renderFind, Render.gives_four]
  simp only [gives_ofExcept]
  constructor
  · intro h
    obtain ⟨selector, fields, limit, skip, qs, _, rs, ts, hs, ⟨hf, rfl⟩, hl, hk, rfl, rfl⟩ := h
    exact ⟨selector, fields, limit, skip, qs, rs, ts, hs, hf, hl, hk, rfl, by simp⟩
  · intro h
    obtain ⟨selector, fields, limit, skip, qs, rs, ts, hs, hf, hl, hk, rfl, rfl⟩ := h
    exact ⟨selector, fields, limit, skip, qs, _, rs, ts, hs, ⟨hf, rfl⟩, hl, hk, rfl, by simp⟩

end Couch

end DocumentQuery

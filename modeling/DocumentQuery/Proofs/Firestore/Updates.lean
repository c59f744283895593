import DocumentQuery.Proofs.BoundParameters
import DocumentQuery.Proofs.FieldUpdates
/-!
# Updates for firestore

Firestore writes an update as one object from paths to values. Its changes are
gathered in order, and a path that was written before is refused, whichever
operation wrote it and whichever collection its field belongs to. Since no path
is written twice, no entry of the object takes another's place, and the object
has the changes of the query one by one.

Main definitions:
* `Puts`: an entry of the object carries out a change.
* `setParam?`: the value that a change sets.

Results:
* `assignments_isOk_iff`: which changes can be gathered.
* `succeeds_renderData_iff`: which updates have an object.
* `renderData_exact`: what is in it.
* `update_exact`: both, for the rendered updates that chains build.
-/
namespace DocumentQuery.Firestore

open Entries (get?)

/-! ## Gathering changes -/

/-- Changes are gathered exactly if each of them can be expressed and all paths are distinct, those
written before included. -/
theorem assignments_isOk_iff {cs : List (UpdateOperator × String × Option Param)} :
    ∀ {written : List (String × Assignment)}, (written.map Prod.fst).Nodup →
      ((∃ list, assignments written cs = .ok list) ↔
        (∀ c ∈ cs, ∃ a, assignment c.1 c.2.1 c.2.2 = .ok a) ∧
          (written.map Prod.fst ++ cs.map fun c => c.2.1).Nodup) := by
  induction cs with
  | nil =>
    intro written hwritten
    simp [assignments, hwritten]
  | cons c cs ih =>
    intro written hwritten
    obtain ⟨operator, path, value⟩ := c
    rw [assignments, List.forall_mem_cons, List.map_cons]
    by_cases hmem : path ∈ written.map Prod.fst
    · -- the path is refused, and it stands on both sides of the joined list
      rw [if_pos (List.contains_iff_mem.mpr hmem)]
      constructor
      · rintro ⟨_, h⟩
        cases h
      · rintro ⟨-, hnodup⟩
        exact absurd List.mem_cons_self (List.disjoint_of_nodup_append hnodup hmem)
    · rw [if_neg fun h => hmem (List.contains_iff_mem.mp h)]
      -- the path moves from those still to come to those that were written
      have hmove : ∀ a : Assignment, (written.map Prod.fst ++ path :: cs.map fun c => c.2.1) =
          (written ++ [(path, a)]).map Prod.fst ++ cs.map fun c => c.2.1 := by
        simp
      have hnext : ∀ a : Assignment, ((written ++ [(path, a)]).map Prod.fst).Nodup := by
        intro a
        rw [List.map_append, List.map_singleton, ← List.concat_eq_append]
        exact hwritten.concat hmem
      simp only [bind_eq_ok_iff]
      constructor
      · rintro ⟨list, a, ha, hrest⟩
        obtain ⟨hall, hnodup⟩ := (ih (hnext a)).mp ⟨list, hrest⟩
        exact ⟨⟨⟨a, ha⟩, hall⟩, hmove a ▸ hnodup⟩
      · rintro ⟨⟨⟨a, ha⟩, hall⟩, hnodup⟩
        obtain ⟨list, hrest⟩ := (ih (hnext a)).mpr ⟨hall, hmove a ▸ hnodup⟩
        exact ⟨list, a, ha, hrest⟩

/-- Only setting and removing can be expressed. -/
theorem assignment_isOk_iff {u : FieldUpdate} (hvalued : u.Valued) :
    (∃ a, assignment u.operator u.path u.value = .ok a) ↔
      u.operator = .set ∨ u.operator = .unset := by
  obtain ⟨operator, path, value⟩ := u
  cases operator with
  | set =>
    obtain ⟨p, rfl⟩ := Option.isSome_iff_exists.mp hvalued
    simp [assignment]
  | _ => simp [assignment]

/-- Every change sets or removes exactly if every operation with fields does. -/
theorem forall_fieldUpdates_iff {q : Query} {P : UpdateOperator → Prop} :
    (∀ u ∈ q.fieldUpdates, P u.operator) ↔
      ∀ op ∈ q.updates, op.fields.keys ≠ [] → P op.operator := by
  rw [Query.fieldUpdates, List.forall_mem_flatMap]
  refine forall₂_congr fun op _ => ?_
  rw [UpdateOperation.fieldUpdates, List.forall_mem_map, OrderedMap.keys]
  cases op.fields.entries with
  | nil => simp
  | cons e es => exact ⟨fun h _ => h e List.mem_cons_self, fun h _ _ => h (List.cons_ne_nil _ _)⟩

/-! ## The object of an update -/

/-- The entry carries out the change: it has the placeholder of a value that is set, and the marker
for a field that is removed. -/
inductive Puts : FieldUpdate → String × Json → Prop
  | set (path : String) (p : Param) : Puts ⟨.set, path, some p⟩ (path, .str p.placeholder)
  | unset (path : String) : Puts ⟨.unset, path, none⟩ (path, .str removal)

/-- The value that the change sets. -/
def setParam? (u : FieldUpdate) : Option Param := if u.operator = .set then u.value else none

theorem puts_assignmentEntry {u : FieldUpdate} (hvalued : u.Valued) {a : String × Assignment}
    (h : Makes (u.operator, u.path, u.value) a) :
    Puts u (assignmentEntry a) ∧ a.2.value? = setParam? u := by
  obtain ⟨operator, path, value⟩ := u
  obtain ⟨path', a⟩ := a
  obtain ⟨rfl, ha⟩ := h
  cases operator with
  | unset =>
    cases ha
    obtain rfl : value = none := by simpa [FieldUpdate.Valued] using hvalued
    exact ⟨.unset path', rfl⟩
  | set =>
    obtain ⟨p, rfl⟩ := Option.isSome_iff_exists.mp hvalued
    cases ha
    exact ⟨.set path' p, rfl⟩
  | _ => cases ha

/-- Assignments in the order of the changes carry these out one by one. -/
theorem puts_of_makes {us : List FieldUpdate} {list : List (String × Assignment)}
    (hvalued : ∀ u ∈ us, u.Valued)
    (h : List.Forall₂ (fun u a => Makes (u.operator, u.path, u.value) a) us list) :
    List.Forall₂ Puts us (list.map assignmentEntry) ∧
      (list.flatMap fun a => a.2.value?.toList) = us.filterMap setParam? := by
  rw [List.filterMap_eq_flatMap_toList]
  induction h with
  | nil => exact ⟨.nil, rfl⟩
  | cons ha _ ih =>
    obtain ⟨hu, hus⟩ := List.forall_mem_cons.mp hvalued
    obtain ⟨hput, hvalue⟩ := puts_assignmentEntry hu ha
    obtain ⟨hputs, hvalues⟩ := ih hus
    exact ⟨.cons hput hputs, by rw [List.flatMap_cons, List.flatMap_cons, hvalues, hvalue]⟩

section Queries

variable {q : Query}

theorem succeeds_renderData_iff (hq : q.Built) : (renderData q.updates).Succeeds ↔
    (∀ op ∈ q.updates, op.fields.keys ≠ [] → op.operator = .set ∨ op.operator = .unset) ∧
      DistinctPaths q.fieldUpdates := by
  have hdata : (renderData q.updates).Succeeds ↔
      ∃ list, assignments [] (changes q.updates) = .ok list := by
    simp only [Render.Succeeds, renderData_gives]
    constructor
    · rintro ⟨_, _, list, hlist, -, -⟩
      exact ⟨list, hlist⟩
    · rintro ⟨list, hlist⟩
      exact ⟨_, _, list, hlist, rfl, rfl⟩
  have hpaths : (changes q.updates).map (fun c => c.2.1) = q.fieldUpdates.map FieldUpdate.path := by
    rw [changes_eq, List.map_map]
    rfl
  have hwritten : (([] : List (String × Assignment)).map Prod.fst).Nodup := List.nodup_nil
  rw [hdata, assignments_isOk_iff hwritten, List.map_nil, List.nil_append, hpaths, changes_eq,
    List.forall_mem_map, ← forall_fieldUpdates_iff (P := fun o => o = .set ∨ o = .unset)]
  exact and_congr_left fun _ => forall₂_congr fun u hu => assignment_isOk_iff (hq.valued u hu)

/-- The object has the changes of the query one by one, and binds the values that they set. -/
theorem renderData_exact (hq : q.Built) {v : Json} {ps : List Param}
    (h : (renderData q.updates).Gives v ps) :
    (∃ es, v = .obj es ∧ List.Forall₂ Puts q.fieldUpdates es) ∧
      ps = q.fieldUpdates.filterMap setParam? := by
  obtain ⟨list, hlist, rfl, rfl⟩ := renderData_gives.mp h
  have hmake := assignments_make hlist
  rw [changes_eq, List.forall₂_map_left_iff] at hmake
  obtain ⟨hputs, hparams⟩ := puts_of_makes hq.valued hmake
  exact ⟨⟨_, rfl, hputs⟩, hparams⟩

/-- Below its header, an update has the clauses of its filter and the object of its changes. -/
theorem renderParts_update (hop : q.operation = .update) :
    renderParts q = (do
      let conditions ← whereEntries q
      let data ← renderData q.updates
      pure (conditions ++ [("data", data)])) := by
  rw [renderParts, hop]

theorem succeeds_whereEntries (hfilter : ∀ f, q.filter = some f → ∃ cs, clauses f = .ok cs) :
    (whereEntries q).Succeeds := by
  rw [whereEntries, bind_pure_comp, Render.succeeds_map, Render.succeeds_optional]
  intro f hf
  obtain ⟨cs, hcs⟩ := hfilter f hf
  exact ⟨_, _, renderWhere_gives.mpr ⟨cs, hcs, rfl, rfl⟩⟩

/-- An update that a chain builds, with a filter that has clauses or none, is rendered exactly if
all operations that have fields set or remove them and no path is changed twice, not even in two
collections. The object below `data` then has one entry for each change, in order, and the update
binds the values that it sets, after the parameters of the filter. -/
theorem update_exact {target : Collection} {calls : List Call}
    (hbuild : ((Builder.start .update target).run calls).build = .ok q)
    (hfilter : ∀ f, q.filter = some f → ∃ cs, clauses f = .ok cs) :
    ((∃ r, q.render .firestore = .ok r) ↔
      (∀ op ∈ q.updates, op.fields.keys ≠ [] → op.operator = .set ∨ op.operator = .unset) ∧
        DistinctPaths q.fieldUpdates) ∧
    ∀ r, q.render .firestore = .ok r →
      (∃ es, get? "data" r.entries = some (.obj es) ∧ List.Forall₂ Puts q.fieldUpdates es) ∧
      r.params = q.filterParams ++ q.fieldUpdates.filterMap setParam? := by
  have hq := built_of_build hbuild
  obtain ⟨hcalls, hvalid⟩ := Builder.run_of_build hbuild
  have hop : q.operation = .update := (foldlM_run_fixed hcalls).1
  constructor
  · have hparts : (Dialect.firestore.renderParts q).Succeeds ↔ (renderData q.updates).Succeeds := by
      show (renderParts q).Succeeds ↔ _
      rw [renderParts_update hop]
      exact (succeeds_whereEntries hfilter).bind_iff fun _ =>
        Render.succeeds_bind_of_forall fun _ => Render.succeeds_pure _
    rw [Query.render_isOk_iff, hparts, succeeds_renderData_iff hq, hop]
    exact ⟨fun h => h.2.2, fun h => ⟨hvalid, rfl, h⟩⟩
  · intro r hr
    obtain ⟨parts, hgives, hentries⟩ := Query.parts_of_render hr
    have hgives : (renderParts q).Gives parts r.params := hgives
    rw [renderParts_update hop] at hgives
    obtain ⟨conditions, data, qs, rs, hwhere, hdata, rfl, hparams⟩ := Render.gives_two.mp hgives
    obtain ⟨⟨es, rfl, hputs⟩, rfl⟩ := renderData_exact hq hdata
    rw [params_of_whereEntries hwhere] at hparams
    obtain ⟨list, -, rfl⟩ := whereEntries_gives.mp hwhere
    refine ⟨⟨es, ?_, hputs⟩, hparams⟩
    rw [hentries]
    simp [Dialect.header]

theorem update_exact_renamedMinors :
    ∃ q r es, ((Builder.start .update Users.collection).run renamedMinors).build = .ok q ∧
      (∀ f, q.filter = some f → ∃ cs, clauses f = .ok cs) ∧ q.render .firestore = .ok r ∧
      get? "data" r.entries = some (.obj es) ∧ List.Forall₂ Puts q.fieldUpdates es ∧
      r.params = [Users.least, Users.greatest, Users.label] := by
  obtain ⟨q, hq⟩ : ∃ q,
      ((Builder.start .update Users.collection).run renamedMinors).build = .ok q := ⟨_, rfl⟩
  obtain ⟨hfilter, hoperators, hpaths, hparams⟩ :
      (∀ f, q.filter = some f → ∃ cs, clauses f = .ok cs) ∧
      (∀ op ∈ q.updates, op.fields.keys ≠ [] → op.operator = .set ∨ op.operator = .unset) ∧
      DistinctPaths q.fieldUpdates ∧
      q.filterParams ++ q.fieldUpdates.filterMap setParam? =
        [Users.least, Users.greatest, Users.label] := by
    cases hq
    refine ⟨fun f hf => ?_, by decide, by decide, rfl⟩
    cases hf
    exact ⟨_, rfl⟩
  obtain ⟨hiff, hexact⟩ := update_exact hq hfilter
  obtain ⟨r, hr⟩ := hiff.mpr ⟨hoperators, hpaths⟩
  obtain ⟨⟨es, hdata, hputs⟩, hbound⟩ := hexact r hr
  exact ⟨q, r, es, hq, hfilter, hr, hdata, hputs, hbound.trans hparams⟩

end Queries

end DocumentQuery.Firestore

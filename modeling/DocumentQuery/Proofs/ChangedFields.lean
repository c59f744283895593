import DocumentQuery.Proofs.BoundParameters
import DocumentQuery.Proofs.Dynamo.Updates
import DocumentQuery.Proofs.MergedUpdates
/-!
# The fields that a chain changes

A call that changes fields has the operation for its operator made first, and names
its fields to it then. A removal may name no field at all, and leaves an operation
without fields behind. So a query whose operations change nothing passes
validation, which only asks for an operation to be there.

Results:
* `mem_operators_iff`, `mem_keys_iff`: the operations of a built query have the
  operators of its calls, and change the fields that the calls name.
* `exists_fields_iff`, `forall_fields_iff`: when some operation of a built query, and
  when every one, has fields.
* `update_changes_iff`: when a built update changes something, and what this means
  for what is rendered from it.
* `empty_unset_builds`: an update that changes nothing.
-/
namespace DocumentQuery

open Entries (get?)

/-! ## Built updates -/

section Built

variable {start : Start} {target : Collection} {calls : List Call} {q : Query}

/-- The operations of a built query have the operators of its calls. -/
theorem mem_operators_iff (hbuild : ((Builder.start start target).run calls).build = .ok q)
    {operator : UpdateOperator} : operator ∈ q.updates.map UpdateOperation.operator ↔
      ∃ c ∈ calls, c.operator? = some operator := by
  obtain ⟨hcalls, -⟩ := Builder.run_of_build hbuild
  rw [operators_of_calls hcalls, List.mem_eraseDups, List.mem_filterMap]

/-- An operation of a built query changes the fields that calls name to its operator. -/
theorem mem_keys_iff (hbuild : ((Builder.start start target).run calls).build = .ok q)
    {op : UpdateOperation} (hop : op ∈ q.updates) {field : Field} :
    field ∈ op.fields.keys ↔ ∃ c ∈ calls, c.Names op.operator field := by
  obtain ⟨hcalls, -⟩ := Builder.run_of_build hbuild
  exact mem_keys_of_calls hcalls hop

theorem ne_nil_iff_exists_mem {α : Type} {l : List α} : l ≠ [] ↔ ∃ a, a ∈ l := by
  rw [ne_eq, List.eq_nil_iff_forall_not_mem, not_forall_not]

/-- An operation of a built query has fields exactly if a call names some to its operator. -/
theorem keys_ne_nil_iff (hbuild : ((Builder.start start target).run calls).build = .ok q)
    {op : UpdateOperation} (hop : op ∈ q.updates) :
    op.fields.keys ≠ [] ↔ ∃ c ∈ calls, c.operator? = some op.operator ∧ c.changed ≠ [] := by
  rw [ne_nil_iff_exists_mem]
  simp only [mem_keys_iff hbuild hop]
  constructor
  · rintro ⟨field, c, hc, hoperator, hfield⟩
    exact ⟨c, hc, hoperator, List.ne_nil_of_mem hfield⟩
  · rintro ⟨c, hc, hoperator, hne⟩
    obtain ⟨field, hfield⟩ := ne_nil_iff_exists_mem.mp hne
    exact ⟨field, c, hc, hoperator, hfield⟩

/-- Some operation of a built query has fields exactly if some call names fields. -/
theorem exists_fields_iff (hbuild : ((Builder.start start target).run calls).build = .ok q) :
    (∃ op ∈ q.updates, op.fields.keys ≠ []) ↔ ∃ c ∈ calls, c.changed ≠ [] := by
  constructor
  · rintro ⟨op, hop, hne⟩
    obtain ⟨c, hc, -, hchanged⟩ := (keys_ne_nil_iff hbuild hop).mp hne
    exact ⟨c, hc, hchanged⟩
  · rintro ⟨c, hc, hchanged⟩
    obtain ⟨operator, hoperator⟩ : ∃ operator, c.operator? = some operator := by
      cases c <;> simp_all [Call.changed, Call.operator?]
    have hmem := (mem_operators_iff hbuild).mpr ⟨c, hc, hoperator⟩
    obtain ⟨op, hop, rfl⟩ := List.mem_map.mp hmem
    exact ⟨op, hop, (keys_ne_nil_iff hbuild hop).mpr ⟨c, hc, hoperator, hchanged⟩⟩

/-- All operations of a built query have fields exactly if some call names fields to be removed,
provided that there is a call to remove fields. -/
theorem forall_fields_iff (hbuild : ((Builder.start start target).run calls).build = .ok q) :
    (∀ op ∈ q.updates, op.fields.keys ≠ []) ↔
      ((∃ fields, Call.unset fields ∈ calls) →
        ∃ fields, fields ≠ [] ∧ Call.unset fields ∈ calls) := by
  constructor
  · rintro hall ⟨fields, hunset⟩
    have hmem := (mem_operators_iff hbuild).mpr ⟨_, hunset, rfl⟩
    obtain ⟨op, hop, hoperator⟩ := List.mem_map.mp hmem
    obtain ⟨c, hc, hcall, hchanged⟩ := (keys_ne_nil_iff hbuild hop).mp (hall op hop)
    rw [hoperator] at hcall
    cases c with
    | unset fields => exact ⟨fields, hchanged, hc⟩
    | change c field value => cases c <;> cases hcall
    | _ => cases hcall
  · intro hunset op hop
    obtain ⟨c, hc, hcall⟩ := (mem_operators_iff hbuild).mp (List.mem_map.mpr ⟨op, hop, rfl⟩)
    rw [keys_ne_nil_iff hbuild hop]
    cases c with
    | unset fields =>
      obtain ⟨fields, hne, hfields⟩ := hunset ⟨_, hc⟩
      exact ⟨_, hfields, hcall, hne⟩
    | change c field value => exact ⟨_, hc, hcall, List.cons_ne_nil field []⟩
    | _ => cases hcall

theorem fieldUpdates_ne_nil_iff :
    q.fieldUpdates ≠ [] ↔ ∃ op ∈ q.updates, op.fields.keys ≠ [] := by
  simp [Query.fieldUpdates, UpdateOperation.fieldUpdates, OrderedMap.keys]

/-- Below the operators of a mongo update stand objects, one for each operation. -/
theorem forall_updateEntry_iff :
    (∀ e ∈ q.updates.map Mongo.updateEntry, ∃ fields, e.2 = .obj fields ∧ fields ≠ []) ↔
      ∀ op ∈ q.updates, op.fields.keys ≠ [] := by
  rw [List.forall_mem_map]
  refine forall₂_congr fun op _ => ?_
  simp [Mongo.updateEntry, Json.ofEntries, OrderedMap.keys, Entries.ofPairs_eq_nil_iff]

/-- A built update changes a field exactly if some call names one. Where dynamo renders it, its
expression is empty otherwise, and read as an update it has no clause. Where mongo renders it, all
its operators have fields unless the calls to remove fields name none. -/
theorem update_changes_iff (hstart : start.operation.isUpdate = true)
    (hbuild : ((Builder.start start target).run calls).build = .ok q) :
    ((∃ op ∈ q.updates, op.fields.keys ≠ []) ↔ ∃ c ∈ calls, c.changed ≠ []) ∧
    (∀ r, q.render .dynamo = .ok r → ∃ text us,
      get? "UpdateExpression" r.entries = some (.str text) ∧
      Dynamo.readUpdates r.entries = some us ∧
      (text ≠ "" ↔ ∃ c ∈ calls, c.changed ≠ []) ∧ (us ≠ [] ↔ ∃ c ∈ calls, c.changed ≠ [])) ∧
    (∀ r, q.render .mongo = .ok r → ∃ es, get? "update" r.entries = some (.obj es) ∧
      ((∀ e ∈ es, ∃ fields, e.2 = .obj fields ∧ fields ≠ []) ↔
        ((∃ fields, Call.unset fields ∈ calls) →
          ∃ fields, fields ≠ [] ∧ Call.unset fields ∈ calls))) := by
  have hq := built_of_build hbuild
  obtain ⟨hcalls, -⟩ := Builder.run_of_build hbuild
  have hop : q.operation.isUpdate = true := by
    rw [(foldlM_run_fixed hcalls).1]
    exact hstart
  refine ⟨exists_fields_iff hbuild, fun r hr => ?_, fun r hr => ?_⟩
  · obtain ⟨parts, hparts, hentries⟩ := Query.parts_of_render hr
    have hgives := Dynamo.renderUpdate_of_parts hop hparts
    obtain ⟨us, hread, hperm⟩ := Dynamo.readUpdates_parts hq hgives
    have hfields : q.fieldUpdates ≠ [] ↔ ∃ c ∈ calls, c.changed ≠ [] :=
      fieldUpdates_ne_nil_iff.trans (exists_fields_iff hbuild)
    rw [hentries]
    refine ⟨_, us, Dynamo.get?_updateExpression hgives, hread, ?_, ?_⟩
    · rw [← hfields, ne_eq, Dynamo.updateExpression_eq_empty_iff hq hgives]
    · rw [← hfields, ne_eq, ← List.length_eq_zero_iff, hperm.length_eq, List.length_eq_zero_iff]
  · obtain ⟨parts, hparts, hentries⟩ := Query.parts_of_render hr
    have hget := Mongo.get?_update_of_parts hq hop hparts
    refine ⟨q.updates.map Mongo.updateEntry, ?_, ?_⟩
    · simpa [hentries, Dialect.header] using hget
    · rw [forall_updateEntry_iff, forall_fields_iff hbuild]

end Built

theorem update_changes_iff_renamedMinors :
    ∃ q r r' text es, Start.update.operation.isUpdate = true ∧
      ((Builder.start .update Users.collection).run renamedMinors).build = .ok q ∧
      q.render .dynamo = .ok r ∧ q.render .mongo = .ok r' ∧
      get? "UpdateExpression" r.entries = some (.str text) ∧ text ≠ "" ∧
      get? "update" r'.entries = some (.obj es) ∧
      ∀ e ∈ es, ∃ fields, e.2 = .obj fields ∧ fields ≠ [] := by
  obtain ⟨q, hq⟩ : ∃ q,
      ((Builder.start .update Users.collection).run renamedMinors).build = .ok q := ⟨_, rfl⟩
  obtain ⟨⟨r, hr⟩, r', hr'⟩ : (∃ r, q.render .dynamo = .ok r) ∧ ∃ r', q.render .mongo = .ok r' := by
    cases hq
    exact ⟨⟨_, rfl⟩, _, rfl⟩
  obtain ⟨-, hdynamo, hmongo⟩ := update_changes_iff rfl hq
  obtain ⟨text, us, htext, -, hne, -⟩ := hdynamo r hr
  obtain ⟨es, hes, hall⟩ := hmongo r' hr'
  refine ⟨q, r, r', text, es, rfl, hq, hr, hr', htext, hne.mpr ?_, hes, hall.mpr fun _ => ?_⟩
  · exact ⟨.change .set Users.name Users.label, by simp [renamedMinors], List.cons_ne_nil _ _⟩
  · exact ⟨[Users.email], List.cons_ne_nil _ _, by simp [renamedMinors]⟩

/-- A removal of no fields is built as an update, and the update changes nothing. -/
theorem empty_unset_builds :
    ∃ q r r', ((Builder.start .update Users.collection).run [.unset []]).build = .ok q ∧
      (∀ op ∈ q.updates, op.fields.keys = []) ∧
      q.render .dynamo = .ok r ∧ get? "UpdateExpression" r.entries = some (.str "") ∧
      q.render .mongo = .ok r' ∧
      get? "update" r'.entries = some (.obj [("$unset", .obj [])]) :=
  ⟨_, _, _, rfl, by decide, rfl, rfl, rfl, rfl⟩

end DocumentQuery

import DocumentQuery.Proofs.Chain
import DocumentQuery.Proofs.Mongo.EmptyArrays
import DocumentQuery.Proofs.Mongo.StagePlaces
import DocumentQuery.Proofs.Writing
/-!
# The key and the outputs of a group

The body of a group is one object: the key of the group comes first, and each output is
written at its name. Names are identifiers, and the name of the key is one too. An output of
that name takes the place of the key.

Results:
* `get?_output`, `get?_key_iff`: each output stands at its name, and the key at its own
  exactly if no output has the name of the key.
* `group_key_kept_iff`: the same of every group in a rendered aggregation.
* `output_replaces_key`: an output in place of the key.
-/
namespace DocumentQuery

open Entries (keys get?)

namespace Mongo

/-! ## Outputs -/

section Outputs

variable {accumulators : Named Accumulator} {outputs : Entries} {key v : Json} {qs rs : List Param}

theorem get?_body (name : String) :
    get? name (Entries.ofPairs ((groupKey, key) :: outputs)) =
      (outputs.reverse.lookup name).or (get? name [(groupKey, key)]) := by
  rw [Entries.get?_ofPairs, List.reverse_cons, Entries.get?_append, Entries.get?_eq_lookup]

theorem keys_outputs (h : (renderAccumulators accumulators).Gives outputs rs) :
    keys outputs = accumulators.keys := by
  rw [Writes.keys_of_entriesBy h, List.map_id']

/-- Every output stands at its name. -/
theorem get?_output (key : Json) (h : (renderAccumulators accumulators).Gives outputs rs)
    {e : String × Accumulator} (he : e ∈ accumulators.entries) :
    ∃ v qs, (renderAccumulator e.2).Gives v qs ∧
      get? e.1 (Entries.ofPairs ((groupKey, key) :: outputs)) = some v := by
  have hlookup : accumulators.entries.reverse.lookup e.1 = some e.2 := by
    rw [lookup_reverse_of_nodup accumulators.nodup_keys]
    exact lookup_eq_some_of_mem accumulators.nodup_keys he
  have houtputs := List.rel_reverse (Render.forall₂_of_entriesBy h)
  obtain ⟨v, hv, qs, hqs⟩ := exists_lookup_of_forall₂
    (R := fun a v => ∃ qs, (renderAccumulator a).Gives v qs) houtputs hlookup
  exact ⟨v, qs, hqs, by rw [get?_body, hv, Option.some_or]⟩

/-- No output is written like a key: an operator has its arguments in an array, and an
accumulator has one argument. -/
theorem accumulator_ne_key {a : Accumulator} (ha : (renderAccumulator a).Gives v rs)
    {id : Option Expression} {o : Option Json}
    (hkey : (Render.optional renderExpression id).Gives o qs) : v ≠ Json.ofOption o := by
  obtain ⟨input, hinput, rfl⟩ := renderAccumulator_gives.mp ha
  have hargument : ∀ vs, input.getD (.obj []) ≠ .arr vs := by
    intro vs
    rcases Render.gives_optional.mp hinput with ⟨-, rfl, -⟩ | ⟨e, w, -, rfl, hw⟩
    · simp
    · exact renderExpression_ne_arr hw vs
  rcases Render.gives_optional.mp hkey with ⟨-, rfl, -⟩ | ⟨e, w, -, rfl, hw⟩
  · simp [Json.ofOption, Json.single]
  cases e with
  | field field =>
    obtain ⟨rfl, -⟩ := Render.gives_pure.mp hw
    simp [Json.ofOption, Json.single, pathReference]
  | literal value =>
    obtain ⟨rfl, -⟩ := Render.gives_placeholder.mp hw
    simp [Json.ofOption, Json.single]
  | operator operator args =>
    obtain ⟨-, vs, -, rfl⟩ := renderOperator_gives.mp hw
    simp [Json.ofOption, Json.single, hargument vs]
  | conditional condition consequence alternative =>
    obtain ⟨_, _, _, _, _, _, -, -, -, rfl, -⟩ := renderConditional_gives.mp hw
    have htoken : a.operator.token ≠ "$cond" := by cases a.operator <;> decide
    simp [Json.ofOption, Json.single, htoken]

/-- The key stands at its name unless an output takes its place. -/
theorem get?_key_iff {id : Option Expression} {o : Option Json}
    (hkey : (Render.optional renderExpression id).Gives o qs)
    (h : (renderAccumulators accumulators).Gives outputs rs) :
    get? groupKey (Entries.ofPairs ((groupKey, Json.ofOption o) :: outputs)) =
      some (Json.ofOption o) ↔ groupKey ∉ accumulators.keys := by
  constructor
  · intro hget hmem
    obtain ⟨e, he, hname⟩ := List.mem_map.mp hmem
    obtain ⟨v, qs, hv, hgetOutput⟩ := get?_output (Json.ofOption o) h he
    rw [hname, hget, Option.some.injEq] at hgetOutput
    exact accumulator_ne_key hv hkey hgetOutput.symm
  · intro hnot
    have hnone : outputs.reverse.lookup groupKey = none := by
      rw [lookup_eq_none_iff_not_mem, List.map_reverse, List.mem_reverse]
      rw [← keys_outputs h] at hnot
      exact hnot
    rw [get?_body, hnone]
    simp

/-- The key and the outputs have an entry each unless an output takes the place of the key. -/
theorem keys_body_iff (h : (renderAccumulators accumulators).Gives outputs rs) :
    keys (Entries.ofPairs ((groupKey, key) :: outputs)) = groupKey :: accumulators.keys ↔
      groupKey ∉ accumulators.keys := by
  have hkeys : keys ((groupKey, key) :: outputs) = groupKey :: accumulators.keys :=
    congrArg (groupKey :: ·) (keys_outputs h)
  constructor
  · intro heq
    have hnodup : (groupKey :: accumulators.keys).Nodup := by
      rw [← heq, Entries.keys_ofPairs]
      exact nodup_eraseDups _
    exact (List.nodup_cons.mp hnodup).1
  · intro hnot
    rw [Entries.ofPairs_eq_of_nodup, hkeys]
    rw [hkeys]
    exact List.nodup_cons.mpr ⟨hnot, accumulators.nodup_keys⟩

end Outputs

end Mongo

/-! ## Groups of aggregations -/

open Mongo (renderExpression renderAccumulator)

/-- In a rendered aggregation, the object of every group, wherever the group stands, has each
output at its name. It has the key of the group as well, with an entry for the key and for each
output, exactly if no output is named `_id`. -/
theorem group_key_kept_iff {target : Collection} {calls : List Call} {q : Query}
    (hbuild : ((Builder.start .aggregate target).run calls).build = .ok q) {r : Rendered}
    (hr : q.render .mongo = .ok r) {i : Nat} {place : List (Inner × Nat)} {id : Option Expression}
    {accumulators : Named Accumulator}
    (hplace : q.stageAt? i place = some (.group id accumulators)) :
    ∃ body key ps, r.objectAt? i place = some (.obj [("$group", .obj body)]) ∧
      (Render.optional renderExpression id).Gives key ps ∧
      (∀ e ∈ accumulators.entries, ∃ v qs, (renderAccumulator e.2).Gives v qs ∧
        get? e.1 body = some v) ∧
      (get? "_id" body = some (Json.ofOption key) ↔ "_id" ∉ accumulators.keys) ∧
      (keys body = "_id" :: accumulators.keys ↔ "_id" ∉ accumulators.keys) := by
  obtain ⟨hcalls, -⟩ := Builder.run_of_build hbuild
  have hop : q.operation = .aggregate := (foldlM_run_fixed hcalls).1
  obtain ⟨v, ps, hv, hobject⟩ := Query.objectAt?_of_render hop hr hplace
  obtain ⟨body, hbody, rfl⟩ := Mongo.renderStage_gives.mp hv
  obtain ⟨key, outputs, qs, rs, hkey, houtputs, rfl, -⟩ := Mongo.renderGroupStage_gives.mp hbody
  exact ⟨_, key, qs, hobject, hkey, fun e he => Mongo.get?_output _ houtputs he,
    Mongo.get?_key_iff hkey houtputs, Mongo.keys_body_iff houtputs⟩

/-- The points of all users by their status, as one of the facets of the aggregation. -/
def statusFacet : List Call :=
  [.stage (.ofFacets [("byStatus", [.group (some (.field Users.status))
    (.ofList [("total", ⟨.sum, some (.field Users.points)⟩)])])])]

theorem group_key_kept_iff_statusFacet :
    ∃ q r body, ((Builder.start .aggregate Users.collection).run statusFacet).build = .ok q ∧
      q.render .mongo = .ok r ∧
      r.objectAt? 0 [(.facet "byStatus", 0)] = some (.obj [("$group", .obj body)]) ∧
      get? "_id" body = some (.str "$status") ∧ keys body = ["_id", "total"] := by
  obtain ⟨q, hbuild⟩ : ∃ q,
      ((Builder.start .aggregate Users.collection).run statusFacet).build = .ok q := ⟨_, rfl⟩
  obtain ⟨r, hr, hplace⟩ : ∃ r, q.render .mongo = .ok r ∧
      q.stageAt? 0 [(.facet "byStatus", 0)] = some (.group (some (.field Users.status))
        (.ofList [("total", ⟨.sum, some (.field Users.points)⟩)])) := by
    cases hbuild
    exact ⟨_, rfl, rfl⟩
  obtain ⟨body, key, ps, hobject, hkey, -, hget, hkeys⟩ := group_key_kept_iff hbuild hr hplace
  have hstatus : key = some (.str "$status") :=
    (Render.Gives.unique hkey (rfl : Render.Gives _ _ [])).1
  refine ⟨q, r, body, hbuild, hr, hobject, ?_, hkeys.mpr (by decide)⟩
  rw [hget.mpr (by decide), hstatus]
  rfl

/-- The output named `_id` takes the place of the key, and the group has no key. -/
theorem output_replaces_key :
    ∃ q r, ((Builder.start .aggregate Users.collection).run [.group (some (.field Users.status))
        [("_id", ⟨.sum, some (.field Users.points)⟩)]]).build = .ok q ∧
      q.render .mongo = .ok r ∧
      r.objectAt? 0 [] =
        some (.obj [("$group", .obj [("_id", .obj [("$sum", .str "$points")])])]) ∧
      (renderExpression (.field Users.status)).Gives (.str "$status") [] :=
  ⟨_, _, rfl, rfl, rfl, rfl⟩

end DocumentQuery

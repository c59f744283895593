import DocumentQuery.Proofs.BoundParameters
import DocumentQuery.Proofs.Dynamo.Updates
/-!
# One write in all dialects

A document becomes the same object in every dialect. An update takes four forms, and
some of its operations are known to some dialects only; but read back, each form
that is rendered at all says the changes that the query asks for.

Main definitions:
* `Dialect.documentKey`: where the document of an insertion stands.
* `Dialect.readUpdates`: the changes that a rendered update says.

Results:
* `render_insert`: every dialect renders an insertion, to the same document.
* `readUpdates_of_render`: a rendered update says the changes of the query.
* `same_write`: both, for what a chain of calls builds.
-/
namespace DocumentQuery

open Entries (get?)

/-! ## Insertions -/

/-- The key of the document of an insertion. -/
def Dialect.documentKey : Dialect → String
  | .mongo => "document"
  | .dynamo => "Item"
  | .firestore => "data"
  | .couch => "doc"

/-- A document without repeated paths is the object of its entries. -/
theorem Document.Tidy.ofEntries {d : Document} (h : d.Tidy) :
    Json.ofEntries d.entries = .obj d.entries := by
  have hkeys : (Entries.keys d.entries).Nodup := by
    unfold Document.Tidy at h
    rw [OrderedMap.keys, List.map_map] at h
    rwa [Entries.keys, Document.entries, List.map_map]
  rw [Json.ofEntries, Entries.ofPairs_eq_of_nodup hkeys]

variable {q : Query}

/-- The parts of an insertion are its document, and what says that it is an insertion. -/
theorem renderParts_insert (hop : q.operation = .insert) (dialect : Dialect) :
    ∃ f : Option Json → Entries,
      dialect.renderParts q =
        (do let v ← Render.optional Render.document q.documents.head?; pure (f v)) ∧
      ∀ v, get? dialect.documentKey (dialect.header q ++ f (some v)) = some v := by
  cases dialect with
  | mongo =>
    refine ⟨Entries.optional "document", by rw [Dialect.renderParts, Mongo.renderParts, hop], ?_⟩
    simp [Dialect.header, Dialect.documentKey]
  | dynamo =>
    refine ⟨Entries.optional "Item", by rw [Dialect.renderParts, Dynamo.renderParts, hop], ?_⟩
    simp [Dialect.header, Dialect.documentKey]
  | firestore =>
    refine ⟨Entries.optional "data", by rw [Dialect.renderParts, Firestore.renderParts, hop], ?_⟩
    simp [Dialect.header, Dialect.documentKey]
  | couch =>
    refine ⟨fun v => ("operation", .str "insert") :: Entries.optional "doc" v,
      by rw [Dialect.renderParts, Couch.renderParts, hop], ?_⟩
    simp [Dialect.header, Dialect.documentKey]

/-- Every dialect renders an insertion, to the same document with the same parameters. -/
theorem render_insert {d : Document} (hop : q.operation = .insert) (hdocs : q.documents = [d])
    (hvalid : q.validate = .ok ()) (dialect : Dialect) :
    ∃ r, q.render dialect = .ok r ∧ r.params = d.params ∧
      get? dialect.documentKey r.entries = some (.ofEntries d.entries) := by
  obtain ⟨f, hparts, hget⟩ := renderParts_insert hop dialect
  have hdocument : (Render.optional Render.document q.documents.head?).Gives
      (some (.ofEntries d.entries)) d.params := by
    rw [hdocs, List.head?_cons, Render.gives_optional_some]
    exact ⟨_, rfl, Render.document_gives.mpr ⟨rfl, rfl⟩⟩
  refine ⟨⟨.obj (dialect.header q ++ f (some (.ofEntries d.entries))), d.params⟩, ?_, rfl, hget _⟩
  refine Query.render_eq_ok_iff.mpr ⟨hvalid, ?_, _, ?_, rfl⟩
  · rw [hop]
    cases dialect <;> rfl
  · refine Dialect.renderEntries_gives.mpr ⟨_, ?_, rfl⟩
    rw [hparts, bind_pure_comp, Render.gives_map]
    exact ⟨_, hdocument, rfl⟩

/-! ## Updates -/

/-- The changes that a rendered update says. -/
def Dialect.readUpdates : Dialect → Entries → Option (List FieldUpdate)
  | .mongo, es => (get? "update" es).bind Mongo.readUpdates
  | .dynamo, es => Dynamo.readUpdates es
  | .firestore, es => (get? "data" es).bind Firestore.readUpdates
  | .couch, es => (get? "updates" es).bind Couch.readUpdates

/-- Only dynamo changes the order, since it collects assignments before removals. -/
theorem readUpdates_of_render (hq : q.Built) (hop : q.operation.isUpdate = true)
    (hpaths : DistinctPaths q.fieldUpdates) {dialect : Dialect} {r : Rendered}
    (h : q.render dialect = .ok r) :
    ∃ us, dialect.readUpdates r.entries = some us ∧ us.Perm q.fieldUpdates := by
  obtain ⟨parts, hparts, hentries⟩ := Query.parts_of_render h
  rw [hentries]
  have hcases : q.operation = .update ∨ q.operation = .updateMany := by
    cases hq : q.operation <;> simp_all [Operation.isUpdate]
  cases dialect with
  | mongo =>
    have hget := Mongo.get?_update_of_parts hq hop hparts
    refine ⟨q.fieldUpdates, ?_, .refl _⟩
    simpa [Dialect.readUpdates, Dialect.header, hget] using Mongo.readUpdates_updates hpaths
  | dynamo =>
    exact Dynamo.readUpdates_parts hq (Dynamo.renderUpdate_of_parts hop hparts)
  | firestore =>
    have hgives : (Firestore.renderParts q).Gives parts r.params := hparts
    rw [Firestore.renderParts] at hgives
    rcases hcases with hcase | hcase
    · rw [hcase] at hgives
      obtain ⟨conditions, data, qs, rs, hconditions, hdata, rfl, -⟩ := Render.gives_two.mp hgives
      obtain ⟨list, -, rfl⟩ := Firestore.whereEntries_gives.mp hconditions
      refine ⟨q.fieldUpdates, ?_, .refl _⟩
      simpa [Dialect.readUpdates, Dialect.header] using Firestore.readUpdates_data hq hdata
    · rw [hcase] at hgives
      exact (Render.gives_unsupported.mp hgives).elim
  | couch =>
    have hgives : (Couch.renderParts q).Gives parts r.params := hparts
    rw [Couch.renderParts] at hgives
    rcases hcases with hcase | hcase
    · rw [hcase] at hgives
      obtain ⟨selector, updates, qs, rs, -, hupdates, rfl, -⟩ := Render.gives_two.mp hgives
      refine ⟨q.fieldUpdates, ?_, .refl _⟩
      simpa [Dialect.readUpdates, Dialect.header] using
        Couch.readUpdates_updates hq hpaths hupdates
    · rw [hcase] at hgives
      exact (Render.gives_unsupported.mp hgives).elim

/-! ## Built queries -/

/-- What a chain of calls builds is one write in all dialects. An insertion of a document without
repeated paths is rendered by every dialect, to the same object with the same parameters. An update
without repeated paths, where it is rendered, says the changes of the query and each once. -/
theorem same_write {start : Start} {target : Collection} {calls : List Call}
    (hbuild : ((Builder.start start target).run calls).build = .ok q) :
    (q.operation = .insert → ∃ d, q.documents = [d] ∧ (d.Tidy → ∀ dialect, ∃ r,
      q.render dialect = .ok r ∧ get? dialect.documentKey r.entries = some (.obj d.entries) ∧
        r.params = d.params)) ∧
    (q.operation.isUpdate = true → DistinctPaths q.fieldUpdates → ∀ dialect r,
      q.render dialect = .ok r → ∃ us, dialect.readUpdates r.entries = some us ∧
        us.Perm q.fieldUpdates ∧ us.Nodup) := by
  have hq := built_of_build hbuild
  obtain ⟨-, hvalid⟩ := Builder.run_of_build hbuild
  refine ⟨fun hop => ?_, fun hop hpaths dialect r hr => ?_⟩
  · have hone : q.documents.length = 1 := by
      have hdemand := Query.validateOperation_of_validate hvalid
      rw [Query.validateOperation, hop] at hdemand
      exact beq_iff_eq.mp (Query.require_eq_ok_iff.mp hdemand)
    obtain ⟨d, hd⟩ := List.length_eq_one_iff.mp hone
    refine ⟨d, hd, fun htidy dialect => ?_⟩
    obtain ⟨r, hr, hparams, hget⟩ := render_insert hop hd hvalid dialect
    rw [htidy.ofEntries] at hget
    exact ⟨r, hr, hget, hparams⟩
  · obtain ⟨us, hread, hperm⟩ := readUpdates_of_render hq hop hpaths hr
    exact ⟨us, hread, hperm, hperm.nodup_iff.mpr (List.Nodup.of_map _ hpaths)⟩

/-- A new user with a name and an address. -/
def namedUser : List Call :=
  [.document (.ofList [(Users.name, Users.label), (Users.email, Users.given)])]

theorem same_write_namedUser_renamedMinors :
    (∃ q d, ((Builder.start .insert Users.collection).run namedUser).build = .ok q ∧
      q.documents = [d] ∧ ∀ dialect, ∃ r, q.render dialect = .ok r ∧
        get? dialect.documentKey r.entries = some (.obj d.entries)) ∧
    ∃ q r us, ((Builder.start .update Users.collection).run renamedMinors).build = .ok q ∧
      q.render .dynamo = .ok r ∧ Dialect.dynamo.readUpdates r.entries = some us ∧
      us.Perm [⟨.set, "name", some Users.label⟩, ⟨.unset, "email", none⟩] := by
  constructor
  · obtain ⟨q, hq⟩ : ∃ q,
        ((Builder.start .insert Users.collection).run namedUser).build = .ok q := ⟨_, rfl⟩
    obtain ⟨hop, htidy⟩ : q.operation = .insert ∧ ∀ d ∈ q.documents, d.Tidy := by
      cases hq
      exact ⟨rfl, by decide +kernel⟩
    obtain ⟨d, hd, hall⟩ := (same_write hq).1 hop
    refine ⟨q, d, hq, hd, fun dialect => ?_⟩
    obtain ⟨r, hr, hget, -⟩ := hall (htidy d (by rw [hd]; exact List.mem_cons_self)) dialect
    exact ⟨r, hr, hget⟩
  · obtain ⟨q, hq⟩ : ∃ q,
        ((Builder.start .update Users.collection).run renamedMinors).build = .ok q := ⟨_, rfl⟩
    obtain ⟨⟨r, hr⟩, hop, hupdates⟩ : (∃ r, q.render .dynamo = .ok r) ∧
        q.operation.isUpdate = true ∧
        q.fieldUpdates = [⟨.set, "name", some Users.label⟩, ⟨.unset, "email", none⟩] := by
      cases hq
      exact ⟨⟨_, rfl⟩, rfl, rfl⟩
    have hpaths : DistinctPaths q.fieldUpdates := by
      rw [hupdates]
      decide
    obtain ⟨us, hread, hperm, -⟩ := (same_write hq).2 hop hpaths .dynamo r hr
    rw [hupdates] at hperm
    exact ⟨q, r, us, hq, hr, hread, hperm⟩

end DocumentQuery

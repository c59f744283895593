import Mathlib.Data.List.Count
import DocumentQuery.Proofs.Couch.Writing
import DocumentQuery.Proofs.Dynamo.Writing
import DocumentQuery.Proofs.Firestore.Writing
import DocumentQuery.Proofs.Mongo.WrittenStages
import DocumentQuery.Proofs.RenderedQuery
/-!
# Strings and placeholders of a rendered query

A built query renders to an object that is written like its parts
(`Query.Built.writes`). This says two things about the object: what its strings
are, and how its placeholders match the parameters to bind.

Results:
* `strings_safe`: every string is a fixed word of the dialect or made of checked
  names.
* `placeholders_bound`: every placeholder stands for a bound parameter, and none
  for the parameter of another. In a tidy query every bound parameter has its
  placeholder.
-/
namespace DocumentQuery

/-! ## The whole object -/

theorem writes_header {whole : Prop} (q : Query) {dialect : Dialect}
    (h : dialect.supportsOperation q.operation = true) :
    Writes dialect whole (.obj (dialect.header q)) [] := by
  have hname : Writes dialect whole (.str q.target.name) [] := .identifier q.target.valid
  cases dialect with
  | mongo =>
    exact .obj_cons (.frame (by decide)) hname
      (.single (.frame (by decide)) (.word (Mongo.token_mem_words q.operation)))
  | firestore =>
    exact .obj_cons (.frame (by decide)) hname
      (.single (.frame (by decide)) (.word (Firestore.token_mem_words h)))
  | dynamo => exact .single (.frame (by decide)) hname
  | couch => exact .single (.frame (by decide)) hname

theorem Query.Built.writes {whole : Prop} {q : Query} (hq : q.Built) (ht : whole → q.Tidy)
    (hd : whole → Stage.DistinctFacetsIn q.pipeline) {dialect : Dialect} {r : Rendered}
    (h : q.render dialect = .ok r) : Writes dialect whole r.body r.params := by
  obtain ⟨-, hsupports, es, hes, hbody⟩ := Query.render_eq_ok_iff.mp h
  obtain ⟨parts, hparts, rfl⟩ := Dialect.renderEntries_gives.mp hes
  rw [hbody]
  refine (writes_header q hsupports).obj_append ?_
  cases dialect with
  | mongo => exact Mongo.writes_parts hq ht hd hparts
  | dynamo => exact Dynamo.writes_parts ht hparts
  | firestore => exact Firestore.writes_parts ht hparts
  | couch => exact Couch.writes_parts hq ht hparts

/-! ## Strings -/

/-- Every key and every string value of a rendered query is one that the dialect may write, whatever
names the query was built with. -/
theorem strings_safe {start : Start} {target : Collection} {calls : List Call} {q : Query}
    (hbuild : ((Builder.start start target).run calls).build = .ok q) {dialect : Dialect}
    {r : Rendered} (h : q.render dialect = .ok r) :
    ∀ s ∈ r.body.allKeys ++ r.body.texts, dialect.Safe s := by
  have hwrites : Writes dialect False r.body r.params :=
    (built_of_build hbuild).writes False.elim False.elim h
  exact List.forall_mem_append.mpr ⟨hwrites.keys, hwrites.texts⟩

/-- The points of users from an age on, times a factor, by status. -/
def pointsByStatus : List Call :=
  [.matching (.condition Users.age .gte Users.least),
    .group (some (.field Users.status))
      [("total", ⟨.sum, some (.operator "$multiply" [.field Users.points, .literal Users.given])⟩)]]

theorem strings_safe_pointsByStatus :
    ∃ q r, ((Builder.start .aggregate Users.collection).run pointsByStatus).build = .ok q ∧
      q.render .mongo = .ok r ∧ "$multiply" ∈ r.body.allKeys ∧ "$points" ∈ r.body.texts ∧
      ∀ s ∈ r.body.allKeys ++ r.body.texts, Dialect.mongo.Safe s := by
  obtain ⟨q, hq⟩ : ∃ q,
      ((Builder.start .aggregate Users.collection).run pointsByStatus).build = .ok q := ⟨_, rfl⟩
  obtain ⟨r, hr, hkey, htext⟩ : ∃ r, q.render .mongo = .ok r ∧ "$multiply" ∈ r.body.allKeys ∧
      "$points" ∈ r.body.texts := by
    cases hq
    exact ⟨_, rfl, by decide, by decide⟩
  exact ⟨q, r, hq, hr, hkey, htext, strings_safe hq hr⟩

/-! ## Placeholders -/

theorem map_placeholder (ps : List Param) :
    ps.map Param.placeholder = (ps.map Param.name).map (":" ++ ·) := by
  rw [List.map_map]
  rfl

theorem count_map_placeholder (ps : List Param) (n : String) :
    (ps.map Param.placeholder).count (":" ++ n) = (ps.map Param.name).count n := by
  have hinj : Function.Injective fun s : String => ":" ++ s :=
    fun s t h => String.append_right_inj ":" |>.mp h
  rw [map_placeholder]
  exact List.count_map_of_injective _ _ hinj n

/-- A name stands in placeholders at most as often as it is bound, and every string value that
starts with a colon is the placeholder of a bound name. If the query is tidy, the placeholders are
those of the bound names, each as often as it is bound. A stage holds its facets as a list, so it is
a hypothesis that no two have the same name; facets from a map (`Stage.ofFacets`) never do. -/
theorem placeholders_bound {start : Start} {target : Collection} {calls : List Call} {q : Query}
    (hbuild : ((Builder.start start target).run calls).build = .ok q) {dialect : Dialect}
    {r : Rendered} (h : q.render dialect = .ok r) :
    (∀ n, r.body.texts.count (":" ++ n) ≤ r.paramNames.count n) ∧
    (∀ s ∈ r.body.texts, isMarked s = true → ∃ n ∈ r.paramNames, s = ":" ++ n) ∧
    (q.Tidy → Stage.DistinctFacetsIn q.pipeline →
      r.body.placeholders.Perm (r.paramNames.map (":" ++ ·))) := by
  have hq := built_of_build hbuild
  have hwrites : Writes dialect False r.body r.params := hq.writes False.elim False.elim h
  refine ⟨fun n => ?_, fun s hs hmarked => ?_, fun ht hd => ?_⟩
  · have hmarked : isMarked (":" ++ n) = true := isMarked_append (by decide) n
    have hcount : r.body.placeholders.count (":" ++ n) = r.body.texts.count (":" ++ n) :=
      List.count_filter hmarked
    rw [← hcount, Rendered.paramNames, ← count_map_placeholder]
    exact hwrites.among.count_le _
  · have hmem : s ∈ r.params.map Param.placeholder :=
      hwrites.among.subset (List.mem_filter.mpr ⟨hs, hmarked⟩)
    obtain ⟨p, hp, rfl⟩ := List.mem_map.mp hmem
    exact ⟨p.name, List.mem_map_of_mem hp, rfl⟩
  · have hwhole : Writes dialect True r.body r.params := hq.writes (fun _ => ht) (fun _ => hd) h
    rw [Rendered.paramNames, ← map_placeholder]
    exact hwhole.all trivial

/-- Users from an age on get a name and points. -/
def scoredUsers : List Call :=
  [.filter (.condition Users.age .gte Users.least), .change .set Users.name Users.label,
    .change .set Users.points Users.given]

theorem placeholders_bound_scoredUsers :
    ∃ q r, ((Builder.start .update Users.collection).run scoredUsers).build = .ok q ∧
      q.render .dynamo = .ok r ∧ q.Tidy ∧
      (∀ n, r.body.texts.count (":" ++ n) ≤ r.paramNames.count n) ∧
      r.body.placeholders.Perm (r.paramNames.map (":" ++ ·)) ∧
      r.paramNames = ["least", "label", "given"] := by
  obtain ⟨q, hq⟩ : ∃ q,
      ((Builder.start .update Users.collection).run scoredUsers).build = .ok q := ⟨_, rfl⟩
  obtain ⟨r, hr, hnames, htidy, hfacets⟩ : ∃ r, q.render .dynamo = .ok r ∧
      r.paramNames = ["least", "label", "given"] ∧ q.Tidy ∧
      Stage.DistinctFacetsIn q.pipeline := by
    cases hq
    have htidy : ∀ op ∈ ((Builder.start .update Users.collection).run scoredUsers).query.updates,
        op.Tidy := by decide
    exact ⟨_, rfl, rfl, htidy, trivial⟩
  obtain ⟨hcount, -, hperm⟩ := placeholders_bound hq hr
  exact ⟨q, r, hq, hr, htidy, hcount, hperm htidy hfacets, hnames⟩

end DocumentQuery

import DocumentQuery.Proofs.Couch.Selector
import DocumentQuery.Proofs.Firestore.Clauses
import DocumentQuery.Proofs.Mongo.Meaning
import DocumentQuery.Proofs.RenderedFilter
/-!
# Tests in rendered queries

A rendered query makes exactly the tests of the leaves of its filter, each as
often as it stands there (`tests_perm`). A blank leaf makes none, and nothing
rejects it on the way; so the demand for a filter can be met by one that every
document passes (`delete_everything`).

Main definitions:
* `Dialect.tests`: the tests that a rendered query makes of documents.
* `MatchesAll`: filters that rule out no document, by their form.

Results:
* `leaves_tested_iff`: every leaf is tested exactly if none is blank, and a filter
  with a leaf that is not blank never renders to one that matches all.
-/
namespace DocumentQuery

open Entries (get?)

namespace Dialect

/-- The tests in a rendered filter; aliases are looked up in the query around it. -/
def testsIn (es : Entries) : Dialect → Json → List Atom
  | .mongo, v => (Mongo.meaning v).atoms
  | .couch, v => (Mongo.meaning v).atoms
  | .firestore, v => Firestore.testsOf v
  | .dynamo, .str text => ((Dynamo.read (.of es) text).map Formula.atoms).getD []
  | .dynamo, _ => []

/-- The tests that a rendered query makes of documents. -/
def tests (dialect : Dialect) (operation : Operation) (r : Rendered) : List Atom :=
  match get? (dialect.filterKey operation) r.entries with
  | some v => testsIn r.entries dialect v
  | none => []

end Dialect

/-- The rendered filter rules out no document: it is an empty list or object, or asks nothing of a
path. -/
inductive MatchesAll : Json → Prop
  | list : MatchesAll (.arr [])
  | object : MatchesAll (.obj [])
  | path (path : String) : MatchesAll (.obj [(path, .obj [])])

theorem testsIn_of_matchesAll {v : Json} (h : MatchesAll v) (es : Entries) (dialect : Dialect) :
    dialect.testsIn es v = [] := by
  cases h <;> cases dialect <;> rfl

/-- A rendered query makes the tests of its filter. -/
theorem tests_perm {q : Query} {f : Filter} {dialect : Dialect} {r : Rendered}
    (hf : q.filter = some f) (hop : q.operation.takesFilter = true)
    (h : q.render dialect = .ok r) : (dialect.tests q.operation r).Perm f.formula.atoms := by
  have hcarries := carries_of_render hf hop h
  obtain ⟨v, ps, hv, hget, -⟩ := hcarries.rendered
  have htests : dialect.tests q.operation r = dialect.testsIn r.entries v := by
    rw [Dialect.tests, hget]
  rw [htests]
  cases dialect with
  | mongo => exact (Mongo.meaning_of_gives f hv).2.atoms
  | couch => exact (Mongo.meaning_of_gives f (Couch.renderFilter_of_renderSelector f hv)).2.atoms
  | firestore =>
    rw [Dialect.testsIn, Firestore.testsOf_renderWhere hv]
  | dynamo =>
    obtain ⟨c, hc, hpaths, hparams⟩ := hcarries.aliases rfl
    obtain ⟨rfl, -⟩ := hv.unique (Dynamo.renderFilter_gives hc)
    obtain ⟨hvalid, -⟩ := Query.render_eq_ok_iff.mp h
    have hgroups := Query.nonempty_groups hf hvalid
    obtain ⟨φ, hread, hsame⟩ :=
      Dynamo.read_of_reads (Dynamo.reads_condition f hc hgroups hpaths hparams)
    rw [Dialect.testsIn, hread]
    exact hsame.atoms

/-- A leaf tests something in the rendered query exactly if it is not blank. -/
theorem leaf_tested_iff {f leaf : Filter} {tests : List Atom} (h : tests.Perm f.formula.atoms)
    (hleaf : leaf ∈ f.leaves) :
    (∃ a ∈ leaf.formula.atoms, a ∈ tests) ↔ leaf.isBlank = false := by
  have hblank := Filter.atoms_eq_nil_iff (Filter.isLeaf_of_mem_leaves f hleaf)
  rw [Filter.atoms_formula] at h
  constructor
  · intro h'
    obtain ⟨a, ha, -⟩ := h'
    by_contra hb
    rw [Bool.not_eq_false] at hb
    rw [hblank.mpr hb] at ha
    cases ha
  · intro hb
    obtain ⟨a, ha⟩ := List.exists_mem_of_ne_nil leaf.formula.atoms fun hnil => by
      rw [hblank.mp hnil] at hb
      cases hb
    exact ⟨a, ha, h.mem_iff.mpr (List.mem_flatMap.mpr ⟨leaf, hleaf, ha⟩)⟩

/-- A rendered query makes the tests of its filter's leaves and no others. Every leaf is tested
exactly if none is blank, and the filter does not render to one that matches all if some leaf is
not blank. -/
theorem leaves_tested_iff {q : Query} {f : Filter} {dialect : Dialect} {r : Rendered}
    (hf : q.filter = some f) (hop : q.operation.takesFilter = true)
    (h : q.render dialect = .ok r) :
    (dialect.tests q.operation r).Perm (f.leaves.flatMap fun leaf => leaf.formula.atoms) ∧
    ((∀ leaf ∈ f.leaves, ∃ a ∈ leaf.formula.atoms, a ∈ dialect.tests q.operation r) ↔
      ∀ leaf ∈ f.leaves, leaf.isBlank = false) ∧
    ((∃ leaf ∈ f.leaves, leaf.isBlank = false) →
      ∃ v, get? (dialect.filterKey q.operation) r.entries = some v ∧ ¬ MatchesAll v) := by
  have hperm := tests_perm hf hop h
  refine ⟨?_, ?_, ?_⟩
  · rw [← Filter.atoms_formula]
    exact hperm
  · exact forall₂_congr fun leaf hleaf => leaf_tested_iff hperm hleaf
  · intro h'
    obtain ⟨leaf, hleaf, hblank⟩ := h'
    obtain ⟨v, ps, -, hget, -⟩ := (carries_of_render hf hop h).rendered
    refine ⟨v, hget, fun hall => ?_⟩
    obtain ⟨a, -, ha⟩ := (leaf_tested_iff hperm hleaf).mpr hblank
    rw [Dialect.tests, hget] at ha
    simp only [testsIn_of_matchesAll hall] at ha
    cases ha

/-- Users below an age that have a score under some other name. -/
def minors : Filter :=
  .group .and [.range ⟨Users.age, none, some Users.greatest, false, true⟩,
    .elemMatch Users.scores [.condition Users.name .notIn Users.given]]

theorem leaves_tested_iff_minors :
    ∃ q r, ((Builder.start .deleteMany Users.collection).run [.filter minors]).build = .ok q ∧
      q.render .mongo = .ok r ∧
      (∀ leaf ∈ minors.leaves, ∃ a ∈ leaf.formula.atoms, a ∈ Dialect.mongo.tests q.operation r) ∧
      ∃ v, get? (Dialect.mongo.filterKey q.operation) r.entries = some v ∧ ¬ MatchesAll v := by
  obtain ⟨q, hq, hf, hop⟩ : ∃ q,
      ((Builder.start .deleteMany Users.collection).run [.filter minors]).build = .ok q ∧
        q.filter = some minors ∧ q.operation.takesFilter = true :=
    ⟨_, rfl, rfl, rfl⟩
  obtain ⟨r, hr⟩ : ∃ r, q.render .mongo = .ok r := by
    cases hq
    exact ⟨_, rfl⟩
  obtain ⟨-, hiff, hsome⟩ := leaves_tested_iff hf hop hr
  have hblank : ∀ leaf ∈ minors.leaves, leaf.isBlank = false := by decide
  exact ⟨q, r, hq, hr, hiff.mpr hblank, hsome ⟨_, List.mem_cons_self, rfl⟩⟩

/-- A range without bounds. -/
def anyAge : Filter := .range ⟨Users.age, none, none, false, false⟩

/-- A deletion of many documents, which needs a filter, takes one that rules out none. -/
theorem delete_everything :
    ∃ q r, ((Builder.start .deleteMany Users.collection).run [.filter anyAge]).build = .ok q ∧
      q.filter = some anyAge ∧ anyAge ∈ anyAge.leaves ∧ q.render .mongo = .ok r ∧
      (∃ v, get? "filter" r.entries = some v ∧ MatchesAll v) ∧
      Dialect.mongo.tests q.operation r = [] :=
  ⟨_, _, rfl, rfl, List.mem_cons_self, rfl, ⟨_, rfl, .path _⟩, rfl⟩

end DocumentQuery

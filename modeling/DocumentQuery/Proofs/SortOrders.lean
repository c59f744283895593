import DocumentQuery.Proofs.Chain
import DocumentQuery.Proofs.LastWrites
import DocumentQuery.Proofs.Mongo.StagePlaces
/-!
# The order that a sort asks for

A sort compares two documents by its clauses one after the other: the first path at which they
differ decides. A clause for a path that an earlier clause names decides nothing. Two dialects
render all clauses as a list. The third renders an object, where a path that is named again keeps
its place and takes the later direction.

Main definitions:
* `compareBy`: two documents compared by clauses, whatever a comparison at one path is.
* `SortAlike`: clauses that compare all documents alike.
* `Steady`: the first direction of each path is also its last one.
* `Dialect.readSort`: the clauses that the sort of a rendered query says.

Results:
* `sortAlike_lastWrites_iff`: an object of clauses compares like the clauses exactly if they are
  steady.
* `sort_kept_iff`: when a rendered query has the sort that was asked for.
* `resorted_flips`: a sort that comes out the other way round.
-/
namespace DocumentQuery

open Entries (get?)

/-! ## Comparisons -/

/-- The outcome of a comparison in a direction. -/
def SortOrder.direct : SortOrder → Ordering → Ordering
  | .ascending, o => o
  | .descending, o => o.swap

/-- A path and the direction in which it sorts. -/
abbrev SortKey := String × SortOrder

section Comparisons

variable {δ : Type} (compareAt : String → δ → δ → Ordering)

/-- Two documents compared by clauses, one after the other. -/
def compareBy : List SortKey → δ → δ → Ordering
  | [], _, _ => .eq
  | (path, order) :: keys, a, b => (order.direct (compareAt path a b)).then (compareBy keys a b)

theorem SortOrder.direct_eq_eq {order : SortOrder} {o : Ordering} :
    order.direct o = .eq ↔ o = .eq := by
  cases order
  · exact Iff.rfl
  · exact Ordering.swap_eq_eq

theorem compareBy_append (keys keys' : List SortKey) (a b : δ) :
    compareBy compareAt (keys ++ keys') a b =
      (compareBy compareAt keys a b).then (compareBy compareAt keys' a b) := by
  induction keys with
  | nil => rfl
  | cons key keys ih =>
    show (key.2.direct (compareAt key.1 a b)).then (compareBy compareAt (keys ++ keys') a b) = _
    rw [ih, ← Ordering.then_assoc]
    rfl

theorem compareBy_eq_eq_iff {keys : List SortKey} {a b : δ} :
    compareBy compareAt keys a b = .eq ↔ ∀ key ∈ keys, compareAt key.1 a b = .eq := by
  induction keys with
  | nil => simp [compareBy]
  | cons key keys ih =>
    obtain ⟨path, order⟩ := key
    rw [compareBy, Ordering.then_eq_eq, SortOrder.direct_eq_eq, ih, List.forall_mem_cons]

/-- A clause for a path that was named before decides nothing. -/
theorem compareBy_concat_of_mem {keys : List SortKey} {key : SortKey}
    (h : key.1 ∈ keys.map Prod.fst) (a b : δ) :
    compareBy compareAt (keys ++ [key]) a b = compareBy compareAt keys a b := by
  rw [compareBy_append]
  -- if the clauses before it do not tell the documents apart, they are equal at its path
  cases hkeys : compareBy compareAt keys a b with
  | lt | gt => rfl
  | eq =>
    obtain ⟨key', hmem, hpath⟩ := List.mem_map.mp h
    rw [Ordering.eq_then, compareBy_eq_eq_iff]
    intro k hk
    rw [List.mem_singleton.mp hk, ← hpath]
    exact (compareBy_eq_eq_iff compareAt).mp hkeys key' hmem

/-- The clauses that decide: the first one for each path. -/
def firstKeys (keys : List SortKey) : List SortKey :=
  (keys.map Prod.fst).eraseDups.filterMap fun path =>
    (keys.lookup path).map fun order => (path, order)

theorem firstKeys_concat (keys : List SortKey) (key : SortKey) :
    firstKeys (keys ++ [key]) =
      if key.1 ∈ keys.map Prod.fst then firstKeys keys else firstKeys keys ++ [key] := by
  have hsame : (keys.map Prod.fst).eraseDups.filterMap (fun path =>
      ((keys ++ [key]).lookup path).map fun order => (path, order)) = firstKeys keys := by
    refine List.filterMap_congr fun path hpath => ?_
    have hne : keys.lookup path ≠ none := by
      rw [ne_eq, lookup_eq_none_iff_not_mem, not_not]
      exact List.mem_eraseDups.mp hpath
    obtain ⟨order, horder⟩ := Option.ne_none_iff_exists'.mp hne
    rw [List.lookup_append, horder, Option.some_or]
  rw [firstKeys, List.map_append, List.map_singleton, eraseDups_concat]
  split
  · exact hsame
  · rename_i hnot
    have hlookup : (keys ++ [key]).lookup key.1 = some key.2 := by
      rw [List.lookup_append, lookup_eq_none_iff_not_mem.mpr hnot]
      rw [Option.none_or, List.lookup_cons, beq_self_eq_true]
    rw [List.filterMap_append, hsame]
    simp [hlookup]

theorem compareBy_firstKeys (keys : List SortKey) (a b : δ) :
    compareBy compareAt (firstKeys keys) a b = compareBy compareAt keys a b := by
  induction keys using List.reverseRecOn with
  | nil => rfl
  | append_singleton keys key ih =>
    rw [firstKeys_concat]
    split
    · rename_i hmem
      rw [ih, compareBy_concat_of_mem compareAt hmem]
    · rw [compareBy_append, compareBy_append, ih]

end Comparisons

/-- The clauses compare all documents alike, whatever the comparisons at their paths are. -/
def SortAlike (keys keys' : List SortKey) : Prop :=
  ∀ (δ : Type) (compareAt : String → δ → δ → Ordering) (a b : δ),
    compareBy compareAt keys a b = compareBy compareAt keys' a b

/-- The first direction of each path is also its last one. -/
def Steady (keys : List SortKey) : Prop := ∀ path, keys.lookup path = keys.reverse.lookup path

theorem steady_of_nodup {keys : List SortKey} (h : (keys.map Prod.fst).Nodup) : Steady keys :=
  fun path => (lookup_reverse_of_nodup h path).symm

/-- Two documents that differ at one path are compared in the first direction for it. -/
theorem compareBy_at (path : String) (keys : List SortKey) :
    compareBy (fun p a b => if p = path then compare a b else .eq) keys false true =
      (keys.lookup path).elim .eq fun order => order.direct .lt := by
  have hless : compare false true = .lt := rfl
  induction keys with
  | nil => rfl
  | cons key keys ih =>
    obtain ⟨p, order⟩ := key
    rw [compareBy, ih, List.lookup_cons]
    by_cases h : p = path
    · subst h
      cases order <;> simp [SortOrder.direct, hless]
    · have hbeq : (path == p) = false := beq_false_of_ne (Ne.symm h)
      cases order <;> simp [SortOrder.direct, h, hbeq]

/-- Clauses that compare alike have the same first direction for each path. -/
theorem SortAlike.lookup_eq {keys keys' : List SortKey} (h : SortAlike keys keys')
    (path : String) : keys.lookup path = keys'.lookup path := by
  have hsame := h Bool (fun p a b => if p = path then compare a b else .eq) false true
  rw [compareBy_at, compareBy_at] at hsame
  generalize keys.lookup path = o at hsame
  generalize keys'.lookup path = o' at hsame
  rcases o with _ | _ | _ <;> rcases o' with _ | _ | _ <;> first | rfl | cases hsame

/-- Of clauses in an object the last direction for each path is left. -/
theorem sortAlike_lastWrites_iff {keys : List SortKey} :
    SortAlike (lastWrites keys) keys ↔ Steady keys := by
  constructor
  · intro h path
    rw [← h.lookup_eq path, lookup_lastWrites]
  · intro h δ compareAt a b
    have hkeys : lastWrites keys = firstKeys keys :=
      List.filterMap_congr fun path _ => by rw [h path]
    rw [hkeys, compareBy_firstKeys]

/-! ## Rendered sorts -/

/-- The path and the direction of a clause. -/
def SortClause.key (s : SortClause) : SortKey := (s.field.path, s.order)

/-- The direction with the given sign. -/
def SortOrder.ofSign? (n : Int) : Option SortOrder :=
  if n = 1 then some .ascending else if n = -1 then some .descending else none

/-- The direction with the given word. -/
def SortOrder.ofWord? (s : String) : Option SortOrder :=
  if s = "asc" then some .ascending else if s = "desc" then some .descending else none

theorem SortOrder.ofSign?_sign (order : SortOrder) : ofSign? order.sign = some order := by
  cases order <;> rfl

theorem SortOrder.ofWord?_word (order : SortOrder) : ofWord? order.word = some order := by
  cases order <;> rfl

/-- The clause that an entry with a sign says. -/
def readSign : String × Json → Option SortKey
  | (path, .int n) => (SortOrder.ofSign? n).map fun order => (path, order)
  | _ => none

/-- The clause that an object with one entry says. -/
def readWord : Json → Option SortKey
  | .obj [(path, .str s)] => (SortOrder.ofWord? s).map fun order => (path, order)
  | _ => none

/-- The clause that an object with a field and a direction says. -/
def readDirection : Json → Option SortKey
  | .obj [("field", .str path), ("direction", .str s)] =>
    (SortOrder.ofWord? s).map fun order => (path, order)
  | _ => none

namespace Dialect

/-- The key of the sort of a find. -/
def sortName : Dialect → String
  | .firestore => "orderBy"
  | _ => "sort"

/-- The clauses that a rendered sort says. -/
def readSort : Dialect → Json → Option (List SortKey)
  | .mongo, .obj es => es.mapM readSign
  | .firestore, .arr vs => vs.mapM readDirection
  | .couch, .arr vs => vs.mapM readWord
  | _, _ => none

/-- The clauses that a rendered query says; without a sort there are none. -/
def sortOf (dialect : Dialect) (r : Rendered) : Option (List SortKey) :=
  (get? dialect.sortName r.entries).elim (some []) dialect.readSort

end Dialect

theorem readSort_sortObject (sorts : List SortClause) :
    Dialect.mongo.readSort (Mongo.sortObject sorts) =
      some (lastWrites (sorts.map SortClause.key)) := by
  have hpairs : sorts.map (fun s => (s.field.path, Json.int s.order.sign)) =
      (sorts.map SortClause.key).map fun key => (key.1, Json.int key.2.sign) := by
    rw [List.map_map]
    rfl
  rw [Mongo.sortObject, Json.ofEntries, Entries.ofPairs_eq_lastWrites, hpairs,
    lastWrites_map (fun order : SortOrder => Json.int order.sign)]
  refine mapM_eq_some ?_
  rw [List.forall₂_map_left_iff, List.forall₂_same]
  intro key _
  rw [readSign, SortOrder.ofSign?_sign, Option.map_some]

theorem readSort_orderClauses (sorts : List SortClause) :
    Dialect.firestore.readSort (.arr (sorts.map Firestore.orderClause)) =
      some (sorts.map SortClause.key) := by
  refine mapM_eq_some ?_
  rw [List.forall₂_map_left_iff, List.forall₂_map_right_iff, List.forall₂_same]
  intro s _
  rw [Firestore.orderClause, readDirection, SortOrder.ofWord?_word, Option.map_some]
  rfl

theorem readSort_words (sorts : List SortClause) :
    Dialect.couch.readSort
        (.arr (sorts.map fun s => .single s.field.path (.str s.order.word))) =
      some (sorts.map SortClause.key) := by
  refine mapM_eq_some ?_
  rw [List.forall₂_map_left_iff, List.forall₂_map_right_iff, List.forall₂_same]
  intro s _
  rw [Json.single, readWord, SortOrder.ofWord?_word, Option.map_some]
  rfl

/-! ## Sorts of finds -/

/-- The clauses that are left where a dialect renders them. -/
def Dialect.keptKeys : Dialect → List SortKey → List SortKey
  | .mongo, keys => lastWrites keys
  | _, keys => keys

theorem sortAlike_keptKeys_iff {dialect : Dialect} {keys : List SortKey} :
    SortAlike (dialect.keptKeys keys) keys ↔ (dialect = .mongo → Steady keys) := by
  cases dialect with
  | mongo =>
    rw [Dialect.keptKeys, sortAlike_lastWrites_iff]
    simp
  | dynamo | firestore | couch => simp [Dialect.keptKeys, SortAlike]

/-- The entry of a sort says its clauses, and it is left out if there are none. -/
theorem sortOf_of_get? {dialect : Dialect} {r : Rendered} {sorts : List SortClause} {v : Json}
    (hget : get? dialect.sortName r.entries = if !sorts.isEmpty then some v else none)
    (hread : dialect.readSort v = some (dialect.keptKeys (sorts.map SortClause.key))) :
    dialect.sortOf r = some (dialect.keptKeys (sorts.map SortClause.key)) := by
  rw [Dialect.sortOf, hget]
  cases sorts with
  | nil => cases dialect <;> rfl
  | cons s sorts => exact hread

/-- A rendered find says the clauses of its query that are left. -/
theorem sortOf_of_render {q : Query} (hop : q.operation = .find ∨ q.operation = .findOne)
    {dialect : Dialect} (hdialect : dialect ≠ .dynamo) {r : Rendered}
    (hr : q.render dialect = .ok r) :
    dialect.sortOf r = some (dialect.keptKeys (q.sort.map SortClause.key)) := by
  obtain ⟨parts, hparts, hentries⟩ := Query.parts_of_render hr
  rw [Dialect.renderParts_of_find dialect hop] at hparts
  cases dialect with
  | mongo =>
    obtain ⟨filter, projection, skip, limit, _, _, _, _, -, -, -, -, rfl, -⟩ :=
      Mongo.renderFind_gives.mp hparts
    exact sortOf_of_get? (by simp [Dialect.sortName, hentries, Dialect.header])
      (readSort_sortObject q.sort)
  | dynamo => exact absurd rfl hdialect
  | firestore =>
    obtain ⟨_, limit, offset, fields, _, _, _, hwhere, -, -, -, rfl, -⟩ :=
      Firestore.renderFind_gives.mp hparts
    obtain ⟨list, -, rfl⟩ := Firestore.whereEntries_gives.mp hwhere
    exact sortOf_of_get? (by simp [Dialect.sortName, hentries, Dialect.header])
      (readSort_orderClauses q.sort)
  | couch =>
    obtain ⟨selector, fields, limit, skip, _, _, _, -, -, -, -, rfl, -⟩ :=
      Couch.renderFind_gives.mp hparts
    exact sortOf_of_get? (by simp [Dialect.sortName, hentries, Dialect.header])
      (readSort_words q.sort)

/-! ## Chains -/

/-- The clause that a call asks for. -/
def Call.clause? : Call → Option SortClause
  | .sort field order => some ⟨field, order⟩
  | _ => none

/-- A call that sorts puts its clause last, and no other call changes the clauses. -/
theorem Call.sort_of_run {c : Call} {q q' : Query} (h : c.run q = .ok q') :
    q'.sort = q.sort ++ c.clause?.toList := by
  rw [eq_effect_of_run h]
  cases c with
  | sort field order => rfl
  | _ => exact (List.append_nil q.sort).symm

/-- The clauses that the calls of a chain ask for, in order. -/
def askedKeys (calls : List Call) : List SortKey :=
  (calls.filterMap Call.clause?).map SortClause.key

/-- A built query has the clauses that its calls ask for. -/
theorem sort_of_build {start : Start} {target : Collection} {calls : List Call} {q : Query}
    (hbuild : ((Builder.start start target).run calls).build = .ok q) :
    q.sort = calls.filterMap Call.clause? := by
  obtain ⟨hcalls, -⟩ := Builder.run_of_build hbuild
  refine foldlM_run_induction (P := fun calls q => q.sort = calls.filterMap Call.clause?) rfl
    (fun {calls c mid next} hmid hrun => ?_) hcalls
  rw [Call.sort_of_run hrun, hmid, List.filterMap_append]
  cases hc : c.clause? <;> simp [hc]

/-- A rendered find compares documents as the clauses that its calls ask for: always if its sort is
a list, and if it is an object, exactly if the first direction of each path is also its last one.
A stage that sorts has an object. -/
theorem sort_kept_iff {start : Start} {target : Collection} {calls : List Call} {q : Query}
    (hbuild : ((Builder.start start target).run calls).build = .ok q) {dialect : Dialect}
    {r : Rendered} (hr : q.render dialect = .ok r) :
    (start.operation = .find ∨ start.operation = .findOne → dialect ≠ .dynamo →
      ∃ keys, dialect.sortOf r = some keys ∧
        (SortAlike keys (askedKeys calls) ↔ (dialect = .mongo → Steady (askedKeys calls)))) ∧
    ∀ i place sorts, start.operation = .aggregate → q.stageAt? i place = some (.sort sorts) →
      ∃ v keys, r.objectAt? i place = some (.obj [("$sort", v)]) ∧
        Dialect.mongo.readSort v = some keys ∧
        (SortAlike keys (sorts.map SortClause.key) ↔ Steady (sorts.map SortClause.key)) := by
  obtain ⟨hcalls, -⟩ := Builder.run_of_build hbuild
  have hop : q.operation = start.operation := (foldlM_run_fixed hcalls).1
  constructor
  · intro hfind hdialect
    rw [← hop] at hfind
    refine ⟨_, sortOf_of_render hfind hdialect hr, ?_⟩
    rw [sort_of_build hbuild]
    exact sortAlike_keptKeys_iff
  · intro i place sorts haggregate hplace
    rw [← hop] at haggregate
    obtain rfl : dialect = .mongo := by
      obtain ⟨-, hsupports, -⟩ := Query.render_eq_ok_iff.mp hr
      rw [haggregate] at hsupports
      cases dialect <;> first | rfl | cases hsupports
    obtain ⟨v, ps, hv, hobject⟩ := Query.objectAt?_of_render haggregate hr hplace
    obtain ⟨body, hbody, rfl⟩ := Mongo.renderStage_gives.mp hv
    obtain ⟨rfl, -⟩ := Render.gives_pure.mp hbody
    exact ⟨_, _, hobject, readSort_sortObject sorts, sortAlike_lastWrites_iff⟩

/-- The oldest users first, those of one age by name. -/
def oldestFirst : List Call := [.sort Users.age .descending, .sort Users.name .ascending]

theorem sort_kept_iff_oldestFirst :
    ∃ q r keys, ((Builder.start .find Users.collection).run oldestFirst).build = .ok q ∧
      q.render .mongo = .ok r ∧ Dialect.mongo.sortOf r = some keys ∧
      SortAlike keys [("age", .descending), ("name", .ascending)] := by
  obtain ⟨q, hbuild⟩ : ∃ q,
      ((Builder.start .find Users.collection).run oldestFirst).build = .ok q := ⟨_, rfl⟩
  obtain ⟨r, hr⟩ : ∃ r, q.render .mongo = .ok r := by
    cases hbuild
    exact ⟨_, rfl⟩
  obtain ⟨keys, hkeys, halike⟩ := (sort_kept_iff hbuild hr).1 (.inl rfl) (by decide)
  exact ⟨q, r, keys, hbuild, hr, hkeys, halike.mpr fun _ => steady_of_nodup (by decide)⟩

/-- Users by age, and then by age the other way round. -/
def resorted : List Call := [.sort Users.age .ascending, .sort Users.age .descending]

/-- The second clause decides nothing, but its direction is all that is left of the sort. -/
theorem resorted_flips :
    ∃ q r keys, ((Builder.start .find Users.collection).run resorted).build = .ok q ∧
      q.render .mongo = .ok r ∧ get? "sort" r.entries = some (.obj [("age", .int (-1))]) ∧
      Dialect.mongo.sortOf r = some keys ∧
      compareBy (fun _ a b => compare a b) (askedKeys resorted) 1 2 = .lt ∧
      compareBy (fun _ a b => compare a b) keys 1 2 = .gt :=
  ⟨_, _, _, rfl, rfl, rfl, rfl, rfl, rfl⟩

end DocumentQuery

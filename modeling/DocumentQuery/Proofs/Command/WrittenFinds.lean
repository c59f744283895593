import DocumentQuery.Proofs.Command.WrittenTexts
import DocumentQuery.Proofs.ConditionTrees
import DocumentQuery.Proofs.Conjunctions
import DocumentQuery.Proofs.FirstFailure
import DocumentQuery.Proofs.Mongo.Parameters
/-!
# Finds from the command line

A find is asked for by a collection, written filters and sorts, a limit and a number of
documents to skip. Each filter is one condition, and the conditions lie one inside the
other, so the bound on nesting is a bound on their number.

Main definitions:
* `FindRequest.query`: the find of conditions and sort clauses.

Results:
* `FindRequest.build_eq_ok_iff`: what a request is built to.
* `FindRequest.run_of_limit_le`, `FindRequest.failure_of_limit_gt`: the calls lead to
  that find, unless the limit is too large.
* `FindRequest.query_validate_iff`: when the find is well formed.
* `FindRequest.exists_asked_of_render`: what such a find tests and binds.
* `find_accepted_iff`: which requests are rendered for mongo, and what they give.
-/
namespace DocumentQuery

/-! ## Conditions -/

/-- The filter is a condition. -/
def Filter.IsCondition (f : Filter) : Prop := ∃ field operator value, f = .condition field operator value

namespace Filter.IsCondition

variable {f : Filter}

theorem nodes_eq (h : f.IsCondition) : f.nodes = [f] := by
  obtain ⟨field, operator, value, rfl⟩ := h
  simp [nodes]

theorem leaves_eq (h : f.IsCondition) : f.leaves = [f] := by
  obtain ⟨field, operator, value, rfl⟩ := h
  simp [leaves]

theorem nesting_eq (h : f.IsCondition) : f.nesting = 0 := by
  obtain ⟨field, operator, value, rfl⟩ := h
  simp [nesting]

end Filter.IsCondition

/-! ## Builders without a failure -/

namespace Builder

variable {q : Query} {dialect : Dialect} {rendered : Rendered}

theorem render_eq_ok_iff {b : Builder} :
    b.render dialect = .ok rendered ↔ ∃ q, b.build = .ok q ∧ q.render dialect = .ok rendered :=
  bind_eq_ok_iff

/-- Without a failure a builder renders as its query does. -/
theorem render_fresh_eq_ok_iff :
    (⟨q, none⟩ : Builder).render dialect = .ok rendered ↔ q.render dialect = .ok rendered := by
  simp only [render_eq_ok_iff, build_fresh_eq_ok_iff]
  constructor
  · intro h
    obtain ⟨_, ⟨-, rfl⟩, hq⟩ := h
    exact hq
  · intro hq
    exact ⟨q, ⟨(Query.render_eq_ok_iff.mp hq).1, rfl⟩, hq⟩

theorem render_ne_ok_of_failure {b : Builder} {e : Error} (h : b.failure = some e) :
    b.render dialect ≠ .ok rendered := by
  intro hb
  obtain ⟨q, hq, -⟩ := render_eq_ok_iff.mp hb
  cases (build_of_failure h).symm.trans hq

end Builder

/-! ## Requests -/

namespace FindRequest

/-- The calls that a request makes, given its conditions and sort clauses. -/
def calls (r : FindRequest) (fs : List Filter) (sorts : List Call) : List Call :=
  fs.map Call.filter ++ sorts ++ (r.limit.map Call.limit).toList ++ (r.skip.map Call.skip).toList

variable {r : FindRequest} {c : Catalog}

/-- A request is built if its collection, its filters and its sorts can be read. -/
theorem build_eq_ok_iff {b : Builder} : r.build c = .ok b ↔
    ∃ target fs sorts, c.collection r.collection = .ok target ∧
      List.Forall₂ (fun text f => conditionOf c r.collection text = .ok f) r.filters fs ∧
      List.Forall₂ (fun text call => sortOf c r.collection text = .ok call) r.sorts sorts ∧
      b = (Builder.start .find target).run (r.calls fs sorts) := by
  simp only [build, bind_eq_ok_iff, liftError_eq_ok_iff, mapM_eq_ok_iff, pure_eq_ok_iff]
  constructor
  · intro h
    obtain ⟨target, htarget, fs, hfs, sorts, hsorts, hb⟩ := h
    exact ⟨target, fs, sorts, htarget, hfs, hsorts, hb⟩
  · intro h
    obtain ⟨target, fs, sorts, htarget, hfs, hsorts, hb⟩ := h
    exact ⟨target, htarget, fs, hfs, sorts, hsorts, hb⟩

/-- The find of all documents that pass the filters, in the order of the clauses. -/
def sorted (target : Collection) (fs : List Filter) (clauses : List SortClause) : Query :=
  { (Query.start .find target).withFilter (Filter.conjoin none fs) with sort := clauses }

/-- The find of conditions and sort clauses. -/
def query (r : FindRequest) (target : Collection) (fs : List Filter) (clauses : List SortClause) :
    Query :=
  { sorted target fs clauses with
    limit := r.limit.map .fixed
    skip := r.skip.map .fixed }

section Chain

variable {target : Collection} {fs : List Filter} {clauses : List SortClause} {q : Query}

/-- A call for reading operations applies to a find. -/
theorem call_of_read (call : Call) (hop : q.operation = .find)
    (hread : call.requirement = some .read) :
    (⟨q, none⟩ : Builder).call call = call.perform q := by
  show call.apply q = call.perform q
  simp [Call.apply, hread, OperationFamily.allows, hop, Operation.isRead]

theorem run_sorts (clauses : List SortClause) (hop : q.operation = .find) :
    (⟨q, none⟩ : Builder).run (clauses.map SortClause.call) =
      ⟨{ q with sort := q.sort ++ clauses }, none⟩ := by
  induction clauses generalizing q with
  | nil => simp [Builder.run]
  | cons s clauses ih =>
    have hcall : (⟨q, none⟩ : Builder).call s.call = ⟨{ q with sort := q.sort ++ [s] }, none⟩ :=
      call_of_read s.call hop rfl
    show ((⟨q, none⟩ : Builder).call s.call).run (clauses.map SortClause.call) = _
    rw [hcall, ih (q := { q with sort := q.sort ++ [s] }) hop, List.append_assoc]
    rfl

theorem run_filters_sorts :
    (Builder.start .find target).run (fs.map Call.filter ++ clauses.map SortClause.call) =
      ⟨sorted target fs clauses, none⟩ := by
  have hfilters : (Builder.start .find target).run (fs.map Call.filter) =
      ⟨(Query.start .find target).withFilter (Filter.conjoin none fs), none⟩ :=
    Builder.run_filters fs (Query.start .find target)
  rw [Builder.run_append, hfilters, run_sorts clauses rfl]
  rfl

/-- A request leads to its find if the limit is in range. -/
theorem run_of_limit_le (hlimit : ∀ n, r.limit = some n → n ≤ maxLimit) :
    (Builder.start .find target).run (r.calls fs (clauses.map SortClause.call)) =
      ⟨r.query target fs clauses, none⟩ := by
  have hpages : (⟨sorted target fs clauses, none⟩ : Builder).run (r.limit.map Call.limit).toList =
      ⟨{ sorted target fs clauses with limit := r.limit.map .fixed }, none⟩ := by
    cases h : r.limit with
    | none => rfl
    | some n =>
      have hcall := call_of_read (q := sorted target fs clauses) (.limit n) rfl rfl
      rw [Call.perform, if_neg (Nat.not_lt_of_le (hlimit n h))] at hcall
      exact hcall
  rw [calls, Builder.run_append, Builder.run_append, run_filters_sorts, hpages, query]
  cases r.skip with
  | none => rfl
  | some n =>
    exact call_of_read (q := { sorted target fs clauses with limit := r.limit.map .fixed })
      (.skip n) rfl rfl

theorem failure_of_limit_gt {n : Nat} (h : r.limit = some n) (hn : maxLimit < n) :
    ((Builder.start .find target).run (r.calls fs (clauses.map SortClause.call))).failure =
      some (.invalidQuery (.limitTooLarge n)) := by
  have hcall := call_of_read (q := sorted target fs clauses) (.limit n) rfl rfl
  rw [Call.perform, if_pos hn] at hcall
  have hlimit : (⟨sorted target fs clauses, none⟩ : Builder).run (r.limit.map Call.limit).toList =
      ⟨sorted target fs clauses, some (.invalidQuery (.limitTooLarge n))⟩ := by
    rw [h]
    exact hcall
  rw [calls, Builder.run_append, Builder.run_append, run_filters_sorts, hlimit,
    Builder.run_of_failure rfl]

/-! ## Bounds -/

/-- The conditions are within the bound on nesting if there are not too many of them. -/
theorem nesting_conjoin_le_iff (hfs : ∀ f ∈ fs, f.IsCondition) :
    (∀ f, Filter.conjoin none fs = some f → f.nesting ≤ maxFilterDepth) ↔ fs.length ≤ 11 := by
  have hnesting := Filter.nesting_conjoin fun f hf => (hfs f hf).nesting_eq
  have hdepth : maxFilterDepth = 10 := rfl
  cases hconjoin : Filter.conjoin none fs with
  | none =>
    rw [hconjoin, Option.elim_none] at hnesting
    refine iff_of_true (fun f hf => by cases hf) ?_
    omega
  | some f =>
    rw [hconjoin, Option.elim_some] at hnesting
    simp only [Option.some.injEq, forall_eq']
    omega

theorem promises_conjoin (hfs : ∀ f ∈ fs, f.IsCondition) :
    ∀ f, Filter.conjoin none fs = some f → ∀ g ∈ f.nodes, Dialect.mongo.Promises g := by
  refine Filter.forall_nodes_conjoin (fun g f => ⟨rfl, List.cons_ne_nil g [f]⟩) fun f hf g hg => ?_
  rw [(hfs f hf).nodes_eq, List.mem_singleton] at hg
  obtain ⟨field, operator, value, rfl⟩ := hfs f hf
  subst hg
  rfl

/-- The limits on a find of conditions are limits on numbers. -/
theorem query_validate_iff (hfs : ∀ f ∈ fs, f.IsCondition) :
    (r.query target fs clauses).validate = .ok () ↔
      fs.length ≤ 11 ∧ clauses.length ≤ 10 ∧ ∀ n, r.limit = some n → n ≤ maxLimit := by
  have hgroup : (r.query target fs clauses).emptyGroup? = none := by
    refine Query.emptyGroup?_eq_none.mpr ⟨?_, rfl⟩
    show (Filter.conjoin none fs).bind Filter.emptyGroup? = none
    cases h : Filter.conjoin none fs with
    | none => rfl
    | some f => exact Filter.emptyGroup?_of_promises (promises_conjoin hfs f h)
  have hlimit : (∀ n, (r.query target fs clauses).limit = some (.fixed n) → n ≤ maxLimit) ↔
      ∀ n, r.limit = some n → n ≤ maxLimit := by
    simp [query]
  rw [Query.validate_eq_ok_iff, and_iff_right (Collection.isEmpty_name _), and_iff_right hgroup,
    ← nesting_conjoin_le_iff hfs, ← hlimit]
  refine Query.validateFind_eq_ok_iff.trans ?_
  constructor
  · intro h
    obtain ⟨hle, -, hsort, hnesting⟩ := h
    exact ⟨hnesting, hsort, hle⟩
  · intro h
    obtain ⟨hnesting, hsort, hle⟩ := h
    exact ⟨hle, fun p hp => (by cases hp), hsort, hnesting⟩

theorem query_render_isOk_iff (hfs : ∀ f ∈ fs, f.IsCondition) :
    (∃ rendered, (r.query target fs clauses).render .mongo = .ok rendered) ↔
      fs.length ≤ 11 ∧ clauses.length ≤ 10 ∧ ∀ n, r.limit = some n → n ≤ maxLimit := by
  rw [Query.find_isOk_iff (.inl rfl), query_validate_iff hfs]
  refine and_iff_left ⟨fun f hf => ?_, Dialect.projects_none .mongo⟩
  exact Mongo.succeeds_of_promises f (promises_conjoin hfs f hf)

/-- What the calls of a request lead to is rendered within the bounds. -/
theorem run_render_isOk_iff (hfs : ∀ f ∈ fs, f.IsCondition) :
    (∃ rendered, ((Builder.start .find target).run
        (r.calls fs (clauses.map SortClause.call))).render .mongo = .ok rendered) ↔
      fs.length ≤ 11 ∧ clauses.length ≤ 10 ∧ ∀ n, r.limit = some n → n ≤ maxLimit := by
  by_cases hlimit : ∀ n, r.limit = some n → n ≤ maxLimit
  · rw [run_of_limit_le hlimit]
    simp only [Builder.render_fresh_eq_ok_iff]
    exact query_render_isOk_iff hfs
  · refine iff_of_false (fun h => ?_) (fun h => hlimit h.2.2)
    obtain ⟨rendered, hrendered⟩ := h
    simp only [not_forall, Nat.not_le] at hlimit
    obtain ⟨n, hn, hlt⟩ := hlimit
    exact Builder.render_ne_ok_of_failure (failure_of_limit_gt hn hlt) hrendered

/-! ## What is rendered -/

theorem flatMap_leaves (hfs : ∀ f ∈ fs, f.IsCondition) : fs.flatMap Filter.leaves = fs := by
  induction fs with
  | nil => rfl
  | cons f fs ih =>
    obtain ⟨hf, hfs⟩ := List.forall_mem_cons.mp hfs
    rw [List.flatMap_cons, hf.leaves_eq, ih hfs, List.singleton_append]

/-- A find binds the parameters of its conditions; a fixed number binds none. -/
theorem params_of_query_render {rendered : Rendered}
    (h : (r.query target fs clauses).render .mongo = .ok rendered) :
    rendered.params = fs.flatMap Filter.params := by
  obtain ⟨hvalid, -, -⟩ := Query.render_eq_ok_iff.mp h
  obtain ⟨parts, hparts, -⟩ := Query.parts_of_render h
  have hparams : rendered.params = (r.query target fs clauses).params .mongo :=
    Mongo.params_of_renderParts hvalid hparts
  have hskip : (r.query target fs clauses).skipParams = [] := by
    show (r.skip.map Pagination.fixed).elim [] Pagination.params = []
    cases r.skip <;> rfl
  have hlimit : (r.query target fs clauses).limitParams = [] := by
    show (r.limit.map Pagination.fixed).elim [] Pagination.params = []
    cases r.limit <;> rfl
  have hfilter : (r.query target fs clauses).filterParams = fs.flatMap Filter.params :=
    Filter.params_conjoin
  have hfind : (r.query target fs clauses).params .mongo =
      (r.query target fs clauses).filterParams ++ [] ++
        (r.query target fs clauses).skipParams ++ (r.query target fs clauses).limitParams := rfl
  rw [hparams, hfind, hskip, hlimit, hfilter]
  simp

end Chain

/-! ## What is read -/

theorem render_eq_ok_iff {rendered : Rendered} : r.render c = .ok rendered ↔
    ∃ b, r.build c = .ok b ∧ b.render r.dialect = .ok rendered := by
  simp only [render, bind_eq_ok_iff, liftError_eq_ok_iff]

end FindRequest

section Readings

variable {c : Catalog} {collection : String}

/-- Written filters ask for conditions, one each. -/
theorem exists_asked {filters : List String} {fs : List Filter}
    (h : List.Forall₂ (fun text f => conditionOf c collection text = .ok f) filters fs) :
    ∃ asked, List.Forall₂ (c.Asks collection) filters asked ∧
      List.Forall₂ (fun a f => a.Is collection f) asked fs :=
  exists_forall₂_between (h.imp fun _ _ hf => (conditionOf_eq_ok_iff.mp hf).2)

theorem isCondition_of_asked {asked : List Asked} {fs : List Filter}
    (h : List.Forall₂ (fun a f => a.Is collection f) asked fs) : ∀ f ∈ fs, f.IsCondition := by
  induction h with
  | nil => simp
  | cons hf _ ih =>
    obtain ⟨field, value, rfl, -⟩ := hf
    exact List.forall_mem_cons.mpr ⟨⟨field, _, value, rfl⟩, ih⟩

/-- The parameters that are bound are those that are asked for. -/
theorem params_of_asked {asked : List Asked} {fs : List Filter}
    (h : List.Forall₂ (fun a f => a.Is collection f) asked fs) :
    (fs.flatMap Filter.params).map Param.name = asked.map Asked.param := by
  induction h with
  | nil => rfl
  | cons hf _ ih =>
    obtain ⟨field, value, rfl, -, -, hvalue⟩ := hf
    rw [List.flatMap_cons, List.map_append, ih, List.map_cons, ← hvalue]
    simp [Filter.params]

/-- Written sorts are read as calls that sort. -/
theorem exists_clauses {sorts : List String} {calls : List Call}
    (h : List.Forall₂ (fun text call => sortOf c collection text = .ok call) sorts calls) :
    ∃ clauses : List SortClause, calls = clauses.map SortClause.call := by
  induction h with
  | nil => exact ⟨[], rfl⟩
  | cons hcall _ ih =>
    obtain ⟨-, -, clause, rfl, -⟩ := sortOf_eq_ok_iff.mp hcall
    obtain ⟨clauses, rfl⟩ := ih
    exact ⟨clause :: clauses, rfl⟩

end Readings

namespace FindRequest

variable {r : FindRequest} {c : Catalog}

/-- What is read of a request that is built. -/
theorem exists_of_build {b : Builder} (h : r.build c = .ok b) :
    ∃ (target : Collection) (fs : List Filter) (clauses : List SortClause) (asked : List Asked),
      r.collection ∈ c.collectionNames ∧
      List.Forall₂ (c.Asks r.collection) r.filters asked ∧
      List.Forall₂ (fun a f => a.Is r.collection f) asked fs ∧
      List.Forall₂ (fun text call => sortOf c r.collection text = .ok call) r.sorts
        (clauses.map SortClause.call) ∧
      b = (Builder.start .find target).run (r.calls fs (clauses.map SortClause.call)) := by
  obtain ⟨target, fs, calls, htarget, hfs, hcalls, rfl⟩ := build_eq_ok_iff.mp h
  obtain ⟨clauses, rfl⟩ := exists_clauses hcalls
  obtain ⟨asked, hasks, his⟩ := exists_asked hfs
  exact ⟨target, fs, clauses, asked, (Catalog.collection_eq_ok_iff.mp htarget).2, hasks, his,
    hcalls, rfl⟩

/-- A request is built if it asks for what the catalog of a schema lists. -/
theorem exists_build {s : Schema} (hc : Catalog.ofSchema s = .ok c)
    (hmem : r.collection ∈ c.collectionNames)
    (hfilters : ∀ text ∈ r.filters, ∃ a, c.Asks r.collection text a)
    (hsorts : ∀ text ∈ r.sorts, c.Sorts r.collection text) : ∃ b, r.build c = .ok b := by
  have htarget : c.collection r.collection =
      .ok ⟨r.collection, Catalog.valid_of_mem_collectionNames hc hmem⟩ :=
    Catalog.collection_eq_ok_iff.mpr ⟨rfl, hmem⟩
  obtain ⟨fs, hfs⟩ := (exists_forall₂_iff
    (R := fun text f => conditionOf c r.collection text = .ok f)).mpr fun text htext => by
      obtain ⟨a, ha⟩ := hfilters text htext
      obtain ⟨f, hf⟩ := ha.exists_filter hc hmem
      exact ⟨f, conditionOf_eq_ok_iff.mpr ⟨hmem, a, ha, hf⟩⟩
  obtain ⟨calls, hcalls⟩ := (exists_forall₂_iff
    (R := fun text call => sortOf c r.collection text = .ok call)).mpr fun text htext =>
      (exists_sortOf_iff hc hmem).mpr (hsorts text htext)
  exact ⟨_, build_eq_ok_iff.mpr ⟨_, fs, calls, htarget, hfs, hcalls, rfl⟩⟩

/-- What a request that is rendered asks for is what its query tests and binds, in that order. -/
theorem exists_asked_of_render {b : Builder} {rendered : Rendered} (hb : r.build c = .ok b)
    (hrender : b.render .mongo = .ok rendered) : ∃ q asked, b.build = .ok q ∧
      List.Forall₂ (c.Asks r.collection) r.filters asked ∧
      List.Forall₂ (fun a f => a.Is r.collection f) asked (q.filter.elim [] Filter.leaves) ∧
      rendered.paramNames = asked.map Asked.param := by
  obtain ⟨target, fs, clauses, asked, -, hasks, his, -, rfl⟩ := exists_of_build hb
  have hconditions := isCondition_of_asked his
  obtain ⟨-, -, hlimit⟩ := (run_render_isOk_iff hconditions).mp ⟨rendered, hrender⟩
  rw [run_of_limit_le hlimit] at hrender ⊢
  have hquery := Builder.render_fresh_eq_ok_iff.mp hrender
  obtain ⟨hvalid, -, -⟩ := Query.render_eq_ok_iff.mp hquery
  refine ⟨_, asked, Builder.build_fresh_eq_ok_iff.mpr ⟨hvalid, rfl⟩, hasks, ?leaves, ?params⟩
  case leaves =>
    have hleaves : (Filter.conjoin none fs).elim [] Filter.leaves = fs :=
      Filter.leaves_conjoin.trans (flatMap_leaves hconditions)
    show List.Forall₂ _ asked ((Filter.conjoin none fs).elim [] Filter.leaves)
    rwa [hleaves]
  case params => rw [Rendered.paramNames, params_of_query_render hquery, params_of_asked his]

end FindRequest

open FindRequest in
/-- A find for mongo is rendered exactly if its collection is known, its filters and sorts are
written as they should be, there are not too many of them, and the limit is in range. Then the
conditions of the query from left to right are what the filters ask for, and their parameters are
bound in that order. -/
theorem find_accepted_iff {s : Schema} {c : Catalog} (hc : Catalog.ofSchema s = .ok c)
    {r : FindRequest} (hmongo : r.dialect = .mongo) :
    ((∃ rendered, r.render c = .ok rendered) ↔
      r.collection ∈ c.collectionNames ∧
      (∀ text ∈ r.filters, ∃ a, c.Asks r.collection text a) ∧
      (∀ text ∈ r.sorts, c.Sorts r.collection text) ∧
      r.filters.length ≤ 11 ∧ r.sorts.length ≤ 10 ∧ ∀ n, r.limit = some n → n ≤ 10000) ∧
    ∀ rendered, r.render c = .ok rendered → ∃ b q asked,
      r.build c = .ok b ∧ b.build = .ok q ∧
      List.Forall₂ (c.Asks r.collection) r.filters asked ∧
      List.Forall₂ (fun a f => a.Is r.collection f) asked (q.filter.elim [] Filter.leaves) ∧
      rendered.paramNames = asked.map Asked.param := by
  simp only [FindRequest.render_eq_ok_iff, hmongo]
  constructor
  · constructor
    · intro h
      obtain ⟨rendered, b, hb, hrender⟩ := h
      obtain ⟨target, fs, clauses, asked, hmem, hasks, his, hcalls, rfl⟩ := exists_of_build hb
      obtain ⟨hfilters, hsorts, hlimit⟩ :=
        (run_render_isOk_iff (isCondition_of_asked his)).mp ⟨rendered, hrender⟩
      refine ⟨hmem, exists_forall₂_iff.mp ⟨asked, hasks⟩, fun text htext => ?_, ?_, ?_, hlimit⟩
      · exact (exists_sortOf_iff hc hmem).mp (exists_forall₂_iff.mp ⟨_, hcalls⟩ text htext)
      · rwa [hasks.length_eq, his.length_eq]
      · rwa [hcalls.length_eq, List.length_map]
    · intro h
      obtain ⟨hmem, hfilters, hsorts, hfiltersLength, hsortsLength, hlimit⟩ := h
      obtain ⟨b, hb⟩ := exists_build hc hmem hfilters hsorts
      obtain ⟨target, fs, clauses, asked, -, hasks, his, hcalls, rfl⟩ := exists_of_build hb
      rw [hasks.length_eq, his.length_eq] at hfiltersLength
      rw [hcalls.length_eq, List.length_map] at hsortsLength
      obtain ⟨rendered, hrender⟩ := (run_render_isOk_iff (isCondition_of_asked his)).mpr
        ⟨hfiltersLength, hsortsLength, hlimit⟩
      exact ⟨rendered, _, hb, hrender⟩
  · intro rendered h
    obtain ⟨b, hb, hrender⟩ := h
    obtain ⟨q, asked, hq, hasks, his, hparams⟩ := exists_asked_of_render hb hrender
    exact ⟨b, q, asked, hb, hq, hasks, his, hparams⟩

/-- The noted orders with an article whose name is not below a bound, the last notes first. -/
def FindRequest.notedOrders : FindRequest where
  collection := "orders"
  filters := ["note:EQ:note", "lines.article.name:$gte:least"]
  sorts := ["-note"]
  limit := some 10000
  skip := none
  dialect := .mongo

theorem find_accepted_iff_notedOrders : ∃ c, Catalog.ofSchema Schema.orders = .ok c ∧
    (∃ rendered, FindRequest.notedOrders.render c = .ok rendered ∧
      rendered.paramNames = ["note", "least"]) ∧
    ¬ ∃ rendered, { FindRequest.notedOrders with limit := some 10001 }.render c = .ok rendered := by
  obtain ⟨c, hc⟩ : ∃ c, Catalog.ofSchema Schema.orders = .ok c := ⟨_, rfl⟩
  have hcollection : "orders" ∈ c.collectionNames := by
    rw [Catalog.collectionNames_of_ofSchema hc]
    exact List.mem_cons_self
  have hnote : "note" ∈ c.fieldPaths "orders" :=
    (Catalog.mem_fieldPaths_iff hc).mpr ⟨["note"], _, ⟨_, List.mem_cons_self, rfl,
      .here (List.mem_cons_of_mem _ List.mem_cons_self)⟩, rfl⟩
  have hname : "lines.article.name" ∈ c.fieldPaths "orders" :=
    (Catalog.mem_fieldPaths_iff hc).mpr ⟨["lines", "article", "name"], _, ⟨_, List.mem_cons_self,
      rfl, .child List.mem_cons_self (.child (d := Schema.article) List.mem_cons_self
        (.here List.mem_cons_self))⟩, rfl⟩
  have hasksNote : c.Asks "orders" "note:EQ:note" ⟨"note", .eq, "note"⟩ :=
    ⟨⟨"EQ", rfl, by decide, by decide, by decide⟩, hnote, by decide⟩
  have hasksName : c.Asks "orders" "lines.article.name:$gte:least"
      ⟨"lines.article.name", .gte, "least"⟩ :=
    ⟨⟨"$gte", rfl, by decide, by decide, by decide⟩, hname, by decide⟩
  obtain ⟨haccepted, hgives⟩ := find_accepted_iff hc (r := FindRequest.notedOrders) rfl
  obtain ⟨rendered, hrendered⟩ := haccepted.mpr ⟨hcollection, by
      simpa [FindRequest.notedOrders] using ⟨⟨_, hasksNote⟩, _, hasksName⟩, by
      simpa [FindRequest.notedOrders] using ⟨"note", hnote, .inr rfl⟩, by decide, by decide, by
      simp [FindRequest.notedOrders]⟩
  refine ⟨c, hc, ⟨rendered, hrendered, ?_⟩, fun h => ?_⟩
  · obtain ⟨-, -, asked, -, -, hasked, -, hparams⟩ := hgives rendered hrendered
    cases hasked with
    | cons hfirst hrest =>
      cases hrest with
      | cons hsecond hnil =>
        cases hnil
        rw [hparams, hfirst.unique hasksNote, hsecond.unique hasksName]
        rfl
  · obtain ⟨-, -, -, -, -, hlimit⟩ := (find_accepted_iff hc rfl).1.mp h
    exact absurd (hlimit 10001 rfl) (by decide)

end DocumentQuery

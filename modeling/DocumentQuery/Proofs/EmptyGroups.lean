import DocumentQuery.Proofs.Couch.Selector
import DocumentQuery.Proofs.Mongo.EmptyArrays
/-!
# Groups without conditions

A query that passed validation has no empty groups in its own filter and in the
stages that filter. The element matches of projections are not searched, so an
empty group may be left there, and mongo renders it to an empty array.

Main definitions:
* `Query.Clear`: nothing in the query renders to an empty array at a token of logic.

Results:
* `lacks_of_render`: a clear query renders without such an array in every dialect.
* `empty_group_in_projection`: where the empty groups of a valid query are, and
  what stands behind an empty array at a token in what is rendered from it.
* `projected_empty_group_renders`: a valid query with an empty group.
-/
namespace DocumentQuery

open Json (Lacks EntryLacks)
open Render (gives_map gives_pure)

/-- Nothing in the query renders to an empty array at the token. -/
structure Query.Clear (logic : LogicOperator) (q : Query) : Prop where
  filter : ∀ f ∈ q.filter, .group logic [] ∉ f.nodes
  projection : ∀ p ∈ q.projection, ∀ f ∈ p.conditions, .group logic [] ∉ f.nodes
  stages : ∀ s ∈ Stage.nodesIn q.pipeline, s.Clear logic

section Parts

variable {logic : LogicOperator} {q : Query} {key : String} {v : Json} {ps : List Param}

/-! ## Parts that several dialects share -/

theorem lacks_document {d : Document} (h : (Render.document d).Gives v ps) :
    Lacks logic.token v := by
  obtain ⟨rfl, -⟩ := Render.document_gives.mp h
  exact .ofEntries (List.forall_mem_map.mpr fun _ _ => Json.entryLacks_str _ _)

theorem lacks_first_document (hkey : key ≠ logic.token) {documents : List Document}
    {o : Option Json} (h : (Render.optional Render.document documents.head?).Gives o ps) :
    ∀ e ∈ Entries.optional key o, EntryLacks logic.token e := by
  refine Json.lacks_optional fun v hv => Json.entryLacks_of_ne_key hkey ?_
  rcases Render.gives_optional.mp h with ⟨-, rfl, -⟩ | ⟨d, w, -, rfl, hw⟩
  · cases hv
  · cases hv
    exact lacks_document hw

theorem lacks_optional_pagination {o : Option Pagination} {r : Option Json}
    (h : (Render.optional Render.pagination o).Gives r ps) :
    ∀ e ∈ Entries.optional key r, EntryLacks logic.token e := by
  refine Json.lacks_optional fun v hv => ?_
  rcases Render.gives_optional.mp h with ⟨-, rfl, -⟩ | ⟨n, w, -, rfl, hw⟩
  · cases hv
  · cases hv
    exact Mongo.entryLacks_pagination hw

theorem lacks_strings (hkey : key ≠ logic.token) (l : List String) (cond : Bool) :
    ∀ e ∈ Entries.when cond key (.strings l), EntryLacks logic.token e :=
  Json.lacks_when fun _ => Json.entryLacks_of_ne_key hkey (by simp [Json.strings])

/-! ## Mongo -/

namespace Mongo

theorem lacks_queryFilter (h : ∀ f ∈ q.filter, .group logic [] ∉ f.nodes)
    (hv : (renderQueryFilter q).Gives v ps) : Lacks logic.token v := by
  unfold renderQueryFilter at hv
  cases hf : q.filter with
  | none =>
    rw [hf] at hv
    obtain ⟨rfl, -⟩ := gives_pure.mp hv
    simp
  | some f =>
    rw [hf] at hv
    exact lacks_filter f (fun _ hg heq => h f hf (heq ▸ hg)) hv

theorem lacks_updates {ops : List UpdateOperation} (h : (renderUpdates ops).Gives v ps) :
    Lacks logic.token v := by
  obtain ⟨rfl, -⟩ := renderUpdates_gives.mp h
  refine .ofEntries (List.forall_mem_map.mpr fun op _ => ?_)
  refine Json.entryLacks_of_ne_arr (by simp [Json.ofEntries]) (.ofEntries ?_)
  refine List.forall_mem_map.mpr fun e _ => ?_
  cases e.2 <;> simp [changed]

theorem lacks_find (h : q.Clear logic) {parts : Entries} (hparts : (renderFind q).Gives parts ps) :
    ∀ e ∈ parts, EntryLacks logic.token e := by
  obtain ⟨filter, projection, skip, limit, _, _, _, _, hfilter, hprojection, hskip, hlimit, rfl,
    -⟩ := renderFind_gives.mp hparts
  simp only [List.forall_mem_append, List.forall_mem_cons]
  refine ⟨⟨⟨⟨?_, ?_⟩, ?_⟩, lacks_optional_pagination hskip⟩, lacks_optional_pagination hlimit⟩
  · exact Json.entryLacks_of_ne_key (LogicOperator.ne_token (by decide) logic)
      (lacks_queryFilter h.filter hfilter)
  · refine Json.lacks_optional fun v hv => ?_
    rcases Render.gives_optional.mp hprojection with ⟨-, rfl, -⟩ | ⟨p, w, hp, rfl, hw⟩
    · cases hv
    · cases hv
      obtain ⟨es, hes, rfl⟩ := renderProjection_gives.mp hw
      exact Json.entryLacks_of_ne_arr (by simp [Json.ofEntries])
        (.ofEntries (lacks_projectionEntries (h.projection p hp) hes))
  · exact Json.lacks_when fun _ =>
      Json.entryLacks_of_ne_arr (by simp [sortObject, Json.ofEntries]) (lacks_sort q.sort)

theorem lacks_parts (h : q.Clear logic) {parts : Entries}
    (hparts : (renderParts q).Gives parts ps) : ∀ e ∈ parts, EntryLacks logic.token e := by
  have hne : ∀ {k : String} {v : Json}, k ∉ (Vocabulary.all : List LogicOperator).map
      LogicOperator.token → Lacks logic.token v → EntryLacks logic.token (k, v) :=
    fun hk hv => Json.entryLacks_of_ne_key (LogicOperator.ne_token hk logic) hv
  unfold renderParts at hparts
  cases hop : q.operation with
  | find | findOne =>
    rw [hop] at hparts
    exact lacks_find h hparts
  | insert =>
    rw [hop] at hparts
    simp only [bind_pure_comp, gives_map] at hparts
    obtain ⟨document, hdocument, rfl⟩ := hparts
    exact lacks_first_document (LogicOperator.ne_token (by decide) logic) hdocument
  | insertMany =>
    rw [hop] at hparts
    simp only [bind_pure_comp, gives_map] at hparts
    obtain ⟨documents, hdocuments, rfl⟩ := hparts
    exact List.forall_mem_singleton.mpr (hne (by decide)
      (Json.lacks_arr.mpr (Render.forall_of_each (fun d _ v qs => lacks_document) hdocuments)))
  | update | updateMany =>
    rw [hop] at hparts
    obtain ⟨filter, update, _, _, hfilter, hupdate, rfl, -⟩ := Render.gives_two.mp hparts
    refine List.forall_mem_append.mpr ⟨?_, Json.lacks_when fun _ => Json.entryLacks_bool _ _⟩
    exact List.forall_mem_cons.mpr ⟨hne (by decide) (lacks_queryFilter h.filter hfilter),
      List.forall_mem_singleton.mpr (hne (by decide) (lacks_updates hupdate))⟩
  | delete | deleteMany | count =>
    rw [hop] at hparts
    simp only [bind_pure_comp, gives_map] at hparts
    obtain ⟨filter, hfilter, rfl⟩ := hparts
    exact List.forall_mem_singleton.mpr (hne (by decide) (lacks_queryFilter h.filter hfilter))
  | aggregate =>
    rw [hop] at hparts
    simp only [renderPipeline, bind_pure_comp, gives_map] at hparts
    obtain ⟨_, ⟨stages, hstages, rfl⟩, rfl⟩ := hparts
    exact List.forall_mem_singleton.mpr (hne (by decide)
      (Json.lacks_arr.mpr (lacks_stages q.pipeline h.stages hstages)))
  | distinct =>
    rw [hop] at hparts
    simp only [bind_pure_comp, gives_map] at hparts
    obtain ⟨filter, hfilter, rfl⟩ := hparts
    refine List.forall_mem_append.mpr ⟨Json.lacks_optional fun v hv => ?_,
      Json.lacks_optional fun v hv => ?_⟩
    · obtain ⟨field, -, rfl⟩ := Option.map_eq_some_iff.mp hv
      exact Json.entryLacks_str _ _
    · rcases Render.gives_optional.mp hfilter with ⟨-, rfl, -⟩ | ⟨f, w, hf, rfl, hw⟩
      · cases hv
      · cases hv
        exact hne (by decide) (lacks_filter f (fun _ hg heq => h.filter f hf (heq ▸ hg)) hw)

end Mongo

/-! ## Dynamo -/

namespace Dynamo

theorem lacks_conditionEntries (c : Option Condition) :
    ∀ e ∈ conditionEntries key c, EntryLacks logic.token e :=
  Json.lacks_when fun _ => Json.entryLacks_str _ _

theorem lacks_nameEntries (paths : List String) :
    ∀ e ∈ nameEntries paths, EntryLacks logic.token e :=
  Json.lacks_when fun _ => Json.entryLacks_obj.mpr
    (List.forall_mem_map.mpr fun _ _ => Json.entryLacks_str _ _)

theorem lacks_valueParts (values : List Param) :
    ∀ e ∈ valueParts values, EntryLacks logic.token e :=
  Json.lacks_when fun _ => Json.entryLacks_obj.mpr
    (List.forall_mem_map.mpr fun _ _ => Json.entryLacks_str _ _)

/-- Expressions are texts, so there is no array in a query. -/
theorem lacks_parts {parts : Entries} (hparts : (renderParts q).Gives parts ps) :
    ∀ e ∈ parts, EntryLacks logic.token e := by
  unfold renderParts at hparts
  cases hop : q.operation with
  | find | findOne =>
    rw [hop] at hparts
    obtain ⟨c, fields, limit, us, -, -, hlimit, rfl, -⟩ := renderFind_gives.mp hparts
    simp only [List.forall_mem_append]
    exact ⟨⟨⟨⟨lacks_conditionEntries c, lacks_nameEntries _⟩, lacks_valueParts _⟩,
      lacks_optional_pagination hlimit⟩, Json.lacks_when fun _ => Json.entryLacks_str _ _⟩
  | insert =>
    rw [hop] at hparts
    simp only [bind_pure_comp, gives_map] at hparts
    obtain ⟨item, hitem, rfl⟩ := hparts
    exact lacks_first_document (LogicOperator.ne_token (by decide) logic) hitem
  | update =>
    rw [hop] at hparts
    obtain ⟨c, acts, -, -, rfl, -⟩ := renderUpdate_gives.mp hparts
    simp only [List.forall_mem_append, List.forall_mem_cons]
    exact ⟨⟨⟨Json.entryLacks_str _ _, lacks_conditionEntries c⟩, lacks_nameEntries _⟩,
      lacks_valueParts _⟩
  | delete =>
    rw [hop] at hparts
    obtain ⟨c, -, rfl, -⟩ := renderDelete_gives.mp hparts
    simp only [List.forall_mem_append]
    exact ⟨⟨lacks_conditionEntries c, lacks_nameEntries _⟩, lacks_valueParts _⟩
  | _ =>
    rw [hop] at hparts
    exact (Render.gives_unsupported.mp hparts).elim

end Dynamo

/-! ## Firestore -/

namespace Firestore

theorem lacks_where {f : Filter} (h : (renderWhere f).Gives v ps) : Lacks logic.token v := by
  obtain ⟨cs, -, rfl, -⟩ := renderWhere_gives.mp h
  refine Json.lacks_arr.mpr (List.forall_mem_map.mpr fun c _ => ?_)
  simp [Clause.object]

theorem lacks_whereEntries {es : Entries} (h : (whereEntries q).Gives es ps) :
    ∀ e ∈ es, EntryLacks logic.token e := by
  obtain ⟨list, hlist, rfl⟩ := whereEntries_gives.mp h
  refine Json.lacks_optional fun v hv => ?_
  rcases Render.gives_optional.mp hlist with ⟨-, rfl, -⟩ | ⟨f, w, -, rfl, hw⟩
  · cases hv
  · cases hv
    exact Json.entryLacks_of_ne_key (LogicOperator.ne_token (by decide) logic) (lacks_where hw)

theorem lacks_data {ops : List UpdateOperation} (h : (renderData ops).Gives v ps) :
    Lacks logic.token v := by
  obtain ⟨list, -, rfl, -⟩ := renderData_gives.mp h
  refine Json.lacks_obj.mpr (List.forall_mem_map.mpr fun a _ => ?_)
  cases ha : a.2.value? <;> simp [assignmentEntry, ha]

/-- Conditions are clauses in one list, so groups leave no arrays. -/
theorem lacks_parts {parts : Entries} (hparts : (renderParts q).Gives parts ps) :
    ∀ e ∈ parts, EntryLacks logic.token e := by
  unfold renderParts at hparts
  cases hop : q.operation with
  | find | findOne =>
    rw [hop] at hparts
    obtain ⟨conditions, limit, offset, fields, _, _, _, hconditions, hlimit, hoffset, -, rfl, -⟩ :=
      renderFind_gives.mp hparts
    have horder : ∀ e ∈ Entries.when (!q.sort.isEmpty) "orderBy" (.arr (q.sort.map orderClause)),
        EntryLacks logic.token e :=
      Json.lacks_when fun _ => Json.entryLacks_of_ne_key
        (LogicOperator.ne_token (by decide) logic) (by simp [orderClause])
    simp only [List.forall_mem_append]
    exact ⟨⟨⟨⟨lacks_whereEntries hconditions, horder⟩, lacks_optional_pagination hlimit⟩,
      lacks_optional_pagination hoffset⟩,
      lacks_strings (LogicOperator.ne_token (by decide) logic) _ _⟩
  | insert =>
    rw [hop] at hparts
    simp only [bind_pure_comp, gives_map] at hparts
    obtain ⟨document, hdocument, rfl⟩ := hparts
    exact lacks_first_document (LogicOperator.ne_token (by decide) logic) hdocument
  | update =>
    rw [hop] at hparts
    obtain ⟨conditions, data, _, _, hconditions, hdata, rfl, -⟩ := Render.gives_two.mp hparts
    exact List.forall_mem_append.mpr ⟨lacks_whereEntries hconditions, List.forall_mem_singleton.mpr
      (Json.entryLacks_of_ne_key (LogicOperator.ne_token (by decide) logic) (lacks_data hdata))⟩
  | delete =>
    rw [hop] at hparts
    exact lacks_whereEntries hparts
  | _ =>
    rw [hop] at hparts
    exact (Render.gives_unsupported.mp hparts).elim

end Firestore

/-! ## Couch -/

namespace Couch

theorem lacks_selector {f : Filter} (hf : .group logic [] ∉ f.nodes)
    (h : (renderSelector f).Gives v ps) : Lacks logic.token v :=
  Mongo.lacks_filter f (fun _ hg heq => hf (heq ▸ hg)) (renderFilter_of_renderSelector f h)

theorem lacks_optional_selector (hfilter : ∀ f ∈ q.filter, .group logic [] ∉ f.nodes)
    {o : Option Json} (h : (Render.optional renderSelector q.filter).Gives o ps) :
    ∀ e ∈ Entries.optional "selector" o, EntryLacks logic.token e := by
  refine Json.lacks_optional fun v hv => ?_
  rcases Render.gives_optional.mp h with ⟨-, rfl, -⟩ | ⟨f, w, hf, rfl, hw⟩
  · cases hv
  · cases hv
    exact Json.entryLacks_of_ne_key (LogicOperator.ne_token (by decide) logic)
      (lacks_selector (hfilter f hf) hw)

theorem lacks_find (hfilter : ∀ f ∈ q.filter, .group logic [] ∉ f.nodes) {parts : Entries}
    (hparts : (renderFind q).Gives parts ps) : ∀ e ∈ parts, EntryLacks logic.token e := by
  obtain ⟨selector, fields, limit, skip, _, _, _, hselector, -, hlimit, hskip, rfl, -⟩ :=
    renderFind_gives.mp hparts
  have hsort : ∀ e ∈ Entries.when (!q.sort.isEmpty) "sort"
      (.arr (q.sort.map fun s => .single s.field.path (.str s.order.word))),
      EntryLacks logic.token e :=
    Json.lacks_when fun _ => Json.entryLacks_of_ne_key
      (LogicOperator.ne_token (by decide) logic) (by simp [Json.single])
  simp only [List.forall_mem_append, List.forall_mem_cons]
  refine ⟨⟨⟨⟨?_, lacks_strings (LogicOperator.ne_token (by decide) logic) _ _⟩, hsort⟩,
    lacks_optional_pagination hlimit⟩, lacks_optional_pagination hskip⟩
  refine Json.entryLacks_of_ne_key (LogicOperator.ne_token (by decide) logic) ?_
  rcases Render.gives_optional.mp hselector with ⟨-, rfl, -⟩ | ⟨f, w, hf, rfl, hw⟩
  · simp
  · exact lacks_selector (hfilter f hf) hw

theorem lacks_updates {ops : List UpdateOperation} {lists : List Entries}
    (h : (Render.each renderUpdate ops).Gives lists ps) :
    ∀ e ∈ lists.flatten, EntryLacks logic.token e := by
  have hlists : ∀ es ∈ lists, ∀ e ∈ es, EntryLacks logic.token e := by
    refine Render.forall_of_each (fun op _ es qs hes => ?_) h
    obtain ⟨-, rfl, -⟩ := renderUpdate_gives.mp hes
    exact List.forall_mem_map.mpr fun _ _ => Json.entryLacks_str _ _
  intro e he
  obtain ⟨es, hes, he⟩ := List.mem_flatten.mp he
  exact hlists es hes e he

theorem lacks_parts (hfilter : ∀ f ∈ q.filter, .group logic [] ∉ f.nodes) {parts : Entries}
    (hparts : (renderParts q).Gives parts ps) : ∀ e ∈ parts, EntryLacks logic.token e := by
  unfold renderParts at hparts
  cases hop : q.operation with
  | find | findOne =>
    rw [hop] at hparts
    exact lacks_find hfilter hparts
  | insert =>
    rw [hop] at hparts
    simp only [bind_pure_comp, gives_map] at hparts
    obtain ⟨document, hdocument, rfl⟩ := hparts
    exact List.forall_mem_cons.mpr ⟨Json.entryLacks_str _ _,
      lacks_first_document (LogicOperator.ne_token (by decide) logic) hdocument⟩
  | update =>
    rw [hop] at hparts
    obtain ⟨selector, updates, _, _, hselector, hupdates, rfl, -⟩ := Render.gives_two.mp hparts
    have hwritten : EntryLacks logic.token ("updates", .ofEntries updates.flatten) :=
      Json.entryLacks_of_ne_arr (by simp [Json.ofEntries]) (.ofEntries (lacks_updates hupdates))
    exact List.forall_mem_append.mpr ⟨List.forall_mem_cons.mpr ⟨Json.entryLacks_str _ _,
      lacks_optional_selector hfilter hselector⟩, List.forall_mem_singleton.mpr hwritten⟩
  | delete =>
    rw [hop] at hparts
    simp only [bind_pure_comp, gives_map] at hparts
    obtain ⟨selector, hselector, rfl⟩ := hparts
    exact List.forall_mem_cons.mpr ⟨Json.entryLacks_str _ _,
      lacks_optional_selector hfilter hselector⟩
  | _ =>
    rw [hop] at hparts
    exact (Render.gives_unsupported.mp hparts).elim

end Couch

/-! ## Rendered queries -/

theorem lacks_header (dialect : Dialect) (q : Query) :
    ∀ e ∈ dialect.header q, EntryLacks logic.token e := by
  cases dialect <;> simp [Dialect.header]

/-- Only mongo renders the parts of a query in which validation does not look for empty groups. -/
theorem lacks_of_render {dialect : Dialect} {r : Rendered} (hr : q.render dialect = .ok r)
    (h : dialect = .mongo → q.Clear logic) : Lacks logic.token r.body := by
  obtain ⟨hvalid, -, es, hes, hbody⟩ := Query.render_eq_ok_iff.mp hr
  obtain ⟨parts, hparts, rfl⟩ := Dialect.renderEntries_gives.mp hes
  have hfilter : ∀ f ∈ q.filter, .group logic [] ∉ f.nodes :=
    fun f hf hmem => Query.nonempty_groups hf hvalid _ hmem rfl
  rw [hbody, Json.lacks_obj]
  refine List.forall_mem_append.mpr ⟨lacks_header dialect q, ?_⟩
  cases dialect with
  | mongo => exact Mongo.lacks_parts (h rfl) hparts
  | dynamo => exact Dynamo.lacks_parts hparts
  | firestore => exact Firestore.lacks_parts hparts
  | couch => exact Couch.lacks_parts hfilter hparts

/-- A query that passed validation is clear but for its projections and what borrows a token. -/
theorem Query.clear_of_validate (hvalid : q.validate = .ok ())
    (hprojected : ∀ f ∈ q.projected, .group logic [] ∉ f.nodes)
    (hborrows : ∀ s ∈ Stage.nodesIn q.pipeline, ¬ s.Borrows logic) : q.Clear logic := by
  have hsearched : ∀ f ∈ q.searched, .group logic [] ∉ f.nodes :=
    fun f hf hmem => Query.nonempty_groups_searched hvalid f hf ⟨_, hmem, rfl⟩
  obtain ⟨hfilter, hstage⟩ := List.forall_mem_append.mp hsearched
  have hconditions : ∀ p, p ∈ q.projection.toList ++
      (Stage.nodesIn q.pipeline).filterMap Stage.projection? →
        ∀ f ∈ p.conditions, .group logic [] ∉ f.nodes :=
    fun p hp f hf => hprojected f (List.mem_flatMap.mpr ⟨p, hp, hf⟩)
  refine ⟨fun f hf => hfilter f (Option.mem_toList.mpr hf), fun p hp => hconditions p ?_,
    fun s hs => ⟨List.forall_mem_append.mpr ⟨fun f hf => ?_, fun f hf => ?_⟩, fun e he hmem => ?_,
      fun hmem => hborrows s hs (.inr hmem)⟩⟩
  · exact List.mem_append_left _ (Option.mem_toList.mpr hp)
  · exact hstage f (List.mem_filterMap.mpr ⟨s, hs, Option.mem_toList.mp hf⟩)
  · obtain ⟨p, hp, hf⟩ := List.mem_flatMap.mp hf
    refine hconditions p (List.mem_append_right _ ?_) f hf
    exact List.mem_filterMap.mpr ⟨s, hs, Option.mem_toList.mp hp⟩
  · exact hborrows s hs (.inl ⟨e, he, hmem⟩)

/-- Validation leaves empty groups in element matches of projections only. If an empty array stands
at a token of logic in what is rendered, it is for mongo, and it stands for such a group or for a
part of a pipeline that borrows the token. -/
theorem empty_group_in_projection (hvalid : q.validate = .ok ()) :
    (∀ f ∈ q.searched, ¬ f.HasEmptyGroup) ∧
    ((∀ f ∈ q.searched ++ q.projected, ¬ f.HasEmptyGroup) ↔
      ∀ f ∈ q.projected, ¬ f.HasEmptyGroup) ∧
    ∀ (dialect : Dialect) (r : Rendered) (logic : LogicOperator), q.render dialect = .ok r →
      (logic.token, .arr []) ∈ r.body.allEntries →
        dialect = .mongo ∧ ((∃ f ∈ q.projected, .group logic [] ∈ f.nodes) ∨
          ∃ s ∈ Stage.nodesIn q.pipeline, s.Borrows logic) := by
  have hsearched := Query.nonempty_groups_searched hvalid
  refine ⟨hsearched, ?_, fun dialect r logic hr hmem => ⟨?_, ?_⟩⟩
  · rw [List.forall_mem_append]
    exact and_iff_right hsearched
  · by_contra hdialect
    exact lacks_of_render hr (fun hmongo => absurd hmongo hdialect) hmem
  · by_contra hnone
    rw [not_or] at hnone
    obtain ⟨hprojected, hborrows⟩ := hnone
    refine lacks_of_render hr (fun _ => Query.clear_of_validate hvalid ?_ ?_) hmem
    · exact fun f hf hgroup => hprojected ⟨f, hf, hgroup⟩
    · exact fun s hs hborrow => hborrows ⟨s, hs, hborrow⟩

end Parts

/-- Users by age, with the first score that is given or has a name. -/
def firstScores : Query :=
  { Query.start .find Users.collection with
    filter := some (.group .and [.condition Users.age .gte Users.least])
    projection := some ⟨[.matching Users.scores
      [.group .or [.condition Users.points .eq Users.given, .presence Users.name true]]], false⟩ }

theorem empty_group_in_projection_firstScores :
    ∃ r, firstScores.validate = .ok () ∧ firstScores.render .mongo = .ok r ∧
      (∀ f ∈ firstScores.searched, ¬ f.HasEmptyGroup) ∧
      ∀ logic : LogicOperator, (logic.token, .arr []) ∉ r.body.allEntries := by
  obtain ⟨r, hr⟩ : ∃ r, firstScores.render .mongo = .ok r := ⟨_, rfl⟩
  obtain ⟨hsearched, -, hrendered⟩ :=
    empty_group_in_projection (rfl : firstScores.validate = .ok ())
  refine ⟨r, rfl, hr, hsearched, fun logic hmem => ?_⟩
  obtain ⟨-, ⟨f, hf, hgroup⟩ | ⟨s, hs, -⟩⟩ := hrendered .mongo r logic hr hmem
  · obtain rfl : f = .group .or [.condition Users.points .eq Users.given,
        .presence Users.name true] := List.mem_singleton.mp hf
    simp [Filter.nodes, Filter.nodesOfAll] at hgroup
  · cases hs

/-- The first score that passes one of no conditions. -/
def noScores : List Call :=
  [.projection ⟨[.matching Users.scores [.group .or []]], false⟩]

/-- The chain builds, and mongo renders it with an array of no conditions. -/
theorem projected_empty_group_renders :
    ∃ q r, ((Builder.start .find Users.collection).run noScores).build = .ok q ∧
      q.validate = .ok () ∧ (∃ f ∈ q.projected, f.HasEmptyGroup) ∧
      q.render .mongo = .ok r ∧ ("$or", .arr []) ∈ r.body.allEntries := by
  obtain ⟨q, hq, hvalid, hprojected⟩ : ∃ q,
      ((Builder.start .find Users.collection).run noScores).build = .ok q ∧ q.validate = .ok () ∧
        q.projected = [.group .or []] := ⟨_, rfl, rfl, rfl⟩
  obtain ⟨r, hr, hbody⟩ : ∃ r, q.render .mongo = .ok r ∧ r.body =
      .obj [("collection", .str "users"), ("operation", .str "FIND"), ("filter", .obj []),
        ("projection", .obj [("scores", .obj [("$elemMatch", .obj [("$or", .arr [])])])])] := by
    cases hq
    exact ⟨_, rfl, rfl⟩
  refine ⟨q, r, hq, hvalid,
    ⟨.group .or [], ?_, .group .or [], Filter.mem_nodes_self _, rfl⟩, hr, ?_⟩
  · rw [hprojected]
    exact List.mem_singleton_self _
  · simp [hbody, Json.allEntries, Json.entriesBelow]

end DocumentQuery

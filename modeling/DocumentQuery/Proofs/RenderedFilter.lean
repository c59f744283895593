import DocumentQuery.Proofs.Chain
import DocumentQuery.Proofs.Dynamo.Meaning
import DocumentQuery.Proofs.Entries
import DocumentQuery.Proofs.QueryParts
import DocumentQuery.Proofs.RenderedQuery
/-!
# Where the filter of a query goes

Eight of the eleven operations take a filter. For those, the rendered object
carries it under one key, which depends on the dialect, and its parameters are
bound first. The other three, which insert or aggregate, leave a filter out.

Main definitions:
* `Operation.takesFilter`: the operations that take a filter.
* `Dialect.filterKey`, `Dialect.renderFilter`: the key, and what stands there.
* `Carries`: a rendered query has the filter in it.

Results:
* `carries_of_render`: a rendered query has its filter in it if its operation
  takes one.
* `render_withFilter_none`: for the other operations, the filter makes no
  difference.
-/
namespace DocumentQuery

open Entries (get?)
open Render (gives_bind gives_pure gives_map)

/-- Whether the operation takes a filter. -/
def Operation.takesFilter : Operation → Bool
  | .insert | .insertMany | .aggregate => false
  | _ => true

namespace Dialect

/-- The key of the filter in a rendered query. -/
def filterKey : Dialect → Operation → String
  | .mongo, _ => "filter"
  | .dynamo, .find | .dynamo, .findOne => "FilterExpression"
  | .dynamo, _ => "ConditionExpression"
  | .firestore, _ => "where"
  | .couch, _ => "selector"

/-- What stands at the key of the filter, with the parameters of the filter. -/
def renderFilter : Dialect → Filter → Render Json
  | .mongo, f => Mongo.renderFilter f
  | .dynamo, f => do
    let c ← Render.ofExcept (Dynamo.condition f)
    let _ ← Render.each Render.placeholder c.values
    pure (.str (c.text 0 0))
  | .firestore, f => Firestore.renderWhere f
  | .couch, f => Couch.renderSelector f

end Dialect

/-- The rendered query has the filter in it: the rendered filter stands at its key, its parameters
are bound before all others, and its aliases, where there are any, are resolved. -/
structure Carries (dialect : Dialect) (operation : Operation) (f : Filter) (r : Rendered) :
    Prop where
  rendered : ∃ v ps, (dialect.renderFilter f).Gives v ps ∧
    get? (dialect.filterKey operation) r.entries = some v ∧ ps <+: r.params
  aliases : dialect = .dynamo → ∃ c, Dynamo.condition f = .ok c ∧
    (Dynamo.Aliases.of r.entries).HasPaths 0 c.paths ∧
    (Dynamo.Aliases.of r.entries).HasParams 0 c.values

/-! ## Mongo -/

namespace Mongo

theorem get?_filter {q : Query} {f : Filter} {parts : Entries} {ps : List Param}
    (hf : q.filter = some f) (hop : q.operation.takesFilter = true)
    (h : (renderParts q).Gives parts ps) :
    ∃ v qs, (renderFilter f).Gives v qs ∧ get? "filter" parts = some v ∧ qs <+: ps := by
  have hfilter : renderQueryFilter q = renderFilter f := by rw [renderQueryFilter, hf]
  cases hq : q.operation with
  | find | findOne =>
    rw [renderParts, hq] at h
    obtain ⟨v, _, _, _, qs, rs, _, _, hv, -, -, -, rfl, rfl⟩ := renderFind_gives.mp h
    rw [hfilter] at hv
    exact ⟨v, qs, hv, Entries.get?_cons_self _ _ _, List.prefix_append qs _⟩
  | update | updateMany =>
    rw [renderParts, hq] at h
    obtain ⟨v, qs, rs, hv, h, hprefix⟩ := h.first
    rw [hfilter] at hv
    refine ⟨v, qs, hv, ?_, hprefix⟩
    simp only [gives_bind, gives_pure] at h
    obtain ⟨_, _, _, -, ⟨rfl, -⟩, -⟩ := h
    exact Entries.get?_cons_self _ _ _
  | delete | deleteMany | count =>
    rw [renderParts, hq] at h
    obtain ⟨v, qs, rs, hv, h, hprefix⟩ := h.first
    rw [hfilter] at hv
    obtain ⟨rfl, -⟩ := gives_pure.mp h
    exact ⟨v, qs, hv, Entries.get?_cons_self _ _ _, hprefix⟩
  | distinct =>
    rw [renderParts, hq, hf] at h
    obtain ⟨o, qs, rs, ho, h, hprefix⟩ := h.first
    obtain ⟨v, rfl, hv⟩ := Render.gives_optional_some.mp ho
    obtain ⟨rfl, -⟩ := gives_pure.mp h
    refine ⟨v, qs, hv, ?_, hprefix⟩
    rw [Entries.get?_append, Entries.get?_optional_of_ne (by decide), Option.none_or,
      Entries.get?_optional_self]
  | insert | insertMany | aggregate =>
    rw [hq] at hop
    cases hop

end Mongo

/-! ## Firestore -/

namespace Firestore

theorem succeeds_iff_clauses {f : Filter} :
    (Dialect.firestore.renderFilter f).Succeeds ↔ ∃ cs, clauses f = .ok cs := by
  constructor
  · intro h
    obtain ⟨v, ps, hv⟩ := h
    obtain ⟨cs, hcs, -⟩ := renderWhere_gives.mp hv
    exact ⟨cs, hcs⟩
  · intro h
    obtain ⟨cs, hcs⟩ := h
    exact ⟨_, _, renderWhere_gives.mpr ⟨cs, hcs, rfl, rfl⟩⟩

theorem where_of_gives {q : Query} {f : Filter} (hf : q.filter = some f) {es : Entries}
    {ps : List Param} (h : (whereEntries q).Gives es ps) :
    ∃ v, (renderWhere f).Gives v ps ∧ es = [("where", v)] := by
  obtain ⟨list, hlist, rfl⟩ := whereEntries_gives.mp h
  rw [hf] at hlist
  obtain ⟨v, rfl, hv⟩ := Render.gives_optional_some.mp hlist
  exact ⟨v, hv, rfl⟩

theorem get?_where {q : Query} {f : Filter} {parts : Entries} {ps : List Param}
    (hf : q.filter = some f) (hop : q.operation.takesFilter = true)
    (h : (renderParts q).Gives parts ps) :
    ∃ v qs, (renderWhere f).Gives v qs ∧ get? "where" parts = some v ∧ qs <+: ps := by
  cases hq : q.operation with
  | find | findOne =>
    rw [renderParts, hq] at h
    obtain ⟨_, _, _, _, qs, rs, _, hwhere, -, -, -, rfl, rfl⟩ := renderFind_gives.mp h
    obtain ⟨v, hv, rfl⟩ := where_of_gives hf hwhere
    exact ⟨v, qs, hv, Entries.get?_cons_self _ _ _, List.prefix_append qs _⟩
  | update =>
    rw [renderParts, hq] at h
    obtain ⟨_, qs, rs, hwhere, h, hprefix⟩ := h.first
    obtain ⟨v, hv, rfl⟩ := where_of_gives hf hwhere
    simp only [gives_bind, gives_pure] at h
    obtain ⟨_, _, _, -, ⟨rfl, -⟩, -⟩ := h
    exact ⟨v, qs, hv, Entries.get?_cons_self _ _ _, hprefix⟩
  | delete =>
    rw [renderParts, hq] at h
    obtain ⟨v, hv, rfl⟩ := where_of_gives hf h
    exact ⟨v, ps, hv, Entries.get?_cons_self _ _ _, List.prefix_refl ps⟩
  | updateMany | deleteMany | count | distinct =>
    rw [renderParts, hq] at h
    exact (Render.gives_unsupported.mp h).elim
  | insert | insertMany | aggregate =>
    rw [hq] at hop
    cases hop

end Firestore

/-! ## Couch -/

namespace Couch

theorem get?_selector {q : Query} {f : Filter} {parts : Entries} {ps : List Param}
    (hf : q.filter = some f) (hop : q.operation.takesFilter = true)
    (h : (renderParts q).Gives parts ps) :
    ∃ v qs, (renderSelector f).Gives v qs ∧ get? "selector" parts = some v ∧ qs <+: ps := by
  cases hq : q.operation with
  | find | findOne =>
    rw [renderParts, hq] at h
    obtain ⟨_, _, _, _, qs, _, _, ho, -, -, -, rfl, rfl⟩ := renderFind_gives.mp h
    rw [hf] at ho
    obtain ⟨v, rfl, hv⟩ := Render.gives_optional_some.mp ho
    exact ⟨v, qs, hv, Entries.get?_cons_self _ _ _, List.prefix_append qs _⟩
  | update =>
    rw [renderParts, hq, hf] at h
    obtain ⟨_, qs, rs, ho, h, hprefix⟩ := h.first
    obtain ⟨v, rfl, hv⟩ := Render.gives_optional_some.mp ho
    simp only [gives_bind, gives_pure] at h
    obtain ⟨_, _, _, -, ⟨rfl, -⟩, -⟩ := h
    exact ⟨v, qs, hv, rfl, hprefix⟩
  | delete =>
    rw [renderParts, hq, hf] at h
    obtain ⟨_, qs, rs, ho, h, hprefix⟩ := h.first
    obtain ⟨v, rfl, hv⟩ := Render.gives_optional_some.mp ho
    obtain ⟨rfl, -⟩ := gives_pure.mp h
    exact ⟨v, qs, hv, rfl, hprefix⟩
  | updateMany | deleteMany | count | distinct =>
    rw [renderParts, hq] at h
    exact (Render.gives_unsupported.mp h).elim
  | insert | insertMany | aggregate =>
    rw [hq] at hop
    cases hop

end Couch

/-! ## Dynamo -/

namespace Dynamo

theorem queryCondition_eq_ok_iff {q : Query} {f : Filter} (hf : q.filter = some f)
    {o : Option Condition} :
    queryCondition q = .ok o ↔ ∃ c, condition f = .ok c ∧ o = some c := by
  rw [queryCondition, hf]
  show (do let c ← condition f; pure (some c) : Except Error (Option Condition)) = _ ↔ _
  simp only [bind_eq_ok_iff, pure_eq_ok_iff]

/-- The parts of a query that speaks of aliases, in their order. -/
structure Layout (key : String) (c : Condition) (es : Entries) (ps : List Param) : Prop where
  parts : ∃ (front back values : Entries) (paths : List String) (params : List Param),
    es = front ++ (conditionEntries key (some c) ++
      (nameEntries (c.paths ++ paths) ++ (values ++ back))) ∧
    (valueEntries (c.values ++ params)).Gives values (c.values ++ params) ∧
    ∀ k ∈ Entries.keys front, k = "TableName" ∨ k = "UpdateExpression"
  params : c.values <+: ps

section Parts

variable {q : Query} {f : Filter} (hf : q.filter = some f) {parts : Entries} {ps : List Param}

include hf

theorem renderFind_layout (h : (renderFind q).Gives parts ps) :
    ∃ c, condition f = .ok c ∧
      Layout "FilterExpression" c (Dialect.dynamo.header q ++ parts) ps := by
  obtain ⟨_, fields, limit, us, ho, -, -, rfl, rfl⟩ := renderFind_gives.mp h
  obtain ⟨c, hc, rfl⟩ := (queryCondition_eq_ok_iff hf).mp ho
  refine ⟨c, hc, ⟨⟨Dialect.dynamo.header q,
    Entries.optional "Limit" limit ++ Entries.when (!(fields.getD []).isEmpty)
      "ProjectionExpression" (.str (", ".intercalate
        ((fields.getD []).zipIdx.map fun p => nameAlias (c.paths.length + p.2)))),
    valueParts c.values, fields.getD [], [], ?_, ?_, ?_⟩, List.prefix_append _ us⟩⟩
  · simp only [pathsOf, valuesOf, Option.map_some, Option.getD_some, List.append_assoc]
  · rw [List.append_nil]
    exact valueEntries_gives.mpr ⟨rfl, rfl⟩
  · simp [Dialect.header, Entries.keys]

theorem renderUpdate_layout (h : (renderUpdate q).Gives parts ps) :
    ∃ c, condition f = .ok c ∧
      Layout "ConditionExpression" c (Dialect.dynamo.header q ++ parts) ps := by
  obtain ⟨_, acts, ho, -, rfl, rfl⟩ := renderUpdate_gives.mp h
  obtain ⟨c, hc, rfl⟩ := (queryCondition_eq_ok_iff hf).mp ho
  -- the text of the update stands before the condition
  refine ⟨c, hc, ⟨⟨Dialect.dynamo.header q ++ [("UpdateExpression",
      .str (updateText c.paths.length c.values.length acts))], [],
    valueParts (c.values ++ acts.filterMap Action.value?),
    acts.map Action.path, acts.filterMap Action.value?, ?_, valueEntries_gives.mpr ⟨rfl, rfl⟩, ?_⟩,
    List.prefix_append _ _⟩⟩
  · simp only [pathsOf, valuesOf, Option.map_some, Option.getD_some, List.append_assoc,
      List.cons_append, List.nil_append, List.append_nil]
  · simp [Dialect.header, Entries.keys]

theorem renderDelete_layout (h : (renderDelete q).Gives parts ps) :
    ∃ c, condition f = .ok c ∧
      Layout "ConditionExpression" c (Dialect.dynamo.header q ++ parts) ps := by
  obtain ⟨_, ho, rfl, rfl⟩ := renderDelete_gives.mp h
  obtain ⟨c, hc, rfl⟩ := (queryCondition_eq_ok_iff hf).mp ho
  refine ⟨c, hc, ⟨⟨Dialect.dynamo.header q, [], valueParts c.values, [], [], ?_, ?_, ?_⟩,
    List.prefix_refl _⟩⟩
  · simp only [pathsOf, valuesOf, Option.map_some, Option.getD_some, List.append_assoc,
      List.append_nil]
  · rw [List.append_nil]
    exact valueEntries_gives.mpr ⟨rfl, rfl⟩
  · simp [Dialect.header, Entries.keys]

/-- A query with a filter is laid out around its condition. -/
theorem layout_of_gives (hop : q.operation.takesFilter = true)
    (h : (renderParts q).Gives parts ps) :
    ∃ c, condition f = .ok c ∧
      Layout (Dialect.dynamo.filterKey q.operation) c (Dialect.dynamo.header q ++ parts) ps := by
  unfold renderParts at h
  cases hq : q.operation with
  | find | findOne =>
    rw [hq] at h
    exact renderFind_layout hf h
  | update =>
    rw [hq] at h
    exact renderUpdate_layout hf h
  | delete =>
    rw [hq] at h
    exact renderDelete_layout hf h
  | updateMany | deleteMany | count | distinct =>
    rw [hq] at h
    exact (Render.gives_unsupported.mp h).elim
  | insert | insertMany | aggregate =>
    rw [hq] at hop
    cases hop

end Parts

/-- The maps of a query that is laid out around a condition resolve the aliases of the condition. -/
theorem Layout.resolves {key : String} {c : Condition} {es : Entries} {ps : List Param}
    (hkey : key = "FilterExpression" ∨ key = "ConditionExpression") (h : Layout key c es ps) :
    (Aliases.of es).HasPaths 0 c.paths ∧ (Aliases.of es).HasParams 0 c.values ∧
      (c.text 0 0 ≠ "" → get? key es = some (.str (c.text 0 0))) := by
  obtain ⟨⟨front, back, values, paths, params, hes, hvalues, hfront⟩, -⟩ := h
  have hfrontNone : ∀ k, k ≠ "TableName" → k ≠ "UpdateExpression" → get? k front = none := by
    intro k ht hu
    rw [Entries.get?_eq_none_iff]
    intro hmem
    rcases hfront k hmem with rfl | rfl
    · exact ht rfl
    · exact hu rfl
  have hcondition : ∀ k, key ≠ k → get? k (conditionEntries key (some c)) = none :=
    fun k hk => Entries.get?_when_of_ne hk _ _
  have hnames : c.paths ++ paths ≠ [] →
      get? "ExpressionAttributeNames" es = some (.obj (nameMap (c.paths ++ paths))) := by
    intro hne
    have hother : key ≠ "ExpressionAttributeNames" := by
      rcases hkey with rfl | rfl <;> decide
    rw [hes, Entries.get?_append, hfrontNone _ (by decide) (by decide), Option.none_or,
      Entries.get?_append, hcondition _ hother, Option.none_or, Entries.get?_append, nameEntries_eq]
    simp [hne]
  have hparams : c.values ++ params ≠ [] →
      get? "ExpressionAttributeValues" es = some (.obj (valueMap (c.values ++ params))) := by
    intro hne
    have hother : key ≠ "ExpressionAttributeValues" := by
      rcases hkey with rfl | rfl <;> decide
    obtain ⟨rfl, -⟩ := valueEntries_gives.mp hvalues
    rw [hes, Entries.get?_append, hfrontNone _ (by decide) (by decide), Option.none_or,
      Entries.get?_append, hcondition _ hother, Option.none_or, Entries.get?_append, nameEntries_eq,
      Entries.get?_when_of_ne (by decide), Option.none_or]
    simp [hne]
  refine ⟨(hasPaths_of hnames).left, (hasParams_of hparams).left, fun htext => ?_⟩
  have hfrontKey : get? key front = none := by
    rcases hkey with rfl | rfl
    · exact hfrontNone _ (by decide) (by decide)
    · exact hfrontNone _ (by decide) (by decide)
  rw [hes, Entries.get?_append, hfrontKey, Option.none_or, Entries.get?_append]
  simp [conditionEntries, htext]

/-- The text of a filter's condition is not empty. -/
theorem text_ne_empty {a : Aliases} {f : Filter} {c : Condition} (hc : condition f = .ok c)
    (hgroups : ∀ g ∈ f.nodes, ¬ g.IsEmptyGroup) (hpaths : a.HasPaths 0 c.paths)
    (hparams : a.HasParams 0 c.values) : c.text 0 0 ≠ "" := by
  intro hempty
  obtain ⟨φ, hread, -⟩ := read_of_reads (reads_condition f hc hgroups hpaths hparams)
  rw [hempty] at hread
  cases hread

theorem renderFilter_gives {f : Filter} {c : Condition} (hc : condition f = .ok c) :
    (Dialect.dynamo.renderFilter f).Gives (.str (c.text 0 0)) c.values := by
  have hvalues : (Render.each Render.placeholder c.values).Gives
      (c.values.map fun p => .str p.placeholder) c.values :=
    Render.gives_each_placeholder.mpr ⟨rfl, rfl⟩
  rw [Dialect.renderFilter]
  refine gives_bind.mpr ⟨c, [], c.values, Render.gives_ofExcept.mpr ⟨hc, rfl⟩, ?_, rfl⟩
  exact gives_bind.mpr ⟨_, c.values, [], hvalues, gives_pure.mpr ⟨rfl, rfl⟩,
    (List.append_nil c.values).symm⟩

theorem succeeds_iff_condition {f : Filter} :
    (Dialect.dynamo.renderFilter f).Succeeds ↔ ∃ c, condition f = .ok c := by
  constructor
  · intro h
    obtain ⟨v, ps, hv⟩ := h
    obtain ⟨c, _, _, hc, -⟩ := gives_bind.mp hv
    exact ⟨c, (Render.gives_ofExcept.mp hc).1⟩
  · intro h
    obtain ⟨c, hc⟩ := h
    exact ⟨_, _, renderFilter_gives hc⟩

end Dynamo

/-! ## All dialects -/

/-- The key of the filter is no key of the header. -/
theorem Dialect.get?_header_append (dialect : Dialect) (operation : Operation) (q : Query)
    (parts : Entries) :
    get? (dialect.filterKey operation) (dialect.header q ++ parts) =
      get? (dialect.filterKey operation) parts := by
  have hheader : get? (dialect.filterKey operation) (dialect.header q) = none := by
    rw [Entries.get?_eq_none_iff]
    cases dialect <;> cases operation <;> simp [Dialect.header, Dialect.filterKey, Entries.keys]
  rw [Entries.get?_append, hheader, Option.none_or]

/-- A rendered query has its filter in it if its operation takes one. -/
theorem carries_of_render {q : Query} {f : Filter} {dialect : Dialect} {r : Rendered}
    (hf : q.filter = some f) (hop : q.operation.takesFilter = true)
    (h : q.render dialect = .ok r) : Carries dialect q.operation f r := by
  obtain ⟨parts, hparts, hentries⟩ := Query.parts_of_render h
  cases dialect with
  | mongo =>
    obtain ⟨v, ps, hv, hget, hprefix⟩ := Mongo.get?_filter hf hop hparts
    refine ⟨⟨v, ps, hv, ?_, hprefix⟩, fun h => by cases h⟩
    rw [hentries, Dialect.get?_header_append]
    exact hget
  | firestore =>
    obtain ⟨v, ps, hv, hget, hprefix⟩ := Firestore.get?_where hf hop hparts
    refine ⟨⟨v, ps, hv, ?_, hprefix⟩, fun h => by cases h⟩
    rw [hentries, Dialect.get?_header_append]
    exact hget
  | couch =>
    obtain ⟨v, ps, hv, hget, hprefix⟩ := Couch.get?_selector hf hop hparts
    refine ⟨⟨v, ps, hv, ?_, hprefix⟩, fun h => by cases h⟩
    rw [hentries, Dialect.get?_header_append]
    exact hget
  | dynamo =>
    obtain ⟨c, hc, hlayout⟩ := Dynamo.layout_of_gives hf hop hparts
    have hkey : Dialect.dynamo.filterKey q.operation = "FilterExpression" ∨
        Dialect.dynamo.filterKey q.operation = "ConditionExpression" := by
      cases q.operation <;> decide
    obtain ⟨hpaths, hparams, hget⟩ := hlayout.resolves hkey
    obtain ⟨hvalid, -⟩ := Query.render_eq_ok_iff.mp h
    have htext := Dynamo.text_ne_empty hc (Query.nonempty_groups hf hvalid) hpaths hparams
    rw [← hentries] at hpaths hparams hget
    exact ⟨⟨_, _, Dynamo.renderFilter_gives hc, hget htext, hlayout.params⟩,
      fun _ => ⟨c, hc, hpaths, hparams⟩⟩

/-! ## Operations without a filter -/

section NoFilter

variable {q : Query} (h : q.operation.takesFilter = false)

include h

theorem renderEntries_withFilter (o : Option Filter) (dialect : Dialect) :
    dialect.renderEntries (q.withFilter o) = dialect.renderEntries q := by
  cases hq : q.operation with
  | insert | insertMany | aggregate =>
    cases dialect <;>
      simp only [Dialect.renderEntries, Mongo.renderEntries, Mongo.renderParts,
        Dynamo.renderEntries, Dynamo.renderParts, Firestore.renderEntries, Firestore.renderParts,
        Couch.renderEntries, Couch.renderParts, Query.withFilter, hq]
  | _ =>
    rw [hq] at h
    cases h

theorem validate_withFilter_none (hvalid : q.validate = .ok ()) :
    (q.withFilter none).validate = .ok () := by
  obtain ⟨htarget, hgroup, hdemand⟩ := Query.validate_eq_ok_iff.mp hvalid
  obtain ⟨-, hstages⟩ := Query.emptyGroup?_eq_none.mp hgroup
  have hoperation : (q.withFilter none).validateOperation = q.validateOperation := by
    cases hq : q.operation with
    | insert | insertMany | aggregate =>
      simp only [Query.validateOperation, Query.withFilter, hq]
    | _ =>
      rw [hq] at h
      cases h
  refine Query.validate_eq_ok_iff.mpr ⟨htarget, ?_, hoperation.trans hdemand⟩
  exact Query.emptyGroup?_eq_none.mpr ⟨rfl, hstages⟩

/-- The filter makes no difference to what such a query renders to. -/
theorem render_withFilter_none {dialect : Dialect} {r : Rendered} (hr : q.render dialect = .ok r) :
    (q.withFilter none).render dialect = .ok r := by
  obtain ⟨hvalid, hsupports, es, hes, hbody⟩ := Query.render_eq_ok_iff.mp hr
  refine Query.render_eq_ok_iff.mpr ⟨validate_withFilter_none h hvalid, hsupports, es, ?_, hbody⟩
  rw [renderEntries_withFilter h]
  exact hes

/-- Such a query has no filter in it. -/
theorem get?_filterKey_eq_none {dialect : Dialect} {r : Rendered} (hr : q.render dialect = .ok r) :
    get? (dialect.filterKey q.operation) r.entries = none := by
  obtain ⟨-, hsupports, -⟩ := Query.render_eq_ok_iff.mp hr
  obtain ⟨parts, hparts, hentries⟩ := Query.parts_of_render hr
  rw [hentries, Dialect.get?_header_append]
  cases hq : q.operation with
  | insert =>
    -- one document in every dialect, each under a key of its own
    cases dialect <;>
      (simp only [Dialect.renderParts, Mongo.renderParts, Dynamo.renderParts,
        Firestore.renderParts, Couch.renderParts, hq, bind_pure_comp, gives_map] at hparts
       obtain ⟨document, -, rfl⟩ := hparts
       exact Entries.get?_optional_of_ne (by decide) document)
  | insertMany | aggregate =>
    rw [hq] at hsupports
    cases dialect with
    | mongo =>
      simp only [Dialect.renderParts, Mongo.renderParts, hq, bind_pure_comp, gives_map] at hparts
      obtain ⟨list, -, rfl⟩ := hparts
      rfl
    | _ => cases hsupports
  | _ =>
    rw [hq] at h
    cases h

end NoFilter

end DocumentQuery

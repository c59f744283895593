import DocumentQuery.Proofs.Built
import DocumentQuery.Proofs.Couch.Selector
import DocumentQuery.Proofs.Dynamo.Meaning
import DocumentQuery.Proofs.Mongo.Parameters
/-!
# Which parameters a dialect binds

The dialects write a query in four ways, and bind its parameters in one order.
Dynamo and firestore do not bind while they walk through a filter: they make
conditions or clauses first, which keep the parameters in their order.

A removal has no value in a built query. This is needed: dynamo and firestore
leave a value of a removal out, and mongo would bind it.

Results:
* `params_of_render`: a built query that renders binds `Query.params`, so two
  dialects that render the same write bind the same parameters in the same
  order.
-/
namespace DocumentQuery

open Render (gives_map)

/-! ## Values of built updates -/

theorem UpdateOperation.params_eq (op : UpdateOperation) :
    op.params = op.fields.entries.flatMap fun e => e.2.toList := by
  rw [UpdateOperation.params, OrderedMap.values, List.flatMap_map]

/-! ## Dynamo -/

namespace Dynamo

theorem values_of_comparisons {bounds : List (FilterOperator × Param)}
    {comparisons : List (String × Param)}
    (h : List.Forall₂ (fun b c => comparison b.1 b.2 = .ok c) bounds comparisons) :
    comparisons.map Prod.snd = bounds.map Prod.snd := by
  induction h with
  | nil => rfl
  | cons hc _ ih => rw [List.map_cons, List.map_cons, ih, (comparison_eq_ok_iff.mp hc).2]

mutual

/-- A condition keeps the parameters of its filter. -/
theorem values_of_condition : ∀ (f : Filter) {c : Condition}, condition f = .ok c →
    c.values = f.params
  | .condition _ operator value, _, h => by
    obtain ⟨c, hc, h⟩ := bind_eq_ok_iff.mp h
    obtain rfl := pure_eq_ok_iff.mp h
    obtain ⟨-, hvalue⟩ := comparison_eq_ok_iff.mp hc
    rw [Condition.values, List.map_singleton, hvalue, Filter.params]
  | .group _ conditions, _, h => by
    obtain ⟨joiner, parts, -, hparts, rfl⟩ := condition_group_eq_ok_iff.mp h
    exact values_of_conditionsOfAll conditions hparts
  | .range r, _, h => by
    obtain ⟨comparisons, hcomparisons, -, rfl⟩ := rangeCondition_eq_ok_iff.mp h
    rw [Condition.values, values_of_comparisons hcomparisons, r.map_snd_bounds, Filter.params]
  | .presence _ _, _, h => by
    cases h
    rfl
  | .regex .., _, h | .textSearch _, _, h | .geo _, _, h | .array .., _, h
  | .elemMatch .., _, h => by
    cases h

theorem values_of_conditionsOfAll : ∀ (fs : List Filter) {cs : List Condition},
    conditionsOfAll fs = .ok cs → Condition.valuesOfAll cs = Filter.paramsOfAll fs
  | [], _, h => by
    cases h
    rfl
  | f :: fs, _, h => by
    obtain ⟨c, ds, hc, hds, rfl⟩ := conditionsOfAll_cons_eq_ok_iff.mp h
    rw [Condition.valuesOfAll, values_of_condition f hc, values_of_conditionsOfAll fs hds,
      Filter.paramsOfAll]

end

theorem valuesOf_queryCondition {q : Query} {c : Option Condition}
    (h : queryCondition q = .ok c) : valuesOf c = q.filterParams := by
  unfold queryCondition at h
  unfold Query.filterParams
  cases hf : q.filter with
  | none =>
    rw [hf] at h
    cases h
    rfl
  | some f =>
    rw [hf] at h
    obtain ⟨c, hc, h⟩ := bind_eq_ok_iff.mp h
    obtain rfl := pure_eq_ok_iff.mp h
    exact values_of_condition f hc

theorem values_of_operationActions {op : UpdateOperation} (hop : op.Valued) {acts : List Action}
    (h : operationActions op = .ok acts) : acts.filterMap Action.value? = op.params := by
  have hmake := operationActions_make h
  rw [op.params_eq]
  unfold UpdateOperation.Valued at hop
  clear h
  generalize op.fields.entries = es at hop hmake
  induction hmake with
  | nil => rfl
  | @cons e a es acts ha _ ih =>
    obtain ⟨he, hes⟩ := List.forall_mem_cons.mp hop
    have hvalue : a.value? = e.2 := by
      rw [ha.2]
      split
      · rename_i hunset
        rw [hunset] at he
        exact (by simpa using he : e.2 = none).symm
      · rfl
    rw [List.flatMap_cons, ← ih hes, List.filterMap_cons, hvalue]
    cases e.2 <;> rfl

theorem values_of_actions {ops : List UpdateOperation} (hops : ∀ op ∈ ops, op.Valued)
    {acts : List Action} (h : actions ops = .ok acts) :
    acts.filterMap Action.value? = ops.flatMap UpdateOperation.params := by
  obtain ⟨lists, hlists, rfl⟩ := actions_eq_ok_iff.mp h
  clear h
  induction hlists with
  | nil => rfl
  | @cons op acts ops lists hacts _ ih =>
    obtain ⟨hop, hops⟩ := List.forall_mem_cons.mp hops
    rw [List.flatten_cons, List.filterMap_append, values_of_operationActions hop hacts, ih hops,
      List.flatMap_cons]

theorem params_of_renderParts {q : Query} (hq : q.Built) {parts : Entries} {ps : List Param}
    (hvalid : q.validate = .ok ()) (h : (renderParts q).Gives parts ps) :
    ps = q.params .dynamo := by
  unfold renderParts at h
  unfold Query.params
  cases hop : q.operation with
  | find | findOne =>
    rw [hop] at h
    obtain ⟨c, fields, limit, us, hc, -, hlimit, -, rfl⟩ := renderFind_gives.mp h
    rw [valuesOf_queryCondition hc, Render.params_of_optional params_of_pagination hlimit]
    rfl
  | insert =>
    rw [hop] at h
    simp only [bind_pure_comp, gives_map] at h
    obtain ⟨item, hitem, -⟩ := h
    rw [Render.params_of_optional params_of_document hitem]
    exact Query.documentParams_of_insert hop hvalid
  | update =>
    rw [hop] at h
    obtain ⟨c, acts, hc, hacts, -, rfl⟩ := renderUpdate_gives.mp h
    rw [valuesOf_queryCondition hc, values_of_actions hq.values hacts]
    rfl
  | delete =>
    rw [hop] at h
    obtain ⟨c, hc, -, rfl⟩ := renderDelete_gives.mp h
    exact valuesOf_queryCondition hc
  | _ =>
    rw [hop] at h
    exact (Render.gives_unsupported.mp h).elim

end Dynamo

/-! ## Firestore -/

namespace Firestore

theorem values_of_clause {field : Field} {operator : FilterOperator} {value : Param}
    {cs : List Clause} (h : clause field operator value = .ok cs) :
    cs.map Clause.value = [value] := by
  unfold clause at h
  split at h
  · cases h
    rfl
  · cases h

theorem values_of_rangeClauses {r : RangeFilter} {cs : List Clause}
    (h : rangeClauses r = .ok cs) : cs.map Clause.value = r.bounds.map Prod.snd := by
  unfold rangeClauses at h
  generalize r.bounds = bounds at h
  induction bounds generalizing cs with
  | nil =>
    cases h
    rfl
  | cons b bounds ih =>
    obtain ⟨c, hc, h⟩ := bind_eq_ok_iff.mp h
    obtain ⟨rest, hrest, h⟩ := bind_eq_ok_iff.mp h
    obtain rfl := pure_eq_ok_iff.mp h
    rw [List.map_append, values_of_clause hc, ih hrest]
    rfl

mutual

/-- Clauses keep the parameters of their filter. -/
theorem values_of_clauses : ∀ (f : Filter) {cs : List Clause}, clauses f = .ok cs →
    cs.map Clause.value = f.params
  | .condition _ _ _, _, h | .array _ _ _, _, h => values_of_clause h
  | .group logic conditions, _, h => by
    cases logic with
    | and | not => exact values_of_clausesOfAll conditions h
    | or | nor => cases h
  | .range r, _, h => by
    rw [values_of_rangeClauses h, r.map_snd_bounds, Filter.params]
  | .regex .., _, h | .textSearch _, _, h | .geo _, _, h | .elemMatch .., _, h
  | .presence .., _, h => by
    cases h

theorem values_of_clausesOfAll : ∀ (fs : List Filter) {cs : List Clause},
    clausesOfAll fs = .ok cs → cs.map Clause.value = Filter.paramsOfAll fs
  | [], _, h => by
    cases h
    rfl
  | f :: fs, _, h => by
    obtain ⟨cs, hcs, h⟩ := bind_eq_ok_iff.mp h
    obtain ⟨rest, hrest, h⟩ := bind_eq_ok_iff.mp h
    obtain rfl := pure_eq_ok_iff.mp h
    rw [List.map_append, values_of_clauses f hcs, values_of_clausesOfAll fs hrest,
      Filter.paramsOfAll]

end

theorem params_of_renderWhere (f : Filter) (v : Json) (ps : List Param)
    (h : (renderWhere f).Gives v ps) : ps = f.params := by
  obtain ⟨cs, hcs, -, rfl⟩ := renderWhere_gives.mp h
  exact values_of_clauses f hcs

theorem params_of_whereEntries {q : Query} {es : Entries} {ps : List Param}
    (h : (whereEntries q).Gives es ps) : ps = q.filterParams := by
  obtain ⟨list, hlist, -⟩ := whereEntries_gives.mp h
  exact Render.params_of_optional params_of_renderWhere hlist

/-- The value of an assignment is that of the change, if a removal has none. -/
theorem value_of_assignment {operator : UpdateOperator} {path : String} {value : Option Param}
    (hvalue : operator = .unset → value = none) {a : Assignment}
    (h : assignment operator path value = .ok a) : a.value? = value := by
  unfold assignment at h
  split at h
  · cases h
    exact (hvalue rfl).symm
  · cases h
    rfl
  · cases h
  · cases h

/-- Assignments keep the values of the changes. -/
theorem values_of_assignments {cs : List (UpdateOperator × String × Option Param)}
    {list : List (String × Assignment)} (hcs : ∀ c ∈ cs, c.1 = .unset → c.2.2 = none)
    (h : assignments [] cs = .ok list) :
    list.flatMap (fun a => a.2.value?.toList) = cs.flatMap fun c => c.2.2.toList := by
  have hmake := assignments_make h
  clear h
  induction hmake with
  | nil => rfl
  | cons ha _ ih =>
    obtain ⟨hc, hcs⟩ := List.forall_mem_cons.mp hcs
    rw [List.flatMap_cons, List.flatMap_cons, ih hcs, value_of_assignment hc ha.2]

theorem params_of_renderData {ops : List UpdateOperation} (hops : ∀ op ∈ ops, op.Valued) {v : Json}
    {ps : List Param} (h : (renderData ops).Gives v ps) :
    ps = ops.flatMap UpdateOperation.params := by
  have hremoval : ∀ c ∈ changes ops, c.1 = .unset → c.2.2 = none := by
    intro c hc hoperator
    obtain ⟨op, hop, hc⟩ := List.mem_flatMap.mp hc
    obtain ⟨e, he, rfl⟩ := List.mem_map.mp hc
    have hnone := hops op hop e he
    rw [show op.operator = .unset from hoperator] at hnone
    simpa using hnone
  have hchanges : (changes ops).flatMap (fun c => c.2.2.toList) =
      ops.flatMap UpdateOperation.params := by
    rw [changes, List.flatMap_assoc]
    refine List.flatMap_congr fun op _ => ?_
    rw [List.flatMap_map, op.params_eq]
  obtain ⟨list, hlist, -, rfl⟩ := renderData_gives.mp h
  rw [values_of_assignments hremoval hlist, hchanges]

theorem params_of_renderParts {q : Query} (hq : q.Built) {parts : Entries} {ps : List Param}
    (hvalid : q.validate = .ok ()) (h : (renderParts q).Gives parts ps) :
    ps = q.params .firestore := by
  unfold renderParts at h
  unfold Query.params
  cases hop : q.operation with
  | find | findOne =>
    rw [hop] at h
    obtain ⟨_, _, _, _, qs, rs, ts, hwhere, hlimit, hoffset, -, -, rfl⟩ := renderFind_gives.mp h
    rw [params_of_whereEntries hwhere, Render.params_of_optional params_of_pagination hlimit,
      Render.params_of_optional params_of_pagination hoffset, ← List.append_assoc]
    rfl
  | insert =>
    rw [hop] at h
    simp only [bind_pure_comp, gives_map] at h
    obtain ⟨document, hdocument, -⟩ := h
    rw [Render.params_of_optional params_of_document hdocument]
    exact Query.documentParams_of_insert hop hvalid
  | update =>
    rw [hop] at h
    obtain ⟨conditions, data, qs, rs, hwhere, hdata, -, rfl⟩ := Render.gives_two.mp h
    rw [params_of_whereEntries hwhere, params_of_renderData hq.values hdata]
    rfl
  | delete =>
    rw [hop] at h
    exact params_of_whereEntries h
  | _ =>
    rw [hop] at h
    exact (Render.gives_unsupported.mp h).elim

end Firestore

/-! ## Couch -/

namespace Couch

theorem params_of_renderSelector (f : Filter) (v : Json) (ps : List Param)
    (h : (renderSelector f).Gives v ps) : ps = f.params :=
  Mongo.params_of_renderFilter f (renderFilter_of_renderSelector f h)

theorem params_of_renderUpdate (op : UpdateOperation) (es : Entries) (ps : List Param)
    (h : (renderUpdate op).Gives es ps) : ps = op.params := by
  obtain ⟨-, -, rfl⟩ := renderUpdate_gives.mp h
  rw [op.params_eq, valued]
  induction op.fields.entries with
  | nil => rfl
  | cons e es ih => cases hvalue : e.2 <;> simp [hvalue, ih]

theorem params_of_renderParts {q : Query} {parts : Entries} {ps : List Param}
    (hvalid : q.validate = .ok ()) (h : (renderParts q).Gives parts ps) :
    ps = q.params .couch := by
  unfold renderParts at h
  unfold Query.params
  cases hop : q.operation with
  | find | findOne =>
    rw [hop] at h
    obtain ⟨_, _, _, _, qs, rs, ts, hselector, -, hlimit, hskip, -, rfl⟩ := renderFind_gives.mp h
    rw [Render.params_of_optional params_of_renderSelector hselector,
      Render.params_of_optional params_of_pagination hlimit,
      Render.params_of_optional params_of_pagination hskip, ← List.append_assoc]
    rfl
  | insert =>
    rw [hop] at h
    simp only [bind_pure_comp, gives_map] at h
    obtain ⟨document, hdocument, -⟩ := h
    rw [Render.params_of_optional params_of_document hdocument]
    exact Query.documentParams_of_insert hop hvalid
  | update =>
    rw [hop] at h
    obtain ⟨selector, updates, qs, rs, hselector, hupdates, -, rfl⟩ := Render.gives_two.mp h
    rw [Render.params_of_optional params_of_renderSelector hselector,
      Render.params_of_each params_of_renderUpdate hupdates]
    rfl
  | delete =>
    rw [hop] at h
    simp only [bind_pure_comp, gives_map] at h
    obtain ⟨selector, hselector, -⟩ := h
    exact Render.params_of_optional params_of_renderSelector hselector
  | _ =>
    rw [hop] at h
    exact (Render.gives_unsupported.mp h).elim

end Couch

/-! ## All dialects -/

theorem Query.Built.params_of_render {q : Query} (hq : q.Built) {dialect : Dialect} {r : Rendered}
    (h : q.render dialect = .ok r) : r.params = q.params dialect := by
  obtain ⟨hvalid, -, -⟩ := Query.render_eq_ok_iff.mp h
  obtain ⟨parts, hparts, -⟩ := Query.parts_of_render h
  cases dialect with
  | mongo => exact Mongo.params_of_renderParts hvalid hparts
  | dynamo => exact Dynamo.params_of_renderParts hq hvalid hparts
  | firestore => exact Firestore.params_of_renderParts hq hvalid hparts
  | couch => exact Couch.params_of_renderParts hvalid hparts

/-- A built query binds the parameters that a walk through it finds, in the order of the walk. Two
dialects that render the same write bind the same parameters. -/
theorem bound_in_order {start : Start} {target : Collection} {calls : List Call} {q : Query}
    (hbuild : ((Builder.start start target).run calls).build = .ok q) {dialect : Dialect}
    {r : Rendered} (h : q.render dialect = .ok r) :
    r.params = q.params dialect ∧
    (q.operation.isRead = false → ∀ {other : Dialect} {r' : Rendered},
      q.render other = .ok r' → r'.params = r.params) := by
  have hq := built_of_build hbuild
  refine ⟨hq.params_of_render h, fun hwrite other r' h' => ?_⟩
  rw [hq.params_of_render h, hq.params_of_render h', Query.params_of_write hwrite]

/-- Users below an age get a new name and lose their address. -/
def renamedMinors : List Call :=
  [.filter (.range ⟨Users.age, some Users.least, some Users.greatest, false, true⟩),
    .change .set Users.name Users.label, .unset [Users.email]]

theorem bound_in_order_renamedMinors :
    ∃ q r r', ((Builder.start .update Users.collection).run renamedMinors).build = .ok q ∧
      q.render .mongo = .ok r ∧ q.render .dynamo = .ok r' ∧ q.operation.isRead = false ∧
      r.params = [Users.least, Users.greatest, Users.label] ∧ r'.params = r.params := by
  obtain ⟨q, hq⟩ : ∃ q,
      ((Builder.start .update Users.collection).run renamedMinors).build = .ok q := ⟨_, rfl⟩
  obtain ⟨⟨r, hr⟩, ⟨r', hr'⟩, hread, hparams⟩ : (∃ r, q.render .mongo = .ok r) ∧
      (∃ r', q.render .dynamo = .ok r') ∧ q.operation.isRead = false ∧
      q.params .mongo = [Users.least, Users.greatest, Users.label] := by
    cases hq
    exact ⟨⟨_, rfl⟩, ⟨_, rfl⟩, rfl, rfl⟩
  obtain ⟨hbound, hsame⟩ := bound_in_order hq hr
  exact ⟨q, r, r', hq, hr, hr', hread, hbound.trans hparams, hsame hread hr'⟩

end DocumentQuery

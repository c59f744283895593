import DocumentQuery.Proofs.Built
import DocumentQuery.Proofs.FilterFormula
import DocumentQuery.Proofs.LastWrites
/-!
# Changes put together

A call that changes fields finds the operation for its operator in the query or makes it, and
writes its fields there. So however such calls follow each other, a query has one operation for
each operator that was used, and this operation is what all of its calls write in turn.

Main definitions:
* `Call.operator?`, `Call.assigned`: the operator of a call, and what it writes.
* `writes`: what a chain writes by one operator.

Results:
* `Call.updates_of_run_of_some`: what one call makes of the operations.
* `updates_of_calls`: the operations after a chain.
* `updates_merged`: each operator once, each field with its last value.
-/
namespace DocumentQuery

/-! ## Calls -/

namespace Call

/-- The operator of a call that changes fields. -/
def operator? : Call → Option UpdateOperator
  | .change c _ _ => some c.operator
  | .unset _ => some .unset
  | _ => none

/-- The fields that a call names to be changed. -/
def changed : Call → List Field
  | .change _ field _ => [field]
  | .unset fields => fields
  | _ => []

/-- What a call writes; a removal writes no value. -/
def assigned : Call → List (Field × Option Param)
  | .change _ field value => [(field, some value)]
  | .unset fields => fields.map fun f => (f, none)
  | _ => []

/-- The call names the field to be changed by the operator. -/
def Names (c : Call) (operator : UpdateOperator) (field : Field) : Prop :=
  c.operator? = some operator ∧ field ∈ c.changed

/-- The call changes the field to the value by the operator. -/
def Writes (c : Call) (operator : UpdateOperator) (field : Field) (value : Option Param) : Prop :=
  c.operator? = some operator ∧ (field, value) ∈ c.assigned

theorem map_fst_assigned (c : Call) : c.assigned.map Prod.fst = c.changed := by
  cases c with
  | unset fields =>
    rw [assigned, List.map_map]
    exact List.map_id _
  | _ => rfl

/-- A call does not write two values to a field. -/
theorem assigned_unique {c : Call} {field : Field} {v w : Option Param}
    (hv : (field, v) ∈ c.assigned) (hw : (field, w) ∈ c.assigned) : v = w := by
  cases c with
  | change c field' value =>
    cases List.mem_singleton.mp hv
    cases List.mem_singleton.mp hw
    rfl
  | unset fields =>
    obtain ⟨_, -, hv⟩ := List.mem_map.mp hv
    obtain ⟨_, -, hw⟩ := List.mem_map.mp hw
    cases hv
    cases hw
    rfl
  | _ => cases hv

theorem lookup_assigned {c : Call} {field : Field} {value : Option Param} :
    c.assigned.reverse.lookup field = some value ↔ (field, value) ∈ c.assigned := by
  constructor
  · intro h
    obtain ⟨front, back, heq, -⟩ := List.lookup_eq_some_iff.mp h
    rw [← List.mem_reverse, heq]
    simp
  · intro h
    cases hlookup : c.assigned.reverse.lookup field with
    | none =>
      rw [lookup_eq_none_iff_not_mem, List.map_reverse, List.mem_reverse] at hlookup
      exact absurd (List.mem_map_of_mem h) hlookup
    | some w =>
      obtain ⟨front, back, heq, -⟩ := List.lookup_eq_some_iff.mp hlookup
      have hw : (field, w) ∈ c.assigned := by
        rw [← List.mem_reverse, heq]
        simp
      rw [assigned_unique hw h]

end Call

/-! ## Operations -/

namespace UpdateOperation

/-- The operation with several fields set in turn. -/
def setAll (op : UpdateOperation) (l : List (Field × Option Param)) : UpdateOperation :=
  l.foldl (fun op e => op.set e.1 e.2) op

theorem setAll_ofList (operator : UpdateOperator) (l l' : List (Field × Option Param)) :
    (ofList operator l).setAll l' = ofList operator (l ++ l') := by
  induction l' generalizing l with
  | nil => rw [List.append_nil, setAll, List.foldl_nil]
  | cons e l' ih =>
    have hset : (ofList operator l).set e.1 e.2 = ofList operator (l ++ [e]) := by
      rw [ofList, ofList, OrderedMap.ofList, OrderedMap.ofList, List.foldl_append]
      rfl
    rw [setAll, List.foldl_cons, hset]
    show (ofList operator (l ++ [e])).setAll l' = _
    rw [ih, List.append_assoc, List.singleton_append]

/-- In operations by operator, one is modified or added. -/
theorem modify_map {g : UpdateOperator → UpdateOperation} (hg : ∀ o, (g o).operator = o)
    (operator : UpdateOperator) (f : UpdateOperation → UpdateOperation)
    {operators : List UpdateOperator} (hnodup : operators.Nodup) :
    modify operator f (operators.map g) =
      if operator ∈ operators then
        operators.map fun o => if o = operator then f (g o) else g o
      else operators.map g ++ [f ⟨operator, ∅⟩] := by
  induction operators with
  | nil => rfl
  | cons o operators ih =>
    obtain ⟨hnot, hrest⟩ := List.nodup_cons.mp hnodup
    rw [List.map_cons, modify, hg, ih hrest]
    by_cases h : o = operator
    · subst h
      have hsame : operators.map (fun o' => if o' = o then f (g o') else g o') =
          operators.map g :=
        List.map_congr_left fun o' ho' => if_neg fun (heq : o' = o) => hnot (heq ▸ ho')
      simp [hsame]
    · have h' : ¬ operator = o := fun heq => h heq.symm
      by_cases hmem : operator ∈ operators <;> simp [h, h', hmem]

end UpdateOperation

/-! ## Chains -/

namespace Call

variable {c : Call} {q q' : Query}

/-- A call that changes no fields leaves the operations as they are. -/
theorem updates_of_run (hc : c.operator? = none) (h : c.run q = .ok q') :
    q'.updates = q.updates := by
  rw [eq_effect_of_run h]
  cases c with
  | change _ _ _ | unset _ => cases hc
  | _ => rfl

/-- A call that changes fields sets them in the operation for its operator. -/
theorem updates_of_run_of_some {operator : UpdateOperator} (hc : c.operator? = some operator)
    (h : c.run q = .ok q') :
    q'.updates = UpdateOperation.modify operator (·.setAll c.assigned) q.updates := by
  cases c with
  | change c field value =>
    cases hc
    cases perform_of_run h
    rfl
  | unset fields =>
    cases hc
    cases perform_of_run h
    have hremove : (fun op : UpdateOperation => fields.foldl (fun op f => op.set f none) op) =
        fun op => op.setAll (Call.unset fields).assigned := by
      funext op
      rw [UpdateOperation.setAll, assigned, List.foldl_map]
    rw [← hremove]
    rfl
  | _ => cases hc

end Call

/-- What a chain writes by an operator, in order. -/
def writes (operator : UpdateOperator) (calls : List Call) : List (Field × Option Param) :=
  calls.flatMap fun c => if c.operator? = some operator then c.assigned else []

section Writes

variable {operator : UpdateOperator} {calls : List Call} {field : Field} {value : Option Param}

theorem writes_concat (operator : UpdateOperator) (calls : List Call) (c : Call) :
    writes operator (calls ++ [c]) =
      writes operator calls ++ if c.operator? = some operator then c.assigned else [] := by
  rw [writes, List.flatMap_append, List.flatMap_singleton]
  rfl

theorem writes_eq_nil (h : operator ∉ calls.filterMap Call.operator?) :
    writes operator calls = [] := by
  refine List.flatMap_eq_nil_iff.mpr fun c hc => if_neg fun heq => h ?_
  exact List.mem_filterMap.mpr ⟨c, hc, heq⟩

theorem mem_map_fst_writes :
    field ∈ (writes operator calls).map Prod.fst ↔ ∃ c ∈ calls, c.Names operator field := by
  rw [writes, List.map_flatMap, List.mem_flatMap]
  refine exists_congr fun c => and_congr_right fun _ => ?_
  rw [Call.Names]
  split
  · rename_i hc
    rw [Call.map_fst_assigned, and_iff_right hc]
  · rename_i hc
    simp [hc]

/-- From the end, what a chain writes is what the last call writes that names the field. -/
theorem lookup_reverse_writes :
    (writes operator calls).reverse.lookup field =
      calls.reverse.findSome? fun c =>
        if c.operator? = some operator then c.assigned.reverse.lookup field else none := by
  induction calls using List.reverseRecOn with
  | nil => rfl
  | append_singleton calls c ih =>
    rw [writes_concat, List.reverse_append, List.lookup_append, ih, List.reverse_append,
      List.reverse_singleton, List.singleton_append, List.findSome?_cons]
    split
    · cases c.assigned.reverse.lookup field <;> rfl
    · rfl

theorem lookup_reverse_writes_eq_some_iff :
    (writes operator calls).reverse.lookup field = some value ↔ ∃ before c after,
      calls = before ++ c :: after ∧ c.Writes operator field value ∧
        ∀ d ∈ after, ¬ d.Names operator field := by
  have hnone : ∀ d : Call, (if d.operator? = some operator then d.assigned.reverse.lookup field
      else none) = none ↔ ¬ d.Names operator field := by
    intro d
    rw [Call.Names, ite_eq_right_iff, lookup_eq_none_iff_not_mem, List.map_reverse,
      List.mem_reverse, Call.map_fst_assigned, not_and]
  rw [lookup_reverse_writes, List.findSome?_eq_some_iff]
  simp only [hnone, Option.ite_none_right_eq_some, Call.lookup_assigned]
  -- the first call from the end that names the field is the last one
  constructor
  · rintro ⟨after, c, before, heq, hwrites, hafter⟩
    refine ⟨before.reverse, c, after.reverse, ?_, hwrites, fun d hd =>
      hafter d (List.mem_reverse.mp hd)⟩
    rw [← List.reverse_inj, heq]
    simp
  · rintro ⟨before, c, after, rfl, hwrites, hafter⟩
    exact ⟨after.reverse, c, before.reverse, by simp, hwrites, fun d hd =>
      hafter d (List.mem_reverse.mp hd)⟩

end Writes

/-- After a chain there is one operation for each operator that was used, and it is what the chain
writes by this operator. -/
theorem updates_of_calls {start : Start} {target : Collection} {calls : List Call} {q : Query}
    (h : calls.foldlM Call.run (start.query target) = .ok q) :
    q.updates = (calls.filterMap Call.operator?).eraseDups.map fun o =>
      UpdateOperation.ofList o (writes o calls) := by
  refine foldlM_run_induction (P := fun calls q => q.updates =
    (calls.filterMap Call.operator?).eraseDups.map fun o =>
      UpdateOperation.ofList o (writes o calls)) rfl (fun {calls c mid next} hmid hrun => ?_) h
  rw [List.filterMap_append]
  cases hc : c.operator? with
  | none =>
    have hwrites : ∀ o, writes o (calls ++ [c]) = writes o calls := by
      intro o
      rw [writes_concat, hc, if_neg (by simp), List.append_nil]
    simp only [Call.updates_of_run hc hrun, hmid, List.filterMap_cons, hc, List.filterMap_nil,
      List.append_nil, hwrites]
  | some operator =>
    have hwrites : ∀ o, o ≠ operator → writes o (calls ++ [c]) = writes o calls := by
      intro o hne
      rw [writes_concat, hc, if_neg fun heq => hne (Option.some.inj heq).symm, List.append_nil]
    have hwrites' : writes operator (calls ++ [c]) = writes operator calls ++ c.assigned := by
      rw [writes_concat, if_pos hc]
    rw [Call.updates_of_run_of_some hc hrun, hmid,
      UpdateOperation.modify_map (fun _ => rfl) operator _ (nodup_eraseDups _),
      List.filterMap_cons, hc, List.filterMap_nil, eraseDups_concat]
    simp only [List.mem_eraseDups]
    -- the operation is there, or this call is the first one for its operator
    split
    · refine List.map_congr_left fun o _ => ?_
      split
      · rename_i heq
        rw [UpdateOperation.setAll_ofList, heq, hwrites']
      · rename_i hne
        rw [hwrites o hne]
    · rename_i hnot
      have hnew : (⟨operator, ∅⟩ : UpdateOperation) = .ofList operator [] := rfl
      rw [List.map_append, List.map_singleton, hwrites', writes_eq_nil hnot, List.nil_append, hnew,
        UpdateOperation.setAll_ofList, List.nil_append]
      refine congrArg (· ++ _) (List.map_congr_left fun o ho => ?_)
      rw [hwrites o fun heq => hnot (heq ▸ List.mem_eraseDups.mp ho)]

section Operations

variable {start : Start} {target : Collection} {calls : List Call} {q : Query}

theorem operators_of_calls (h : calls.foldlM Call.run (start.query target) = .ok q) :
    q.updates.map UpdateOperation.operator = (calls.filterMap Call.operator?).eraseDups := by
  rw [updates_of_calls h, List.map_map]
  exact List.map_id _

theorem fields_of_calls (h : calls.foldlM Call.run (start.query target) = .ok q)
    {op : UpdateOperation} (hop : op ∈ q.updates) :
    op.fields = OrderedMap.ofList (writes op.operator calls) := by
  rw [updates_of_calls h] at hop
  obtain ⟨o, -, rfl⟩ := List.mem_map.mp hop
  rfl

/-- An operation has the fields that calls name to its operator. -/
theorem mem_keys_of_calls (h : calls.foldlM Call.run (start.query target) = .ok q)
    {op : UpdateOperation} (hop : op ∈ q.updates) {field : Field} :
    field ∈ op.fields.keys ↔ ∃ c ∈ calls, c.Names op.operator field := by
  rw [← not_iff_not, ← OrderedMap.get?_eq_none_iff, fields_of_calls h hop, OrderedMap.get?_ofList,
    lookup_eq_none_iff_not_mem, List.map_reverse, List.mem_reverse, mem_map_fst_writes]

/-- However the calls of a chain follow each other, its query has one operation for each operator
that they use, in the order of first use. The operation has the fields that calls name to this
operator, by path and collection, and each field has the value that the last of these calls
writes. -/
theorem updates_merged (h : (Builder.start start target).run calls = ⟨q, none⟩) :
    q.updates.map UpdateOperation.operator = (calls.filterMap Call.operator?).eraseDups ∧
    ∀ op ∈ q.updates,
      (∀ field, field ∈ op.fields.keys ↔ ∃ c ∈ calls, c.Names op.operator field) ∧
      (∀ field value, op.fields.get? field = some value ↔ ∃ before c after,
        calls = before ++ c :: after ∧ c.Writes op.operator field value ∧
          ∀ d ∈ after, ¬ d.Names op.operator field) ∧
      op.fields.keys.Pairwise fun f g =>
        f.path < g.path ∨ f.path = g.path ∧ f.collection < g.collection := by
  have hcalls := Builder.foldlM_of_run h
  refine ⟨operators_of_calls hcalls, fun op hop => ⟨fun field => mem_keys_of_calls hcalls hop,
    fun field value => ?_, List.pairwise_map.mpr op.fields.ordered⟩⟩
  rw [fields_of_calls hcalls hop, OrderedMap.get?_ofList, lookup_reverse_writes_eq_some_iff]

end Operations

/-- The name is set twice, and between that the age is raised and two fields are removed. -/
def relabelled : List Call :=
  [.change .set Users.name Users.label, .change .inc Users.age Users.least,
    .unset [Users.email, Users.status], .filter (.presence Users.name true),
    .change .set Users.name Users.given, .change .set Users.points Users.label]

theorem updates_merged_relabelled :
    ∃ q, (Builder.start .updateMany Users.collection).run relabelled = ⟨q, none⟩ ∧
      q.updates.map UpdateOperation.operator = [.set, .inc, .unset] ∧
      ∀ op ∈ q.updates, op.operator = .set →
        op.fields.get? Users.name = some (some Users.given) := by
  obtain ⟨q, hq⟩ : ∃ q,
      (Builder.start .updateMany Users.collection).run relabelled = ⟨q, none⟩ := ⟨_, rfl⟩
  obtain ⟨hoperators, hfields⟩ := updates_merged hq
  refine ⟨q, hq, hoperators, fun op hop hset => ?_⟩
  rw [(hfields op hop).2.1, hset]
  refine ⟨relabelled.take 4, .change .set Users.name Users.given,
    [.change .set Users.points Users.label], rfl, ⟨rfl, List.mem_singleton_self _⟩, ?_⟩
  have hne : Users.name ≠ Users.points := by decide
  simp [Call.Names, Call.changed, hne]

end DocumentQuery

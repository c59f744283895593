import DocumentQuery.Proofs.Chain
/-!
# What is known of a built query

A chain of calls does not build just any query: the names that its stages
introduce are identifiers, no two of its update operations have the same
operator, and its changes have values where they need them (`Query.Built`).
Every call keeps this (`Call.run_built`), so it holds of all that is built.

Main definitions:
* `UpdateOperation.Valued`: fields have values unless they are removed.
* `Query.Built`: the three facts together.

Results:
* `built_of_build`: they hold of every built query.
-/
namespace DocumentQuery

/-! ## Names of stages -/

namespace Stage

theorem firstInvalid?_eq_none_iff {names : List String} :
    firstInvalid? names = none ↔ ∀ name ∈ names, Identifier.Valid name := by
  simp [firstInvalid?, Identifier.Valid]

theorem invalidNameIn?_append (ss ts : List Stage) :
    invalidNameIn? (ss ++ ts) = (invalidNameIn? ss <|> invalidNameIn? ts) := by
  induction ss with
  | nil => simp [invalidNameIn?]
  | cons s ss ih => simp [invalidNameIn?, ih, Option.or_assoc]

theorem invalidNameIn?_cons_eq_none_iff {s : Stage} {rest : List Stage} :
    invalidNameIn? (s :: rest) = none ↔ s.invalidName? = none ∧ invalidNameIn? rest = none := by
  simp [invalidNameIn?]

theorem invalidNameInFacets?_cons_eq_none_iff {name : String} {stages : List Stage}
    {rest : List (String × List Stage)} :
    invalidNameInFacets? ((name, stages) :: rest) = none ↔
      invalidNameIn? stages = none ∧ invalidNameInFacets? rest = none := by
  simp [invalidNameInFacets?]

/-- A stage with valid names has valid names of its own. -/
theorem valid_of_mem_ownNames {s : Stage} (h : s.invalidName? = none) :
    ∀ name ∈ s.ownNames, Identifier.Valid name := by
  rw [← firstInvalid?_eq_none_iff]
  cases s with
  | lookup _ _ _ _ _ _ | facet _ =>
    obtain ⟨hown, -⟩ : _ ∧ _ = none := by simpa [invalidName?] using h
    exact hown
  | _ => exact h

end Stage

/-! ## Update operations -/

namespace UpdateOperation

/-- The changed fields have values, unless the operation removes them. -/
def Valued (op : UpdateOperation) : Prop :=
  ∀ e ∈ op.fields.entries, e.2.isSome = (op.operator != .unset)

theorem Valued.set {op : UpdateOperation} (h : op.Valued) (field : Field) {value : Option Param}
    (hvalue : value.isSome = (op.operator != .unset)) : (op.set field value).Valued := by
  intro e he
  rcases OrderedMap.mem_insertEntry he with rfl | he
  · exact hvalue
  · exact h e he

/-- Removals leave the operator as it is. -/
theorem operator_removals (fields : List Field) (op : UpdateOperation) :
    (fields.foldl (fun op f => op.set f none) op).operator = op.operator := by
  induction fields generalizing op with
  | nil => rfl
  | cons f fields ih => exact ih (op.set f none)

theorem valued_empty (operator : UpdateOperator) : Valued ⟨operator, ∅⟩ := by
  intro e he
  cases he

section Modify

variable {operator : UpdateOperator} {f : UpdateOperation → UpdateOperation}
  {ops : List UpdateOperation}

theorem forall_mem_modify {P : UpdateOperation → Prop} (hnew : P ⟨operator, ∅⟩)
    (hf : ∀ op, op.operator = operator → P op → P (f op)) (h : ∀ op ∈ ops, P op) :
    ∀ op ∈ modify operator f ops, P op := by
  induction ops with
  | nil =>
    rw [modify, List.forall_mem_singleton]
    exact hf _ rfl hnew
  | cons op ops ih =>
    rw [List.forall_mem_cons] at h
    obtain ⟨hop, hops⟩ := h
    rw [modify]
    split
    · rename_i heq
      exact List.forall_mem_cons.mpr ⟨hf op heq hop, hops⟩
    · exact List.forall_mem_cons.mpr ⟨hop, ih hops⟩

/-- A modification adds its operator at the end unless it is there. -/
theorem operators_modify (hf : ∀ op, (f op).operator = op.operator) :
    (modify operator f ops).map UpdateOperation.operator =
      if operator ∈ ops.map UpdateOperation.operator then ops.map UpdateOperation.operator
      else ops.map UpdateOperation.operator ++ [operator] := by
  induction ops with
  | nil => simp [modify, hf]
  | cons op ops ih =>
    rw [modify]
    by_cases h : op.operator = operator
    · simp [h, hf]
    · have h' : ¬ operator = op.operator := fun e => h e.symm
      simp only [h, if_false, List.map_cons, ih, List.mem_cons, h', false_or]
      split
      · rfl
      · rfl

theorem nodup_operators_modify (hf : ∀ op, (f op).operator = op.operator)
    (h : (ops.map UpdateOperation.operator).Nodup) :
    ((modify operator f ops).map UpdateOperation.operator).Nodup := by
  rw [operators_modify hf]
  split
  · exact h
  · rename_i hnot
    rw [List.nodup_append]
    refine ⟨h, by simp, fun a ha b hb he => ?_⟩
    rw [List.mem_singleton] at hb
    rw [he, hb] at ha
    exact hnot ha

end Modify

end UpdateOperation

/-! ## Built queries -/

/-- What every chain of calls sees to. -/
structure Query.Built (q : Query) : Prop where
  names : Stage.invalidNameIn? q.pipeline = none
  operators : (q.updates.map UpdateOperation.operator).Nodup
  values : ∀ op ∈ q.updates, op.Valued

namespace Query.Built

variable {q q' : Query}

theorem start (s : Start) (target : Collection) : (s.query target).Built :=
  ⟨rfl, List.nodup_nil, by intro op hop; cases hop⟩

/-- Only the pipeline and the update operations count. -/
theorem congr (h : q.Built) (hpipeline : q'.pipeline = q.pipeline)
    (hupdates : q'.updates = q.updates) : q'.Built :=
  ⟨hpipeline ▸ h.names, hupdates ▸ h.operators, hupdates ▸ h.values⟩

theorem pushStage (h : q.Built) {s : Stage} (hpush : q.pushStage s = ⟨q', none⟩) : q'.Built := by
  obtain ⟨hs, rfl⟩ := Query.eq_of_pushStage hpush
  refine ⟨?_, h.operators, h.values⟩
  rw [Stage.invalidNameIn?_append, h.names, Stage.invalidNameIn?, hs]
  rfl

theorem modify (h : q.Built) {operator : UpdateOperator} {f : UpdateOperation → UpdateOperation}
    (hoperator : ∀ op, (f op).operator = op.operator)
    (hvalued : ∀ op, op.operator = operator → op.Valued → (f op).Valued) :
    { q with updates := UpdateOperation.modify operator f q.updates }.Built := by
  refine ⟨h.names, UpdateOperation.nodup_operators_modify hoperator h.operators, ?_⟩
  exact UpdateOperation.forall_mem_modify (UpdateOperation.valued_empty operator) hvalued h.values

theorem change (h : q.Built) (c : FieldChange) (field : Field) (value : Param) :
    (q.change c.operator field (some value)).Built := by
  refine h.modify (fun _ => rfl) fun op hop hvalued => hvalued.set field ?_
  rw [hop]
  cases c <;> rfl

theorem unset (h : q.Built) (fields : List Field) : (q.unset fields).Built := by
  refine h.modify (UpdateOperation.operator_removals fields) ?_
  induction fields with
  | nil => exact fun _ _ hv => hv
  | cons f fields ih => exact fun op hop hv => ih (op.set f none) hop (hv.set f (by rw [hop]; rfl))

end Query.Built

/-- Every call keeps what is known of built queries. -/
theorem Call.run_built {c : Call} {q q' : Query} (hq : q.Built) (h : c.run q = .ok q') :
    q'.Built := by
  cases c with
  | change c field value =>
    cases Call.perform_of_run h
    exact hq.change c field value
  | unset fields =>
    cases Call.perform_of_run h
    exact hq.unset fields
  | stage _ | matching _ | project _ | group _ _ | lookup _ _ _ _ | unwind _ =>
    have hperform := Call.perform_of_run h
    rw [Call.perform] at hperform
    exact hq.pushStage hperform
  | _ =>
    rw [Call.eq_effect_of_run h]
    exact hq.congr rfl rfl

/-- What a chain builds is built. -/
theorem built_of_build {start : Start} {target : Collection} {calls : List Call} {q : Query}
    (h : ((Builder.start start target).run calls).build = .ok q) : q.Built := by
  obtain ⟨hcalls, -⟩ := Builder.run_of_build h
  exact foldlM_run_induction (P := fun _ q => q.Built) (Query.Built.start start target)
    (fun hmid hrun => Call.run_built hmid hrun) hcalls

end DocumentQuery

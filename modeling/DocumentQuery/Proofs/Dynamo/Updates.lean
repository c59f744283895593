import DocumentQuery.Proofs.Dynamo.Mentions
import DocumentQuery.Proofs.FieldUpdates
/-!
# Reading update expressions

The grammar of update expressions, and the changes that an expression says once
its aliases are resolved:

    update     := [ SET assignment { , assignment } ] [ REMOVE path { , path } ]
    assignment := path = value | path = path + value

The actions of an update come in the order of its operations, and the expression
collects them in two clauses. So the changes are read in another order than the
query has them, but none is lost and none comes twice.

Main definitions:
* `assignment?`, `removal?`: the change that a part of a clause says.
* `updates?`: the changes that the tokens of an expression say.

Results:
* `updates?_updateText`: an expression says what its actions do.
* `map_update_actions`: the actions do what the operations ask for.
* `readUpdates_parts`: the expression of a rendered update says the changes of
  the query, each once.
-/
namespace DocumentQuery.Dynamo

open Entries (get?)

/-! ## Reading -/

section Reading

variable (a : Aliases)

/-- The change that an assignment says. -/
def assignment? : List String → Option FieldUpdate
  | [n, "=", v] => do
    let path ← a.path? n
    let p ← a.param? v
    pure ⟨.set, path, some p⟩
  | [n, "=", m, "+", v] => do
    let path ← a.path? n
    let p ← a.param? v
    if m = n then pure ⟨.inc, path, some p⟩ else none
  | _ => none

/-- The change that a removed path says. -/
def removal? : List String → Option FieldUpdate
  | [n] => do
    let path ← a.path? n
    pure ⟨.unset, path, none⟩
  | _ => none

/-- The changes that a clause says; one that is left out says nothing. -/
def clause? (keyword : String) (read : List String → Option FieldUpdate) :
    List String → Option (List FieldUpdate)
  | [] => some []
  | t :: ts => if t = keyword then (ts.splitOn ",").mapM read else none

/-- The changes that an expression says. -/
def updates? (ts : List String) : Option (List FieldUpdate) := do
  let assigned ← clause? "SET" (assignment? a) (ts.takeWhile (· ≠ "REMOVE"))
  let removed ← clause? "REMOVE" (removal? a) (ts.dropWhile (· ≠ "REMOVE"))
  pure (assigned ++ removed)

end Reading

/-- The changes that the expression of a rendered update says. -/
def readUpdates (es : Entries) : Option (List FieldUpdate) :=
  updates? (.of es) (tokens (expressionAt "UpdateExpression" es).toList)

/-! ## Clauses -/

/-- The text is cut into tokens that say the change; none of them ends a part or a clause. -/
def Says (read : List String → Option FieldUpdate) (text : String) (u : FieldUpdate) : Prop :=
  ∃ us, Cuts text us ∧ "," ∉ us ∧ "REMOVE" ∉ us ∧ read us = some u

theorem cuts_clause {keyword : String} (hword : IsWord keyword) {parts : List String}
    {uss : List (List String)} (h : List.Forall₂ Cuts parts uss) :
    Cuts (keyword ++ " " ++ ", ".intercalate parts) (keyword :: [","].intercalate uss) := by
  have htwo := separates_blank.intercalate
    (.cons (cuts_word hword) (.cons (separates_comma.intercalate h) .nil))
  simpa [String.intercalate_cons_cons, List.intercalate] using htwo

theorem not_mem_intercalate {t sep : String} (hsep : t ≠ sep) {uss : List (List String)}
    (h : ∀ us ∈ uss, t ∉ us) : t ∉ [sep].intercalate uss := by
  intro hmem
  rcases mem_of_mem_intercalate hmem with heq | ⟨us, hus, hmem⟩
  · exact hsep heq
  · exact h us hus hmem

theorem intercalate_nil (uss : List (List String)) : [].intercalate uss = uss.flatten := by
  induction uss with
  | nil => rfl
  | cons us uss ih => cases uss <;> simp_all [List.intercalate]

/-- A clause is cut into tokens that say what its parts say. -/
theorem clause?_clauseText {keyword : String} (hword : IsWord keyword)
    {read : List String → Option FieldUpdate} {parts : List String} {us : List FieldUpdate}
    (h : List.Forall₂ (Says read) parts us) :
    ∃ tss, List.Forall₂ Cuts (clauseText keyword parts) tss ∧
      clause? keyword read tss.flatten = some us ∧
      (tss.flatten = [] ∨ ∃ ts, tss.flatten = keyword :: ts ∧ "REMOVE" ∉ ts) := by
  obtain ⟨uss, hcuts, hread, hcomma, hremove⟩ : ∃ uss, List.Forall₂ Cuts parts uss ∧
      List.Forall₂ (fun us u => read us = some u) uss us ∧ (∀ us ∈ uss, "," ∉ us) ∧
      ∀ us ∈ uss, "REMOVE" ∉ us := by
    induction h with
    | nil => exact ⟨[], .nil, .nil, by simp, by simp⟩
    | cons hs _ ih =>
      obtain ⟨ts, hcuts, hcomma, hremove, hread⟩ := hs
      obtain ⟨uss, hcutss, hreads, hcommas, hremoves⟩ := ih
      exact ⟨ts :: uss, .cons hcuts hcutss, .cons hread hreads,
        List.forall_mem_cons.mpr ⟨hcomma, hcommas⟩, List.forall_mem_cons.mpr ⟨hremove, hremoves⟩⟩
  unfold clauseText
  split
  · rename_i hempty
    obtain rfl := List.isEmpty_iff.mp hempty
    cases hcuts
    cases hread
    exact ⟨[], .nil, rfl, .inl rfl⟩
  · rename_i hne
    have huss : uss ≠ [] := by
      intro heq
      subst heq
      cases hcuts
      exact hne rfl
    refine ⟨_, .cons (cuts_clause hword hcuts) .nil, ?_,
      .inr ⟨_, List.append_nil _, not_mem_intercalate (by decide) hremove⟩⟩
    simp only [List.flatten_cons, List.flatten_nil, List.append_nil, clause?, if_true,
      List.splitOn_intercalate "," hcomma huss]
    exact mapM_eq_some hread

/-! ## Actions -/

/-- The change that an action makes. -/
def Action.update : Action → FieldUpdate
  | .set path value => ⟨.set, path, some value⟩
  | .add path value => ⟨.inc, path, some value⟩
  | .remove path => ⟨.unset, path, none⟩

/-- The assignments among the changes. -/
def assigned (acts : List Action) : List FieldUpdate :=
  (acts.filter fun x => x.value?.isSome).map Action.update

/-- The removals among the changes. -/
def removed (acts : List Action) : List FieldUpdate :=
  (acts.filter fun x => !x.value?.isSome).map Action.update

/-- Every action is an assignment or a removal. -/
theorem assigned_append_removed_perm (acts : List Action) :
    (assigned acts ++ removed acts).Perm (acts.map Action.update) := by
  rw [assigned, removed, ← List.map_append]
  exact (List.filter_append_perm _ acts).map Action.update

variable {a : Aliases}

theorem aliasWith_ne {t : String} (h : Plain t) (mark : Mark) (i : Nat) : t ≠ aliasWith mark i := by
  rintro rfl
  obtain ⟨hname, hmarked⟩ := h
  cases mark with
  | name => cases (isNameToken_aliasWith .name i).symm.trans hname
  | value => cases (isMarked_aliasWith .value i).symm.trans hmarked

theorem says_set {n v : Nat} {path : String} {value : Param}
    (hpath : a.path? (nameAlias n) = some path) (hvalue : a.param? (valueAlias v) = some value) :
    Says (assignment? a) (nameAlias n ++ " = " ++ valueAlias v) ⟨.set, path, some value⟩ := by
  have hcomma : Plain "," := by decide
  have hremove : Plain "REMOVE" := by decide
  refine ⟨_, cuts_set n v, ?_, ?_, ?_⟩
  · simp [aliasWith_ne hcomma]
  · simp [aliasWith_ne hremove]
  · simp [assignment?, hpath, hvalue]

theorem says_add {n v : Nat} {path : String} {value : Param}
    (hpath : a.path? (nameAlias n) = some path) (hvalue : a.param? (valueAlias v) = some value) :
    Says (assignment? a) (nameAlias n ++ " = " ++ nameAlias n ++ " + " ++ valueAlias v)
      ⟨.inc, path, some value⟩ := by
  have hcomma : Plain "," := by decide
  have hremove : Plain "REMOVE" := by decide
  refine ⟨_, cuts_add n v, ?_, ?_, ?_⟩
  · simp [aliasWith_ne hcomma]
  · simp [aliasWith_ne hremove]
  · simp [assignment?, hpath, hvalue]

theorem says_remove {n : Nat} {path : String} (hpath : a.path? (nameAlias n) = some path) :
    Says (removal? a) (nameAlias n) ⟨.unset, path, none⟩ := by
  have hcomma : Plain "," := by decide
  have hremove : Plain "REMOVE" := by decide
  refine ⟨_, cuts_word (isWord_aliasWith .name n), ?_, ?_, ?_⟩
  · simp [aliasWith_ne hcomma]
  · simp [aliasWith_ne hremove]
  · simp [removal?, hpath]

/-- The parts of the two clauses say what the actions do, if the aliases are resolved. -/
theorem says_actions : ∀ {acts : List Action} {n v : Nat}, a.HasPaths n (acts.map Action.path) →
    a.HasParams v (acts.filterMap Action.value?) →
      List.Forall₂ (Says (assignment? a)) (assignmentTexts n v acts) (assigned acts) ∧
      List.Forall₂ (Says (removal? a)) (removalTexts n acts) (removed acts)
  | [], _, _, _, _ => ⟨.nil, .nil⟩
  | .set path value :: acts, n, v, hpaths, hvalues => by
    obtain ⟨hassigned, hremoved⟩ := says_actions hpaths.tail hvalues.tail
    exact ⟨.cons (says_set hpaths.head hvalues.head) hassigned, hremoved⟩
  | .add path value :: acts, n, v, hpaths, hvalues => by
    obtain ⟨hassigned, hremoved⟩ := says_actions hpaths.tail hvalues.tail
    exact ⟨.cons (says_add hpaths.head hvalues.head) hassigned, hremoved⟩
  | .remove path :: acts, n, v, hpaths, hvalues => by
    obtain ⟨hassigned, hremoved⟩ := says_actions hpaths.tail hvalues
    exact ⟨hassigned, .cons (says_remove hpaths.head) hremoved⟩

/-- An expression says what its actions do, assignments first. -/
theorem updates?_updateText {acts : List Action} {n v : Nat}
    (hpaths : a.HasPaths n (acts.map Action.path))
    (hvalues : a.HasParams v (acts.filterMap Action.value?)) :
    updates? a (tokens (updateText n v acts).toList) = some (assigned acts ++ removed acts) := by
  obtain ⟨hassigned, hremoved⟩ := says_actions hpaths hvalues
  obtain ⟨tss, hcuts, hread, hset⟩ := clause?_clauseText (show IsWord "SET" by decide) hassigned
  obtain ⟨tss', hcuts', hread', hremove⟩ :=
    clause?_clauseText (show IsWord "REMOVE" by decide) hremoved
  have htokens : tokens (updateText n v acts).toList = tss.flatten ++ tss'.flatten := by
    have hall := separates_blank.intercalate (List.rel_append hcuts hcuts')
    rw [updateText, hall.tokens_eq, intercalate_nil, List.flatten_append]
  -- the first clause ends where the second one starts
  have hfront : ∀ t ∈ tss.flatten, decide (t ≠ "REMOVE") = true := by
    rcases hset with hnil | ⟨ts, hts, hnot⟩
    · simp [hnil]
    · rw [hts]
      refine List.forall_mem_cons.mpr ⟨by decide, fun t ht => ?_⟩
      rw [decide_eq_true_iff]
      exact fun heq => hnot (heq ▸ ht)
  have htake : tss'.flatten.takeWhile (· ≠ "REMOVE") = [] := by
    rcases hremove with hnil | ⟨ts, hts, -⟩
    · simp [hnil]
    · simp [hts]
  have hdrop : tss'.flatten.dropWhile (· ≠ "REMOVE") = tss'.flatten := by
    rcases hremove with hnil | ⟨ts, hts, -⟩
    · simp [hnil]
    · simp [hts]
  rw [updates?, htokens, List.takeWhile_append_of_pos hfront, List.dropWhile_append_of_pos hfront,
    htake, hdrop, List.append_nil, hread, hread']
  rfl

/-! ## Queries -/

/-- The actions of an operation do what it asks for. -/
theorem map_update_operationActions {op : UpdateOperation} (hop : op.Valued) {acts : List Action}
    (h : operationActions op = .ok acts) : acts.map Action.update = op.fieldUpdates := by
  have hvalued : ∀ {make : String → Param → Action},
      (∀ path p, (make path p).update = ⟨op.operator, path, some p⟩) →
      op.fields.entries.mapM (fun e => valueAction op.operator make e.1 e.2) = .ok acts →
        acts.map Action.update = op.fieldUpdates := by
    intro make hmake hacts
    have hall := mapM_eq_ok_iff.mp hacts
    rw [UpdateOperation.fieldUpdates]
    generalize op.fields.entries = es at hall
    clear hacts h
    induction hall with
    | nil => rfl
    | cons ha _ ih =>
      obtain ⟨p, hp, rfl⟩ := valueAction_eq_ok_iff.mp ha
      rw [List.map_cons, List.map_cons, ih, hmake, hp]
  unfold operationActions at h
  cases hoperator : op.operator with
  | set =>
    rw [hoperator] at h hvalued
    exact hvalued (fun _ _ => rfl) h
  | inc =>
    rw [hoperator] at h hvalued
    exact hvalued (fun _ _ => rfl) h
  | unset =>
    rw [hoperator] at h
    cases h
    rw [UpdateOperation.fieldUpdates, OrderedMap.keys, List.map_map, List.map_map, hoperator]
    refine List.map_congr_left fun e he => ?_
    have hnone : e.2 = none := by simpa [hoperator] using hop e he
    rw [hnone]
    rfl
  | _ =>
    rw [hoperator] at h
    cases h

theorem map_update_actions {q : Query} (hq : q.Built) {acts : List Action}
    (h : actions q.updates = .ok acts) : acts.map Action.update = q.fieldUpdates := by
  obtain ⟨lists, hlists, rfl⟩ := actions_eq_ok_iff.mp h
  have hvalues := hq.values
  unfold Query.fieldUpdates
  generalize q.updates = ops at hlists hvalues
  clear h
  induction hlists with
  | nil => rfl
  | cons hacts _ ih =>
    obtain ⟨hop, hops⟩ := List.forall_mem_cons.mp hvalues
    rw [List.flatten_cons, List.map_append, map_update_operationActions hop hacts, ih hops,
      List.flatMap_cons]

section Queries

variable {q : Query} {parts : Entries} {ps : List Param}

theorem renderUpdate_of_parts (hop : q.operation.isUpdate = true)
    (h : (renderParts q).Gives parts ps) : (renderUpdate q).Gives parts ps := by
  unfold renderParts at h
  cases hcase : q.operation with
  | update =>
    rw [hcase] at h
    exact h
  | updateMany =>
    rw [hcase] at h
    exact (Render.gives_unsupported.mp h).elim
  | _ =>
    rw [hcase] at hop
    cases hop

/-- The expression of an update says what the operations ask for. -/
theorem readUpdates_parts (hq : q.Built) (h : (renderUpdate q).Gives parts ps) :
    ∃ us, readUpdates (Dialect.dynamo.header q ++ parts) = some us ∧ us.Perm q.fieldUpdates := by
  obtain ⟨c, acts, hacts, hexpression, haligned, rfl⟩ := aligned_update h
  refine ⟨assigned acts ++ removed acts, ?_, ?_⟩
  · rw [readUpdates, hexpression]
    have hpaths := haligned.hasPaths.right
    have hvalues := haligned.hasParams.right
    rw [Nat.zero_add] at hpaths hvalues
    exact updates?_updateText hpaths hvalues
  · rw [← map_update_actions hq hacts]
    exact assigned_append_removed_perm acts

theorem get?_updateExpression (h : (renderUpdate q).Gives parts ps) :
    get? "UpdateExpression" (Dialect.dynamo.header q ++ parts) =
      some (.str (expressionAt "UpdateExpression" (Dialect.dynamo.header q ++ parts))) := by
  obtain ⟨c, acts, -, -, rfl, -⟩ := renderUpdate_gives.mp h
  simp [expressionAt, Dialect.header]

/-- The expression of an update is empty exactly if the operations ask for nothing. -/
theorem updateExpression_eq_empty_iff (hq : q.Built) (h : (renderUpdate q).Gives parts ps) :
    expressionAt "UpdateExpression" (Dialect.dynamo.header q ++ parts) = "" ↔
      q.fieldUpdates = [] := by
  constructor
  · intro hempty
    obtain ⟨us, hread, hperm⟩ := readUpdates_parts hq h
    rw [readUpdates, hempty] at hread
    have hnil : us = [] := (Option.some.inj hread).symm
    exact (hnil ▸ hperm).nil_eq.symm
  · intro hnil
    obtain ⟨c, acts, hacts, hexpression, -⟩ := aligned_update h
    rw [← map_update_actions hq hacts, List.map_eq_nil_iff] at hnil
    rw [hexpression, hnil]
    rfl

end Queries

end DocumentQuery.Dynamo

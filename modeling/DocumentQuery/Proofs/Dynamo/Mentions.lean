import Mathlib.Data.List.Nodup
import DocumentQuery.Proofs.Dynamo.Meaning
import DocumentQuery.Proofs.Parameters
import DocumentQuery.Proofs.Texts
/-!
# Aliases that expressions mention

The service refuses an expression with an alias that is in no map, and a map with
an alias that is in no expression. A query numbers its aliases before it knows all
of its expressions: those of a projection or an update go on where the condition
stopped. So which aliases a text mentions is followed from its smallest parts up
(`Uses`), with the numbers it starts from left open.

Main definitions:
* `expressionTokens`: the tokens of all expressions of a rendered query.
* `Mentions`: the numbers of the paths and of the values among some tokens.
* `Aligned`: the expressions of a query mention what its two maps resolve.

Results:
* `uses_condition`, `uses_update`: what conditions and updates mention.
* `aligned_find`, `aligned_update`, `aligned_delete`: each query is aligned.
* `aliases_exact`: the maps have the mentioned aliases and no others, and the
  parameters come in the order of the value aliases.
-/
namespace DocumentQuery.Dynamo

open Entries (get?)

/-! ## Expressions of a query -/

/-- The keys of expressions. -/
def expressionKeys : List String :=
  ["FilterExpression", "ConditionExpression", "UpdateExpression", "ProjectionExpression"]

/-- The expression at a key; one that is left out is empty. -/
def expressionAt (key : String) (es : Entries) : String :=
  match get? key es with
  | some (.str s) => s
  | _ => ""

/-- The tokens of all expressions. -/
def expressionTokens (es : Entries) : List String :=
  expressionKeys.flatMap fun key => tokens (expressionAt key es).toList

/-- Whether a token is the alias of a path; one that is marked is the alias of a value. -/
def isNameToken (t : String) : Bool := t.toList.head? == some '#'

/-! ## Numbers of aliases -/

theorem isNameToken_aliasWith (mark : Mark) (i : Nat) :
    isNameToken (aliasWith mark i) = (mark == .name) := by
  cases mark <;> simp [isNameToken, aliasWith, Mark.text]

theorem isMarked_aliasWith (mark : Mark) (i : Nat) :
    isMarked (aliasWith mark i) = (mark == .value) := by
  have hmark : mark.text ≠ "" := by cases mark <;> decide
  rw [aliasWith, isMarked_append hmark]
  cases mark <;> decide

/-- The tokens mention the paths with numbers `ns`, no matter how often, and the values with
numbers `vs`, each once and in this order. -/
structure Mentions (us : List String) (ns vs : List Nat) : Prop where
  names : ∀ t, t ∈ us.filter isNameToken ↔ t ∈ ns.map nameAlias
  values : us.filter isMarked = vs.map valueAlias

/-- The token is no alias. -/
def Plain (t : String) : Prop := isNameToken t = false ∧ isMarked t = false

instance (t : String) : Decidable (Plain t) := inferInstanceAs (Decidable (_ ∧ _))

namespace Mentions

variable {us us' : List String} {ns ns' vs vs' : List Nat}

theorem nil : Mentions [] [] [] := ⟨by simp, rfl⟩

theorem name (n : Nat) : Mentions [nameAlias n] [n] [] where
  names t := by simp [isNameToken_aliasWith]
  values := by simp [isMarked_aliasWith]

theorem value (v : Nat) : Mentions [valueAlias v] [] [v] where
  names t := by simp [isNameToken_aliasWith]
  values := by simp [isMarked_aliasWith]

theorem append (h : Mentions us ns vs) (h' : Mentions us' ns' vs') :
    Mentions (us ++ us') (ns ++ ns') (vs ++ vs') where
  names t := by
    rw [List.filter_append, List.map_append, List.mem_append, List.mem_append, h.names, h'.names]
  values := by rw [List.filter_append, List.map_append, h.values, h'.values]

theorem plain {t : String} (ht : Plain t) : Mentions [t] [] [] where
  names t := by simp [ht.1]
  values := by simp [ht.2]

/-- Only which paths are mentioned counts. -/
theorem congr (h : Mentions us ns vs) (hns : ∀ i, i ∈ ns ↔ i ∈ ns') : Mentions us ns' vs where
  names t := by
    rw [h.names]
    simp only [List.mem_map, hns]
  values := h.values

/-- Plain separators between lists of tokens mention nothing. -/
theorem intercalate {seps : List String} (hseps : ∀ t ∈ seps, Plain t)
    {uss : List (List String)} (h : Mentions uss.flatten ns vs) :
    Mentions (seps.intercalate uss) ns vs := by
  have hfilter : ∀ p : String → Bool, (∀ t ∈ seps, p t = false) →
      (seps.intercalate uss).filter p = uss.flatten.filter p := by
    intro p hp
    have hnone : seps.filter p = [] := by simpa using hp
    clear h
    induction uss with
    | nil => rfl
    | cons us uss ih =>
      cases uss with
      | nil => simp
      | cons us' uss => simpa [List.intercalate, List.filter_append, hnone] using ih
  refine ⟨fun t => ?_, ?_⟩
  · rw [hfilter _ fun t ht => (hseps t ht).1, h.names]
  · rw [hfilter _ fun t ht => (hseps t ht).2, h.values]

end Mentions

/-! ## Numbers of aliases in a text -/

/-- The text is cut into tokens that mention the given paths and values. -/
def Uses (s : String) (ns vs : List Nat) : Prop := ∃ us, Cuts s us ∧ Mentions us ns vs

/-- Texts that together use the given paths and values. -/
inductive UsesAll : List String → List Nat → List Nat → Prop
  | nil : UsesAll [] [] []
  | cons {s : String} {ss : List String} {ns ns' vs vs' : List Nat} : Uses s ns vs →
      UsesAll ss ns' vs' → UsesAll (s :: ss) (ns ++ ns') (vs ++ vs')

section Uses

variable {s : String} {ss ss' : List String} {ns ns' vs vs' : List Nat}

theorem Uses.mentions (h : Uses s ns vs) : Mentions (tokens s.toList) ns vs := by
  obtain ⟨us, hcuts, hmentions⟩ := h
  rwa [hcuts.tokens_eq]

theorem Uses.congr (h : Uses s ns vs) (hns : ∀ i, i ∈ ns ↔ i ∈ ns') : Uses s ns' vs := by
  obtain ⟨us, hcuts, hmentions⟩ := h
  exact ⟨us, hcuts, hmentions.congr hns⟩

theorem uses_empty : Uses "" [] [] := ⟨[], fun rest _ => by simp, .nil⟩

theorem uses_nameAlias (n : Nat) : Uses (nameAlias n) [n] [] :=
  ⟨_, cuts_word (isWord_aliasWith .name n), .name n⟩

theorem Uses.parentheses (h : Uses s ns vs) : Uses ("(" ++ s ++ ")") ns vs := by
  obtain ⟨us, hcuts, hmentions⟩ := h
  have hall := ((Mentions.plain (t := "(") (by decide)).append hmentions).append
    (Mentions.plain (t := ")") (by decide))
  rw [List.append_nil, List.append_nil] at hall
  exact ⟨_, cuts_parentheses hcuts, hall⟩

theorem UsesAll.append (h : UsesAll ss ns vs) (h' : UsesAll ss' ns' vs') :
    UsesAll (ss ++ ss') (ns ++ ns') (vs ++ vs') := by
  induction h with
  | nil => exact h'
  | cons hs _ ih =>
    rw [List.append_assoc, List.append_assoc]
    exact .cons hs ih

/-- Texts with a plain separator between them use what they use together. -/
theorem UsesAll.intercalate (h : UsesAll ss ns vs) {sep : String} {seps : List String}
    (hsep : Separates sep seps) (hplain : ∀ t ∈ seps, Plain t) :
    Uses (sep.intercalate ss) ns vs := by
  obtain ⟨uss, hcuts, hmentions⟩ : ∃ uss, List.Forall₂ Cuts ss uss ∧
      Mentions uss.flatten ns vs := by
    induction h with
    | nil => exact ⟨[], .nil, .nil⟩
    | cons hs _ ih =>
      obtain ⟨us, hcuts, hmentions⟩ := hs
      obtain ⟨uss, hcutss, hmentionss⟩ := ih
      exact ⟨us :: uss, .cons hcuts hcutss, hmentions.append hmentionss⟩
  exact ⟨_, hsep.intercalate hcuts, hmentions.intercalate hplain⟩

end Uses

/-! ## Conditions -/

theorem plain_sign {op : FilterOperator} {sign : String} (h : sign? op = some sign) :
    Plain sign := by
  cases op <;> cases h <;> decide

theorem plain_keyword (joiner : Joiner) : Plain joiner.keyword := by
  cases joiner <;> decide

theorem plain_presenceFunction (present : Bool) : Plain (Condition.presenceFunction present) := by
  cases present <;> decide

theorem uses_comparison {op : FilterOperator} {sign : String} (hsign : sign? op = some sign)
    (n v : Nat) : Uses (nameAlias n ++ " " ++ sign ++ " " ++ valueAlias v) [n] [v] :=
  ⟨_, cuts_comparison hsign n v,
    ((Mentions.name n).append (.plain (plain_sign hsign))).append (.value v)⟩

theorem uses_presence (n : Nat) (present : Bool) :
    Uses (Condition.presenceFunction present ++ "(" ++ nameAlias n ++ ")") [n] [] :=
  ⟨_, cuts_presence n present,
    (((Mentions.plain (plain_presenceFunction present)).append
      (.plain (t := "(") (by decide))).append (.name n)).append (.plain (t := ")") (by decide))⟩

/-- Comparisons of one path name it again and again, and number their values on. -/
theorem usesAll_comparisons {bounds : List (FilterOperator × Param)}
    {comparisons : List (String × Param)}
    (h : List.Forall₂ (fun b c => comparison b.1 b.2 = .ok c) bounds comparisons) (n : Nat) :
    ∀ v, UsesAll (Condition.comparisonTexts n v comparisons)
      (List.replicate comparisons.length n) (List.range' v comparisons.length) := by
  induction h with
  | nil => exact fun _ => .nil
  | cons hc _ ih =>
    obtain ⟨hsign, -⟩ := comparison_eq_ok_iff.mp hc
    exact fun v => .cons (uses_comparison hsign n v) (ih (v + 1))

theorem uses_compare {bounds : List (FilterOperator × Param)}
    {comparisons : List (String × Param)}
    (h : List.Forall₂ (fun b c => comparison b.1 b.2 = .ok c) bounds comparisons)
    (hne : comparisons ≠ []) (path : String) (n v : Nat) :
    Uses ((Condition.compare path comparisons).text n v) [n]
      (List.range' v (Condition.compare path comparisons).values.length) := by
  have hall := (usesAll_comparisons h n v).intercalate (separates_joiner .and)
    (List.forall_mem_singleton.mpr (plain_keyword .and))
  have hlength : comparisons.length ≠ 0 := fun h0 => hne (List.length_eq_zero_iff.mp h0)
  rw [Condition.values, List.length_map]
  exact hall.congr fun i => by simp [List.mem_replicate, hlength]

mutual

/-- A condition uses as many paths and values as it has, from the numbers it starts with on. -/
theorem uses_condition : ∀ (f : Filter) {c : Condition}, condition f = .ok c → ∀ n v : Nat,
    Uses (c.text n v) (List.range' n c.paths.length) (List.range' v c.values.length)
  | .condition field op value, _, h, n, v => by
    obtain ⟨c, hc, h⟩ := bind_eq_ok_iff.mp h
    obtain rfl := pure_eq_ok_iff.mp h
    have hall : List.Forall₂ (fun b c => comparison b.1 b.2 = .ok c) [(op, value)] [c] :=
      .cons hc .nil
    exact uses_compare hall (List.cons_ne_nil c []) field.path n v
  | .range r, _, h, n, v => by
    obtain ⟨comparisons, hall, hne, rfl⟩ := rangeCondition_eq_ok_iff.mp h
    exact uses_compare hall hne r.field.path n v
  | .presence _ present, _, h, n, _ => by
    cases h
    exact uses_presence n present
  | .group _ conditions, _, h, n, v => by
    obtain ⟨joiner, parts, -, hparts, rfl⟩ := condition_group_eq_ok_iff.mp h
    exact (usesAll_conditions conditions hparts n v).intercalate (separates_joiner joiner)
      (List.forall_mem_singleton.mpr (plain_keyword joiner))
  | .regex .., _, h, _, _ | .textSearch _, _, h, _, _ | .geo _, _, h, _, _ | .array .., _, h, _, _
  | .elemMatch .., _, h, _, _ => by
    cases h

/-- The next part starts with the numbers that the parts before it have not used. -/
theorem usesAll_conditions : ∀ (fs : List Filter) {cs : List Condition},
    conditionsOfAll fs = .ok cs → ∀ n v : Nat, UsesAll (Condition.textsOfAll n v cs)
      (List.range' n (Condition.pathsOfAll cs).length)
      (List.range' v (Condition.valuesOfAll cs).length)
  | [], _, h, _, _ => by
    cases h
    exact .nil
  | f :: fs, _, h, n, v => by
    obtain ⟨c, cs, hc, hcs, rfl⟩ := conditionsOfAll_cons_eq_ok_iff.mp h
    rw [Condition.pathsOfAll, Condition.valuesOfAll, List.length_append, List.length_append,
      ← List.range'_append_1, ← List.range'_append_1]
    exact .cons (uses_condition f hc n v).parentheses (usesAll_conditions fs hcs _ _)

end

/-! ## Lists of paths and updates -/

theorem separates_comma : Separates ", " [","] where
  ends _ := rfl
  cuts cs := (tokens_mark (by decide) (fun _ => rfl) _).trans (by rw [← tokens_blank cs]; rfl)

theorem separates_blank : Separates " " [] where
  ends := endsWord_blank
  cuts := tokens_blank

theorem UsesAll.listed {ss : List String} {ns vs : List Nat} (h : UsesAll ss ns vs) :
    Uses (", ".intercalate ss) ns vs :=
  h.intercalate separates_comma (by decide)

theorem uses_selection (paths : List String) (start : Nat) :
    Uses (", ".intercalate (paths.zipIdx.map fun p => nameAlias (start + p.2)))
      (List.range' start paths.length) [] := by
  refine UsesAll.listed ?_
  have hnumbers : ∀ i : Nat, UsesAll ((paths.zipIdx i).map fun p => nameAlias (start + p.2))
      (List.range' (start + i) paths.length) [] := by
    induction paths with
    | nil => exact fun _ => .nil
    | cons path paths ih => exact fun i => .cons (uses_nameAlias (start + i)) (ih (i + 1))
  exact hnumbers 0

theorem cuts_set (n v : Nat) :
    Cuts (nameAlias n ++ " = " ++ valueAlias v) [nameAlias n, "=", valueAlias v] := by
  have htext : nameAlias n ++ " = " ++ valueAlias v =
      nameAlias n ++ " " ++ "=" ++ " " ++ valueAlias v := by
    simp [String.append_assoc]
  rw [htext]
  exact cuts_comparison (show sign? .eq = some "=" from rfl) n v

theorem uses_set (n v : Nat) : Uses (nameAlias n ++ " = " ++ valueAlias v) [n] [v] :=
  ⟨_, cuts_set n v, ((Mentions.name n).append (.plain (t := "=") (by decide))).append (.value v)⟩

theorem cuts_add (n v : Nat) :
    Cuts (nameAlias n ++ " = " ++ nameAlias n ++ " + " ++ valueAlias v)
      [nameAlias n, "=", nameAlias n, "+", valueAlias v] := by
  intro rest hrest
  have htext : (nameAlias n ++ " = " ++ nameAlias n ++ " + " ++ valueAlias v).toList ++ rest =
      (nameAlias n).toList ++ ' ' :: ("=".toList ++
        ' ' :: ((nameAlias n).toList ++ ' ' :: '+' :: ' ' :: ((valueAlias v).toList ++ rest))) := by
    simp [String.toList_append]
  rw [htext, cuts_word (isWord_aliasWith .name n) _ (endsWord_blank _), tokens_blank,
    tokens_sign (show sign? .eq = some "=" from rfl), tokens_blank,
    cuts_word (isWord_aliasWith .name n) _ (endsWord_blank _), tokens_blank,
    tokens_mark (by decide) (fun _ => rfl), tokens_blank,
    cuts_word (isWord_aliasWith .value v) rest hrest]
  rfl

/-- An addition names its path twice. -/
theorem uses_add (n v : Nat) :
    Uses (nameAlias n ++ " = " ++ nameAlias n ++ " + " ++ valueAlias v) [n] [v] := by
  have hmentions := ((((Mentions.name n).append (.plain (t := "=") (by decide))).append
    (.name n)).append (.plain (t := "+") (by decide))).append (.value v)
  exact ⟨_, cuts_add n v, hmentions.congr fun i => by simp⟩

/-- Each action is an assignment or a removal; values number the assignments. -/
theorem usesAll_actions (acts : List Action) : ∀ n v : Nat, ∃ ns ns',
    UsesAll (assignmentTexts n v acts) ns (List.range' v (acts.filterMap Action.value?).length) ∧
    UsesAll (removalTexts n acts) ns' [] ∧ (ns ++ ns').Perm (List.range' n acts.length) := by
  induction acts with
  | nil => exact fun _ _ => ⟨[], [], .nil, .nil, .nil⟩
  | cons a acts ih =>
    intro n v
    cases a with
    | set path value =>
      obtain ⟨ns, ns', hassigned, hremoved, hperm⟩ := ih (n + 1) (v + 1)
      exact ⟨n :: ns, ns', .cons (uses_set n v) hassigned, hremoved, hperm.cons n⟩
    | add path value =>
      obtain ⟨ns, ns', hassigned, hremoved, hperm⟩ := ih (n + 1) (v + 1)
      exact ⟨n :: ns, ns', .cons (uses_add n v) hassigned, hremoved, hperm.cons n⟩
    | remove path =>
      obtain ⟨ns, ns', hassigned, hremoved, hperm⟩ := ih (n + 1) v
      exact ⟨ns, n :: ns', hassigned, .cons (uses_nameAlias n) hremoved,
        List.perm_middle.trans (hperm.cons n)⟩

theorem usesAll_clauseText {keyword : String} (hword : IsWord keyword) (hplain : Plain keyword)
    {parts : List String} {ns vs : List Nat} (h : UsesAll parts ns vs) :
    UsesAll (clauseText keyword parts) ns vs := by
  unfold clauseText
  split
  · rename_i hempty
    obtain rfl := List.isEmpty_iff.mp hempty
    cases h
    exact .nil
  · -- the keyword and the list are two texts with a blank between them
    have hkeyword : Uses keyword [] [] := ⟨_, cuts_word hword, .plain hplain⟩
    have hclause := (UsesAll.cons hkeyword (.cons h.listed .nil)).intercalate separates_blank
      (by simp)
    simp only [List.nil_append, List.append_nil, String.intercalate_cons_cons,
      String.intercalate_singleton] at hclause
    have hall := UsesAll.cons hclause .nil
    rwa [List.append_nil, List.append_nil] at hall

/-- An update uses as many paths as it has actions, and as many values as these have. -/
theorem uses_update (acts : List Action) (n v : Nat) : Uses (updateText n v acts)
    (List.range' n acts.length) (List.range' v (acts.filterMap Action.value?).length) := by
  obtain ⟨ns, ns', hassigned, hremoved, hperm⟩ := usesAll_actions acts n v
  have hset := usesAll_clauseText (show IsWord "SET" by decide) (by decide) hassigned
  have hremove := usesAll_clauseText (show IsWord "REMOVE" by decide) (by decide) hremoved
  have hall := (hset.append hremove).intercalate separates_blank (by simp)
  rw [List.append_nil] at hall
  exact hall.congr fun i => hperm.mem_iff

/-! ## Queries -/

/-- The text of a condition that may be missing. -/
def conditionText (c : Option Condition) : String := (c.map fun c => c.text 0 0).getD ""

theorem conditionEntries_eq (key : String) (c : Option Condition) :
    conditionEntries key c =
      Entries.when (!(conditionText c).isEmpty) key (.str (conditionText c)) := rfl

theorem uses_conditionText {q : Query} {c : Option Condition} (h : queryCondition q = .ok c) :
    Uses (conditionText c) (List.range' 0 (pathsOf c).length)
      (List.range' 0 (valuesOf c).length) := by
  unfold queryCondition at h
  cases hf : q.filter with
  | none =>
    rw [hf] at h
    cases h
    exact uses_empty
  | some f =>
    rw [hf] at h
    obtain ⟨c, hc, h⟩ := bind_eq_ok_iff.mp h
    obtain rfl := pure_eq_ok_iff.mp h
    exact uses_condition f hc 0 0

/-- The expressions of a rendered query mention the aliases of the paths and of the values, which
its two maps resolve. -/
structure Aligned (es : Entries) (paths : List String) (values : List Param) : Prop where
  mentions : Mentions (expressionTokens es) (List.range' 0 paths.length)
    (List.range' 0 values.length)
  names : get? "ExpressionAttributeNames" es =
    if !paths.isEmpty then some (.obj (nameMap paths)) else none
  values : get? "ExpressionAttributeValues" es =
    if !values.isEmpty then some (.obj (valueMap values)) else none

theorem expressionTokens_eq (es : Entries) : expressionTokens es =
    tokens (expressionAt "FilterExpression" es).toList ++
      (tokens (expressionAt "ConditionExpression" es).toList ++
        (tokens (expressionAt "UpdateExpression" es).toList ++
          tokens (expressionAt "ProjectionExpression" es).toList)) := by
  simp [expressionTokens, expressionKeys]

theorem tokens_of_none {key : String} {es : Entries} (h : get? key es = none) :
    tokens (expressionAt key es).toList = [] := by
  rw [expressionAt, h]
  rfl

/-- An expression is left out only if it is empty. -/
theorem expressionAt_of_when {key : String} {es : Entries} {s : String} (cond : Bool)
    (hs : cond = false → s = "") (h : get? key es = get? key (Entries.when cond key (.str s))) :
    expressionAt key es = s := by
  rw [expressionAt, h]
  cases cond with
  | false => exact (hs rfl).symm
  | true => simp

theorem expressionAt_condition {key : String} {es : Entries} {c : Option Condition}
    (h : get? key es =
      get? key (Entries.when (!(conditionText c).isEmpty) key (.str (conditionText c)))) :
    expressionAt key es = conditionText c :=
  expressionAt_of_when (!(conditionText c).isEmpty) (fun hempty => by simpa using hempty) h

section Queries

variable {q : Query} {parts : Entries} {ps : List Param}

theorem aligned_find (h : (renderFind q).Gives parts ps) : ∃ paths values,
    Aligned (Dialect.dynamo.header q ++ parts) paths values ∧ ps = values ++ q.limitParams := by
  obtain ⟨c, fields, limit, us, hc, -, hlimit, rfl, rfl⟩ := renderFind_gives.mp h
  have hus := Render.params_of_optional params_of_pagination hlimit
  generalize fields.getD [] = selected
  generalize hes : Dialect.dynamo.header q ++ _ = es
  simp only [Dialect.header, conditionEntries_eq, nameEntries_eq, valueParts] at hes
  refine ⟨pathsOf c ++ selected, valuesOf c, ⟨?_, by simp [← hes], by simp [← hes]⟩, ?_⟩
  · have hfilter : expressionAt "FilterExpression" es = conditionText c :=
      expressionAt_condition (by simp [← hes])
    have hprojection : expressionAt "ProjectionExpression" es =
        ", ".intercalate (selected.zipIdx.map fun p => nameAlias ((pathsOf c).length + p.2)) := by
      refine expressionAt_of_when (!selected.isEmpty) (fun hempty => ?_) (by simp [← hes])
      have hselected : selected = [] := by simpa using hempty
      rw [hselected]
      rfl
    have hall := (uses_conditionText hc).mentions.append
      (uses_selection selected (pathsOf c).length).mentions
    rw [expressionTokens_eq, hfilter, hprojection, tokens_of_none (by simp [← hes]),
      tokens_of_none (by simp [← hes]), List.length_append, ← List.range'_append_1, Nat.zero_add]
    simpa using hall
  · rw [hus, Query.limitParams]

theorem aligned_update (h : (renderUpdate q).Gives parts ps) :
    ∃ c acts, actions q.updates = .ok acts ∧
      expressionAt "UpdateExpression" (Dialect.dynamo.header q ++ parts) =
        updateText (pathsOf c).length (valuesOf c).length acts ∧
      Aligned (Dialect.dynamo.header q ++ parts) (pathsOf c ++ acts.map Action.path) ps ∧
      ps = valuesOf c ++ acts.filterMap Action.value? := by
  obtain ⟨c, acts, hc, hacts, rfl, rfl⟩ := renderUpdate_gives.mp h
  generalize hes : Dialect.dynamo.header q ++ _ = es
  simp only [Dialect.header, conditionEntries_eq, nameEntries_eq, valueParts] at hes
  have hcondition : expressionAt "ConditionExpression" es = conditionText c :=
    expressionAt_condition (by simp [← hes])
  have hupdate : expressionAt "UpdateExpression" es =
      updateText (pathsOf c).length (valuesOf c).length acts :=
    expressionAt_of_when true (by simp) (by simp [← hes])
  refine ⟨c, acts, hacts, hupdate, ⟨?_, by simp [← hes], by simp [← hes]⟩, rfl⟩
  -- the update goes on with the numbers that the condition has not used
  have hall := (uses_conditionText hc).mentions.append
    (uses_update acts (pathsOf c).length (valuesOf c).length).mentions
  rw [expressionTokens_eq, hcondition, hupdate, tokens_of_none (by simp [← hes]),
    tokens_of_none (by simp [← hes]), List.length_append, List.length_append, List.length_map,
    ← List.range'_append_1, ← List.range'_append_1, Nat.zero_add, Nat.zero_add]
  simpa using hall

theorem aligned_delete (h : (renderDelete q).Gives parts ps) :
    ∃ paths, Aligned (Dialect.dynamo.header q ++ parts) paths ps := by
  obtain ⟨c, hc, rfl, rfl⟩ := renderDelete_gives.mp h
  generalize hes : Dialect.dynamo.header q ++ _ = es
  simp only [Dialect.header, conditionEntries_eq, nameEntries_eq, valueParts] at hes
  refine ⟨pathsOf c, ?_, by simp [← hes], by simp [← hes]⟩
  have hcondition : expressionAt "ConditionExpression" es = conditionText c :=
    expressionAt_condition (by simp [← hes])
  rw [expressionTokens_eq, hcondition, tokens_of_none (by simp [← hes]),
    tokens_of_none (by simp [← hes]), tokens_of_none (by simp [← hes])]
  simpa using (uses_conditionText hc).mentions

end Queries

theorem aligned_of_render {q : Query} {r : Rendered}
    (hop : q.operation ∈ [.find, .findOne, .update, .delete]) (h : q.render .dynamo = .ok r) :
    ∃ paths values, Aligned r.entries paths values ∧
      r.params = values ++ if q.operation.isRead then q.limitParams else [] := by
  obtain ⟨parts, hparts, hentries⟩ := Query.parts_of_render h
  have hgives : (renderParts q).Gives parts r.params := hparts
  rw [hentries]
  unfold renderParts at hgives
  cases hq : q.operation with
  | find | findOne =>
    rw [hq] at hgives
    exact aligned_find hgives
  | update =>
    rw [hq] at hgives
    obtain ⟨c, acts, -, -, haligned, -⟩ := aligned_update hgives
    exact ⟨_, r.params, haligned, (List.append_nil r.params).symm⟩
  | delete =>
    rw [hq] at hgives
    obtain ⟨paths, haligned⟩ := aligned_delete hgives
    exact ⟨paths, r.params, haligned, (List.append_nil r.params).symm⟩
  | _ =>
    rw [hq] at hop
    simp at hop

/-! ## Maps of aligned queries -/

theorem mapAt_of_get? {key : String} {es m : Entries} {cond : Bool} (hm : cond = false → m = [])
    (h : get? key es = if cond then some (.obj m) else none) : Aliases.mapAt key es = m := by
  rw [Aliases.mapAt, h]
  cases cond with
  | false => exact (hm rfl).symm
  | true => rfl

namespace Aligned

variable {es : Entries} {paths : List String} {values : List Param}

theorem names_eq (h : Aligned es paths values) : (Aliases.of es).names = nameMap paths :=
  mapAt_of_get? (fun hempty => by simp_all [nameMap]) h.names

theorem values_eq (h : Aligned es paths values) : (Aliases.of es).values = valueMap values :=
  mapAt_of_get? (fun hempty => by simp_all [valueMap]) h.values

theorem hasPaths (h : Aligned es paths values) : (Aliases.of es).HasPaths 0 paths :=
  hasPaths_of fun hne => by simp [h.names, hne]

theorem hasParams (h : Aligned es paths values) : (Aliases.of es).HasParams 0 values :=
  hasParams_of fun hne => by simp [h.values, hne]

end Aligned

theorem keys_nameMap (paths : List String) :
    Entries.keys (nameMap paths) = (List.range paths.length).map nameAlias := by
  rw [Entries.keys, nameMap, List.map_map, List.range_eq_range', ← List.zipIdx_map_snd 0 paths,
    List.map_map]
  rfl

theorem keys_valueMap (values : List Param) :
    Entries.keys (valueMap values) = (List.range values.length).map valueAlias := by
  rw [Entries.keys, valueMap, List.map_map, List.range_eq_range', ← List.zipIdx_map_snd 0 values,
    List.map_map]
  rfl

/-- The aliases of a rendered find, update or deletion are numbered from zero on. Its expressions
mention the aliases that its maps resolve and no others, and each alias of a value once. These stand
for the parameters in their order, after which only the parameter of a limit may follow. -/
theorem aliases_exact {q : Query} {r : Rendered}
    (hop : q.operation ∈ [.find, .findOne, .update, .delete]) (h : q.render .dynamo = .ok r) :
    ∃ k m : Nat,
      Entries.keys (Aliases.of r.entries).names = (List.range k).map nameAlias ∧
      Entries.keys (Aliases.of r.entries).values = (List.range m).map valueAlias ∧
      (get? "ExpressionAttributeNames" r.entries = none ↔ k = 0) ∧
      (get? "ExpressionAttributeValues" r.entries = none ↔ m = 0) ∧
      (∀ t, t ∈ (expressionTokens r.entries).filter isNameToken ↔
        t ∈ Entries.keys (Aliases.of r.entries).names) ∧
      (expressionTokens r.entries).filter isMarked = Entries.keys (Aliases.of r.entries).values ∧
      (∀ i < m, (expressionTokens r.entries).count (valueAlias i) = 1) ∧
      (∀ i < m, ∃ name, r.paramNames[i]? = some name ∧
        get? (valueAlias i) (Aliases.of r.entries).values = some (.str (":" ++ name))) ∧
      r.params.drop m = if q.operation.isRead then q.limitParams else [] := by
  obtain ⟨paths, values, haligned, hparams⟩ := aligned_of_render hop h
  have hmentions := haligned.mentions
  rw [← List.range_eq_range', ← List.range_eq_range'] at hmentions
  rw [haligned.names_eq, haligned.values_eq, keys_nameMap, keys_valueMap]
  refine ⟨paths.length, values.length, rfl, rfl, ?_, ?_, hmentions.names, hmentions.values, ?_, ?_,
    ?_⟩
  · rw [haligned.names]
    cases paths <;> simp
  · rw [haligned.values]
    cases values <;> simp
  · intro i hi
    have hnodup : ((List.range values.length).map valueAlias).Nodup :=
      List.Nodup.map (fun _ _ heq => aliasWith_inj.mp heq) List.nodup_range
    have hcount := List.count_filter (p := isMarked) (l := expressionTokens r.entries)
      (isMarked_aliasWith .value i)
    rw [← hcount, hmentions.values]
    exact List.count_eq_one_of_mem hnodup (List.mem_map.mpr ⟨i, List.mem_range.mpr hi, rfl⟩)
  · intro i hi
    have hvalue : values[i]? = some values[i] := List.getElem?_eq_getElem hi
    refine ⟨values[i].name, ?_, ?_⟩
    · rw [Rendered.paramNames, hparams, List.getElem?_map, List.getElem?_append_left hi, hvalue]
      rfl
    · have hget := get?_numbered .value (fun p : Param => Json.str p.placeholder) (n := 0)
        hvalue
      rw [Nat.zero_add] at hget
      exact hget
  · rw [hparams, List.drop_left]

/-- Names and scores of users of some age that have an address, as many as are asked for. -/
def reachableScorers : List Call :=
  [.filter (.group .and [.range ⟨Users.age, some Users.least, some Users.greatest, false, true⟩,
    .presence Users.email true]), .select [Users.name, Users.scores], .limitParam Users.given]

theorem aliases_exact_reachableScorers :
    ∃ q r k m, ((Builder.start .find Users.collection).run reachableScorers).build = .ok q ∧
      q.operation ∈ [.find, .findOne, .update, .delete] ∧ q.render .dynamo = .ok r ∧
      Entries.keys (Aliases.of r.entries).names = (List.range k).map nameAlias ∧
      (expressionTokens r.entries).filter isMarked = (List.range m).map valueAlias ∧
      r.params.drop m = [Users.given] := by
  obtain ⟨q, hq⟩ : ∃ q,
      ((Builder.start .find Users.collection).run reachableScorers).build = .ok q := ⟨_, rfl⟩
  obtain ⟨⟨r, hr⟩, hop, hlimit⟩ : (∃ r, q.render .dynamo = .ok r) ∧ q.operation = .find ∧
      q.limitParams = [Users.given] := by
    cases hq
    exact ⟨⟨_, rfl⟩, rfl, rfl⟩
  have hmem : q.operation ∈ [.find, .findOne, .update, .delete] := by
    rw [hop]
    decide
  obtain ⟨k, m, hnames, hvalues, -, -, -, hmarked, -, -, hrest⟩ := aliases_exact hmem hr
  rw [hop, hlimit] at hrest
  exact ⟨q, r, k, m, hq, hmem, hr, hnames, hmarked.trans hvalues, hrest⟩

end DocumentQuery.Dynamo

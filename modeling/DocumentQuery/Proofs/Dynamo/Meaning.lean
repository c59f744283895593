import DocumentQuery.Proofs.Dynamo.Aliases
import DocumentQuery.Proofs.Entries
import DocumentQuery.Proofs.FilterFormula
/-!
# What condition expressions say

The text of a condition, cut into tokens, is an expression of the grammar, and
it says what the filter says. Two facts go through the induction together: how
the text is cut, and what the tokens are read as (`Reads`). A part of a group
stands in parentheses, so it is an operand whatever it is inside; only the
root of a filter stands bare.

Results:
* `condition_isOk_iff`: which filters have a condition.
* `reads_condition`: the condition of a filter says what the filter says.
* `condition_keeps_meaning`: the same of the text and the two maps.
-/
namespace DocumentQuery.Dynamo

open Formula (Same)

/-! ## Tests -/

theorem ofSign?_of_sign? {op : FilterOperator} {sign : String} (h : sign? op = some sign) :
    ofSign? sign = some op := by
  cases op <;> cases h <;> decide

theorem sign_ne_opening {op : FilterOperator} {sign : String} (h : sign? op = some sign) :
    sign ≠ "(" := by
  cases op <;> cases h <;> decide

theorem isWord_ne_opening {s : String} (h : IsWord s) : s ≠ "(" := by
  intro heq
  subst heq
  revert h
  decide

/-- A test is an operand. -/
theorem isOperand_of_test {a : Aliases} {us : List String} {φ : Formula} {t : String}
    (hhead : us.head? = some t) (hword : IsWord t)
    (htest : ∀ rest, test? a (us ++ rest) = some (φ, rest)) : IsOperand a us φ := by
  intro n rest hn
  cases us with
  | nil => cases hhead
  | cons u us =>
    obtain rfl : u = t := by simpa using hhead
    rw [List.length_cons] at hn
    obtain ⟨n, rfl⟩ : ∃ m, n = m + 1 := ⟨n - 1, by omega⟩
    have hafter : after? "(" (u :: us ++ rest) = none := by
      simp [after?, isWord_ne_opening hword]
    rw [operand, hafter]
    exact htest rest

section Tests

variable {a : Aliases} {n v : Nat} {path : String}

theorem isOperand_comparison {op : FilterOperator} {sign : String} {p : Param}
    (hpath : a.path? (nameAlias n) = some path) (hsign : sign? op = some sign)
    (hvalue : a.param? (valueAlias v) = some p) :
    IsOperand a [nameAlias n, sign, valueAlias v] (.atom (.test path op p none)) := by
  refine isOperand_of_test rfl (isWord_aliasWith .name n) fun rest => ?_
  simp [test?, sign_ne_opening hsign, hpath, ofSign?_of_sign? hsign, hvalue]

theorem cuts_comparison {op : FilterOperator} {sign : String} (hsign : sign? op = some sign)
    (n v : Nat) :
    Cuts (nameAlias n ++ " " ++ sign ++ " " ++ valueAlias v)
      [nameAlias n, sign, valueAlias v] := by
  intro rest hrest
  have htext : (nameAlias n ++ " " ++ sign ++ " " ++ valueAlias v).toList ++ rest =
      (nameAlias n).toList ++ ' ' :: (sign.toList ++ ' ' :: ((valueAlias v).toList ++ rest)) := by
    simp [String.toList_append]
  rw [htext, cuts_word (isWord_aliasWith .name n) _ (endsWord_blank _), tokens_blank,
    tokens_sign hsign, tokens_blank, cuts_word (isWord_aliasWith .value v) rest hrest]
  rfl

theorem isWord_presenceFunction (present : Bool) :
    IsWord (Condition.presenceFunction present) := by
  cases present <;> decide

theorem isOperand_presence (hpath : a.path? (nameAlias n) = some path) (present : Bool) :
    IsOperand a [Condition.presenceFunction present, "(", nameAlias n, ")"]
      (.atom (.presence path present)) := by
  refine isOperand_of_test rfl (isWord_presenceFunction present) fun rest => ?_
  have hfunction : ofFunction? (Condition.presenceFunction present) = some present := by
    cases present <;> rfl
  simp [test?, hfunction, hpath, after?]

theorem cuts_presence (n : Nat) (present : Bool) :
    Cuts (Condition.presenceFunction present ++ "(" ++ nameAlias n ++ ")")
      [Condition.presenceFunction present, "(", nameAlias n, ")"] := by
  intro rest _
  have htext : (Condition.presenceFunction present ++ "(" ++ nameAlias n ++ ")").toList ++ rest =
      (Condition.presenceFunction present).toList ++
        '(' :: ((nameAlias n).toList ++ ')' :: rest) := by
    simp [String.toList_append]
  rw [htext, cuts_word (isWord_presenceFunction present) _ (endsWord_opening _), tokens_opening,
    cuts_word (isWord_aliasWith .name n) _ (endsWord_closing rest), tokens_closing]
  rfl

end Tests

/-! ## Conditions -/

theorem comparison_eq_ok_iff {op : FilterOperator} {value : Param} {c : String × Param} :
    comparison op value = .ok c ↔ sign? op = some c.1 ∧ c.2 = value := by
  obtain ⟨sign, p⟩ := c
  unfold comparison
  cases sign? op with
  | none => simp
  | some s =>
    simp only [Except.ok.injEq, Prod.mk.injEq, Option.some.injEq]
    exact and_congr_right fun _ => eq_comm

theorem rangeCondition_eq_ok_iff {r : RangeFilter} {c : Condition} :
    rangeCondition r = .ok c ↔ ∃ comparisons,
      List.Forall₂ (fun b c => comparison b.1 b.2 = .ok c) r.bounds comparisons ∧
      comparisons ≠ [] ∧ c = .compare r.field.path comparisons := by
  simp only [rangeCondition, bind_eq_ok_iff, mapM_eq_ok_iff]
  refine exists_congr fun comparisons => and_congr_right fun _ => ?_
  cases comparisons with
  | nil => simp
  | cons b bs => simp [eq_comm]

theorem condition_group_eq_ok_iff {logic : LogicOperator} {conditions : List Filter}
    {c : Condition} :
    condition (.group logic conditions) = .ok c ↔ ∃ joiner parts,
      Joiner.ofLogic? logic = some joiner ∧ conditionsOfAll conditions = .ok parts ∧
        c = .group joiner parts := by
  rw [condition]
  cases h : Joiner.ofLogic? logic with
  | none => simp
  | some joiner =>
    simp only [bind_eq_ok_iff, pure_eq_ok_iff, Option.some.injEq, exists_and_left, exists_eq_left']

theorem conditionsOfAll_cons_eq_ok_iff {f : Filter} {fs : List Filter} {cs : List Condition} :
    conditionsOfAll (f :: fs) = .ok cs ↔ ∃ c ds, condition f = .ok c ∧
      conditionsOfAll fs = .ok ds ∧ cs = c :: ds := by
  simp only [conditionsOfAll, bind_eq_ok_iff, pure_eq_ok_iff]
  constructor
  · intro h
    obtain ⟨c, hc, ds, hds, rfl⟩ := h
    exact ⟨c, ds, hc, hds, rfl⟩
  · intro h
    obtain ⟨c, ds, hc, hds, rfl⟩ := h
    exact ⟨c, hc, ds, hds, rfl⟩

/-! ## Which filters have a condition -/

/-- The filter, apart from those below it, can be written as a condition. -/
def Expressible : Filter → Prop
  | .condition _ operator _ => operator.isComparison = true
  | .range r => r.bounds ≠ []
  | .presence .. => True
  | .group logic _ => logic = .and ∨ logic = .or
  | _ => False

theorem comparison_isOk_iff {op : FilterOperator} {value : Param} :
    (∃ c, comparison op value = .ok c) ↔ op.isComparison = true := by
  simp only [comparison_eq_ok_iff]
  rw [← sign?_isSome_iff, Option.isSome_iff_exists]
  exact ⟨fun ⟨c, h, _⟩ => ⟨c.1, h⟩, fun ⟨sign, h⟩ => ⟨(sign, value), h, rfl⟩⟩

theorem joiner_isSome_iff {logic : LogicOperator} :
    (∃ joiner, Joiner.ofLogic? logic = some joiner) ↔ logic = .and ∨ logic = .or := by
  cases logic <;> simp [Joiner.ofLogic?]

theorem isComparison_of_mem_bounds {r : RangeFilter} {b : FilterOperator × Param}
    (h : b ∈ r.bounds) : b.1.isComparison = true := by
  obtain ⟨field, min, max, minExclusive, maxExclusive⟩ := r
  simp only [RangeFilter.bounds, List.mem_append, Option.mem_toList, Option.map_eq_some_iff] at h
  rcases h with ⟨p, -, rfl⟩ | ⟨p, -, rfl⟩
  · cases minExclusive <;> rfl
  · cases maxExclusive <;> rfl

theorem rangeCondition_isOk_iff {r : RangeFilter} :
    (∃ c, rangeCondition r = .ok c) ↔ r.bounds ≠ [] := by
  simp only [rangeCondition_eq_ok_iff]
  constructor
  · rintro ⟨c, comparisons, h, hne, -⟩ hnil
    rw [hnil, List.forall₂_nil_left_iff] at h
    exact hne h
  · intro hne
    have hbound : ∀ b ∈ r.bounds, comparison b.1 b.2 = .ok ((sign? b.1).getD "", b.2) := by
      intro b hb
      obtain ⟨sign, hsign⟩ := Option.isSome_iff_exists.mp
        ((sign?_isSome_iff b.1).mpr (isComparison_of_mem_bounds hb))
      simp [comparison, hsign]
    refine ⟨_, r.bounds.map fun b => ((sign? b.1).getD "", b.2), ?_, by simpa using hne, rfl⟩
    rw [List.forall₂_map_right_iff, List.forall₂_same]
    exact hbound

mutual

/-- A filter has a condition exactly if each of its nodes can be written as one. -/
theorem condition_isOk_iff :
    ∀ f : Filter, (∃ c, condition f = .ok c) ↔ ∀ g ∈ f.nodes, Expressible g
  | .condition field op value => by
    simp only [Filter.nodes, List.forall_mem_singleton, Expressible, condition, bind_eq_ok_iff,
      pure_eq_ok_iff]
    rw [← @comparison_isOk_iff op value]
    exact ⟨fun ⟨_, c, h, _⟩ => ⟨c, h⟩, fun ⟨c, h⟩ => ⟨_, c, h, rfl⟩⟩
  | .group logic conditions => by
    rw [Filter.forall_nodes_group, ← conditionsOfAll_isOk_iff conditions]
    simp only [condition_group_eq_ok_iff, Expressible, ← joiner_isSome_iff]
    constructor
    · intro h'
      obtain ⟨_, joiner, parts, hjoiner, hparts, -⟩ := h'
      exact ⟨⟨joiner, hjoiner⟩, ⟨parts, hparts⟩⟩
    · intro h'
      obtain ⟨⟨joiner, hjoiner⟩, ⟨parts, hparts⟩⟩ := h'
      exact ⟨_, joiner, parts, hjoiner, hparts, rfl⟩
  | .range r => by
    simp only [Filter.nodes, List.forall_mem_singleton, Expressible, condition]
    exact rangeCondition_isOk_iff
  | .presence field present => by
    simp [Filter.nodes, Expressible, condition]
  | .elemMatch field conditions => by
    rw [Filter.forall_nodes_elemMatch]
    simp [Expressible, condition]
  | .regex .. | .textSearch _ | .geo _ | .array .. => by
    simp [Filter.nodes, Expressible, condition]

theorem conditionsOfAll_isOk_iff : ∀ fs : List Filter,
    (∃ cs, conditionsOfAll fs = .ok cs) ↔ ∀ g ∈ Filter.nodesOfAll fs, Expressible g
  | [] => by simp [conditionsOfAll, Filter.nodesOfAll]
  | f :: fs => by
    rw [Filter.forall_nodesOfAll_cons, ← condition_isOk_iff f, ← conditionsOfAll_isOk_iff fs]
    simp only [conditionsOfAll_cons_eq_ok_iff]
    constructor
    · intro h
      obtain ⟨_, c, ds, hc, hds, -⟩ := h
      exact ⟨⟨c, hc⟩, ⟨ds, hds⟩⟩
    · intro h
      obtain ⟨⟨c, hc⟩, ⟨ds, hds⟩⟩ := h
      exact ⟨_, c, ds, hc, hds, rfl⟩

end

/-! ## Reading a condition -/

/-- The text is cut into an expression that says `φ`. -/
def Reads (a : Aliases) (text : String) (φ : Formula) : Prop :=
  ∃ us ψ, Cuts text us ∧ IsDisjunction a us ψ ∧ Same ψ φ

/-- The text is cut into an operand that says `φ`. -/
def ReadsOperand (a : Aliases) (text : String) (φ : Formula) : Prop :=
  ∃ us ψ, Cuts text us ∧ IsOperand a us ψ ∧ Same ψ φ

variable {a : Aliases}

theorem Reads.operand {text : String} {φ : Formula} (h : Reads a text φ) :
    ReadsOperand a ("(" ++ text ++ ")") φ := by
  obtain ⟨us, ψ, hcuts, hreads, hsame⟩ := h
  exact ⟨_, ψ, cuts_parentheses hcuts, hreads.operand, hsame⟩

/-- Operands with a joiner between them say what they say together. -/
theorem reads_joined (joiner : Joiner) {texts : List String} {φs : List Formula}
    (h : List.Forall₂ (ReadsOperand a) texts φs) (hne : texts ≠ []) :
    Reads a (joiner.text.intercalate texts)
      (match joiner with | .and => .all φs | .or => .any φs) := by
  obtain ⟨uss, ψs, hcuts, hreads, hsame⟩ : ∃ uss ψs, List.Forall₂ Cuts texts uss ∧
      List.Forall₂ (IsOperand a) uss ψs ∧ List.Forall₂ Same ψs φs := by
    clear hne
    induction h with
    | nil => exact ⟨[], [], .nil, .nil, .nil⟩
    | cons h _ ih =>
      obtain ⟨us, ψ, hcuts, hreads, hsame⟩ := h
      obtain ⟨uss, ψs, hcutss, hreadss, hsames⟩ := ih
      exact ⟨us :: uss, ψ :: ψs, .cons hcuts hcutss, .cons hreads hreadss, .cons hsame hsames⟩
  have huss : uss ≠ [] := by
    intro heq
    subst heq
    cases hcuts
    exact hne rfl
  cases joiner with
  | and =>
    obtain ⟨φ, hφ, hconj⟩ := conjunction_of_operands hreads huss
    exact ⟨_, φ, cuts_joined .and hcuts, hconj.disjunction, hφ.trans (Same.all_congr hsame)⟩
  | or =>
    obtain ⟨φ, hφ, hdisj⟩ := disjunction_of_operands hreads huss
    exact ⟨_, φ, cuts_joined .or hcuts, hdisj, hφ.trans (Same.any_congr hsame)⟩

theorem readsOperand_comparisons {path : String} {n : Nat}
    (hpath : a.path? (nameAlias n) = some path) {bs : List (FilterOperator × Param)}
    {cs : List (String × Param)}
    (h : List.Forall₂ (fun b c => comparison b.1 b.2 = .ok c) bs cs) :
    ∀ {v : Nat}, a.HasParams v (cs.map Prod.snd) →
      List.Forall₂ (ReadsOperand a) (Condition.comparisonTexts n v cs)
        (bs.map fun b => .atom (.test path b.1 b.2 none)) := by
  induction h with
  | nil => exact fun _ => .nil
  | @cons b c bs cs hbc _ ih =>
    intro v hvalues
    obtain ⟨sign, p⟩ := c
    obtain ⟨hsign, rfl⟩ := comparison_eq_ok_iff.mp hbc
    have hcomparison := isOperand_comparison hpath hsign hvalues.head
    exact .cons ⟨_, _, cuts_comparison hsign n v, hcomparison, Same.refl _⟩ (ih hvalues.tail)

theorem reads_comparisons {path : String} {n v : Nat}
    (hpath : a.path? (nameAlias n) = some path) {bs : List (FilterOperator × Param)}
    {cs : List (String × Param)}
    (h : List.Forall₂ (fun b c => comparison b.1 b.2 = .ok c) bs cs) (hne : cs ≠ [])
    (hvalues : a.HasParams v (cs.map Prod.snd)) :
    Reads a ((Condition.compare path cs).text n v)
      (.all (bs.map fun b => .atom (.test path b.1 b.2 none))) := by
  have hreads := readsOperand_comparisons hpath h hvalues
  refine reads_joined .and hreads ?_
  cases cs with
  | nil => exact absurd rfl hne
  | cons c cs => simp [Condition.comparisonTexts]

mutual

/-- The condition of a filter says what the filter says, wherever its aliases start. -/
theorem reads_condition : ∀ (f : Filter) {c : Condition} {n v : Nat}, condition f = .ok c →
    (∀ g ∈ f.nodes, ¬ g.IsEmptyGroup) → a.HasPaths n c.paths → a.HasParams v c.values →
      Reads a (c.text n v) f.formula
  | .condition field op value, _, n, v, h, _, hpaths, hvalues => by
    obtain ⟨c, hc, rfl⟩ : ∃ c, comparison op value = .ok c ∧ _ = Condition.compare field.path [c] :=
      by simpa only [condition, bind_eq_ok_iff, pure_eq_ok_iff] using h
    have hall : List.Forall₂ (fun b c => comparison b.1 b.2 = .ok c) [(op, value)] [c] :=
      .cons hc .nil
    obtain ⟨us, ψ, hcuts, hreads, hsame⟩ :=
      reads_comparisons hpaths.head hall (by simp) hvalues
    exact ⟨us, ψ, hcuts, hreads, hsame.trans (Same.all_singleton _)⟩
  | .range r, _, n, v, h, _, hpaths, hvalues => by
    obtain ⟨comparisons, hall, hne, rfl⟩ := rangeCondition_eq_ok_iff.mp h
    exact reads_comparisons hpaths.head hall hne hvalues
  | .presence field present, _, n, v, h, _, hpaths, _ => by
    obtain rfl : _ = Condition.presence field.path present := by
      simpa [condition, eq_comm] using h
    exact ⟨_, _, cuts_presence n present,
      (isOperand_presence hpaths.head present).conjunction.disjunction, Same.refl _⟩
  | .group logic conditions, _, n, v, h, hnodes, hpaths, hvalues => by
    obtain ⟨joiner, parts, hjoiner, hparts, rfl⟩ := condition_group_eq_ok_iff.mp h
    rw [Filter.forall_nodes_group] at hnodes
    obtain ⟨hnonempty, hnodes⟩ := hnodes
    have hreads := readsOperand_conditions conditions hparts hnodes hpaths hvalues
    have hne : Condition.textsOfAll n v parts ≠ [] := by
      intro hnil
      rw [hnil, List.forall₂_nil_left_iff, Filter.formulas_eq, List.map_eq_nil_iff] at hreads
      exact hnonempty hreads
    have hjoined := reads_joined joiner hreads hne
    cases logic with
    | and =>
      cases hjoiner
      exact hjoined
    | or =>
      cases hjoiner
      exact hjoined
    | nor => cases hjoiner
    | not => cases hjoiner
  | .regex .., _, _, _, h, _, _, _ | .textSearch _, _, _, _, h, _, _, _
  | .geo _, _, _, _, h, _, _, _ | .array .., _, _, _, h, _, _, _
  | .elemMatch .., _, _, _, h, _, _, _ => by
    simp [condition] at h

/-- The parts of a group say what the filters say, one by one. -/
theorem readsOperand_conditions : ∀ (fs : List Filter) {cs : List Condition} {n v : Nat},
    conditionsOfAll fs = .ok cs → (∀ g ∈ Filter.nodesOfAll fs, ¬ g.IsEmptyGroup) →
      a.HasPaths n (Condition.pathsOfAll cs) → a.HasParams v (Condition.valuesOfAll cs) →
        List.Forall₂ (ReadsOperand a) (Condition.textsOfAll n v cs) (Filter.formulas fs)
  | [], _, _, _, h, _, _, _ => by
    cases h
    exact .nil
  | f :: fs, _, n, v, h, hnodes, hpaths, hvalues => by
    obtain ⟨c, cs, hc, hcs, rfl⟩ := conditionsOfAll_cons_eq_ok_iff.mp h
    rw [Filter.forall_nodesOfAll_cons] at hnodes
    obtain ⟨hf, hfs⟩ := hnodes
    have hfirst := reads_condition f hc hf hpaths.left hvalues.left
    exact .cons hfirst.operand (readsOperand_conditions fs hcs hfs hpaths.right hvalues.right)

end

theorem read_of_reads {text : String} {φ : Formula} (h : Reads a text φ) :
    ∃ ψ, read a text = some ψ ∧ Same ψ φ := by
  obtain ⟨us, ψ, hcuts, hreads, hsame⟩ := h
  have hdisjunction := hreads (2 * us.length + 2) [] (Nat.le_refl _) rfl rfl
  rw [List.append_nil] at hdisjunction
  refine ⟨ψ, ?_, hsame⟩
  simp only [read, hcuts.tokens_eq, hdisjunction]

theorem hasPaths_nameEntries (paths : List String) (es : Entries) :
    (Aliases.of (nameEntries paths ++ es)).HasPaths 0 paths := by
  refine hasPaths_of fun hne => ?_
  rw [nameEntries_eq]
  simp [hne]

theorem hasParams_valueEntries (paths : List String) {values : List Param} {es : Entries}
    {ps : List Param} (h : (valueEntries values).Gives es ps) :
    (Aliases.of (nameEntries paths ++ es)).HasParams 0 values := by
  obtain ⟨rfl, -⟩ := valueEntries_gives.mp h
  refine hasParams_of fun hne => ?_
  rw [nameEntries_eq]
  simp [hne]

/-- A filter without empty groups has a condition exactly if each of its nodes can be written as
one. The text of the condition is then an expression that says what the filter says, with aliases
resolved through the maps beside it, whichever other aliases follow there. -/
theorem condition_keeps_meaning {f : Filter} (hgroups : ∀ g ∈ f.nodes, ¬ g.IsEmptyGroup) :
    ((∃ c, condition f = .ok c) ↔ ∀ g ∈ f.nodes, Expressible g) ∧
    ∀ c, condition f = .ok c → ∀ (paths : List String) (values : List Param),
      ∃ es, valueEntries (c.values ++ values) = .ok (es, c.values ++ values) ∧
      ∃ φ, read (.of (nameEntries (c.paths ++ paths) ++ es)) (c.text 0 0) = some φ ∧
        ∀ {δ : Type} (I : Interpretation δ) (d : δ), φ.holds I d = f.formula.holds I d := by
  refine ⟨condition_isOk_iff f, fun c hc paths values => ?_⟩
  obtain ⟨es, hes⟩ : ∃ es, (valueEntries (c.values ++ values)).Gives es (c.values ++ values) :=
    ⟨_, valueEntries_gives.mpr ⟨rfl, rfl⟩⟩
  have hpaths := (hasPaths_nameEntries (c.paths ++ paths) es).left
  have hvalues := (hasParams_valueEntries (c.paths ++ paths) hes).left
  obtain ⟨φ, hread, hsame⟩ := read_of_reads (reads_condition f hc hgroups hpaths hvalues)
  exact ⟨es, hes, φ, hread, hsame.holds⟩

/-- Users of some age, or with an address and a status that is not the given one. -/
def admitted : Filter :=
  .group .or [.range ⟨Users.age, some Users.least, some Users.greatest, false, true⟩,
    .group .and [.presence Users.email true, .condition Users.status .ne Users.given]]

theorem condition_keeps_meaning_admitted :
    ∃ c es φ, condition admitted = .ok c ∧
      valueEntries (c.values ++ []) = .ok (es, c.values ++ []) ∧
      read (.of (nameEntries (c.paths ++ []) ++ es)) (c.text 0 0) = some φ ∧
      ∀ {δ : Type} (I : Interpretation δ) (d : δ), φ.holds I d = admitted.formula.holds I d := by
  have hgroups : ∀ g ∈ admitted.nodes, ¬ g.IsEmptyGroup := by
    simp [admitted, Filter.nodes, Filter.nodesOfAll, Filter.IsEmptyGroup]
  obtain ⟨hiff, hmeaning⟩ := condition_keeps_meaning hgroups
  obtain ⟨c, hc⟩ := hiff.mpr (by
    simp [admitted, Filter.nodes, Filter.nodesOfAll, Expressible, RangeFilter.bounds,
      FilterOperator.isComparison])
  obtain ⟨es, hes, φ, hread, hsame⟩ := hmeaning c hc [] []
  exact ⟨c, es, φ, hc, hes, hread, hsame⟩

end DocumentQuery.Dynamo

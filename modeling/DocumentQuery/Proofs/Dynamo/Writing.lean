import DocumentQuery.Proofs.BoundParameters
import DocumentQuery.Proofs.WrittenParts
/-!
# What dynamo writes

Expressions are made of aliases, signs and words: no name from the query gets
into them. The paths stand in the map of path aliases, and the parameters in the
map of value aliases, each once.

Main definitions:
* `Opens`: a text that starts with something else than a colon.

Results:
* `composed_condition`, `composed_update`: expressions are made of pieces.
* `writes_parts`: what a query writes below its header.
-/
namespace DocumentQuery.Dynamo

open Render (gives_map)

/-! ## Texts made of pieces -/

namespace Composed

variable {s t : String} {ss : List String}

theorem empty : Composed "" := ⟨[], by simp, rfl⟩

theorem piece (h : Piece s) : Composed s := ⟨[s], by simpa using h, by simp⟩

theorem word (h : s ∈ expressionWords) : Composed s := piece (.word h)

theorem append (hs : Composed s) (ht : Composed t) : Composed (s ++ t) := by
  obtain ⟨ps, hps, rfl⟩ := hs
  obtain ⟨qs, hqs, rfl⟩ := ht
  exact ⟨ps ++ qs, List.forall_mem_append.mpr ⟨hps, hqs⟩, String.join_append.symm⟩

/-- A text of several words. -/
theorem words (ss : List String) (h : ∀ s ∈ ss, s ∈ expressionWords) (hs : s = String.join ss) :
    Composed s :=
  ⟨ss, fun p hp => .word (h p hp), hs⟩

theorem intercalate (hs : Composed s) : ∀ {ss : List String}, (∀ t ∈ ss, Composed t) →
    Composed (s.intercalate ss)
  | [], _ => empty
  | [t], h => by simpa using h t List.mem_cons_self
  | t :: u :: rest, h => by
    obtain ⟨ht, hrest⟩ := List.forall_mem_cons.mp h
    rw [String.intercalate_cons_cons]
    exact (ht.append hs).append (intercalate hs hrest)

end Composed

theorem composed_joiner (joiner : Joiner) : Composed joiner.text := by
  cases joiner with
  | and => exact .words [" ", "AND", " "] (by decide) rfl
  | or => exact .words [" ", "OR", " "] (by decide) rfl

theorem composed_comma : Composed ", " := .words [",", " "] (by decide) rfl

/-! ## The first character -/

/-- The text starts, and not with a colon. -/
def Opens (s : String) : Prop := s ≠ "" ∧ isMarked s = false

instance (s : String) : Decidable (Opens s) := inferInstanceAs (Decidable (_ ∧ _))

theorem Opens.append {s : String} (h : Opens s) (t : String) : Opens (s ++ t) := by
  obtain ⟨hne, hmarked⟩ := h
  refine ⟨fun hempty => hne ?_, (isMarked_append hne t).trans hmarked⟩
  exact (String.append_eq_empty_iff.mp hempty).1

theorem opens_nameAlias (i : Nat) : Opens (nameAlias i) := by
  have hmark : Opens "#n" := by decide
  exact hmark.append (toString i)

theorem isMarked_intercalate (s : String) : ∀ {ss : List String}, (∀ t ∈ ss, Opens t) →
    isMarked (s.intercalate ss) = false
  | [], _ => rfl
  | [t], h => by simpa using (h t List.mem_cons_self).2
  | t :: u :: rest, h => by
    have ht := h t List.mem_cons_self
    rw [String.intercalate_cons_cons]
    exact ((ht.append s).append _).2

/-! ## Conditions -/

theorem sign_mem_words {op : FilterOperator} {sign : String} (h : sign? op = some sign) :
    sign ∈ expressionWords := by
  cases op <;> cases h <;> decide

theorem signs_of_comparisons {bounds : List (FilterOperator × Param)}
    {comparisons : List (String × Param)}
    (h : List.Forall₂ (fun b c => comparison b.1 b.2 = .ok c) bounds comparisons) :
    ∀ c ∈ comparisons, c.1 ∈ expressionWords := by
  induction h with
  | nil => simp
  | cons hc _ ih =>
    obtain ⟨hsign, -⟩ := comparison_eq_ok_iff.mp hc
    exact List.forall_mem_cons.mpr ⟨sign_mem_words hsign, ih⟩

theorem composed_comparisonTexts {comparisons : List (String × Param)}
    (h : ∀ c ∈ comparisons, c.1 ∈ expressionWords) (n v : Nat) :
    ∀ t ∈ Condition.comparisonTexts n v comparisons, Composed t := by
  induction comparisons generalizing v with
  | nil => simp [Condition.comparisonTexts]
  | cons c comparisons ih =>
    obtain ⟨hc, hrest⟩ := List.forall_mem_cons.mp h
    have hspace : Composed " " := .word (by decide)
    refine List.forall_mem_cons.mpr ⟨?_, ih hrest (v + 1)⟩
    exact ((((Composed.piece (.nameAlias n)).append hspace).append (.word hc)).append hspace).append
      (.piece (.valueAlias v))

theorem composed_presence (present : Bool) (n : Nat) :
    Composed (Condition.presenceFunction present ++ "(" ++ nameAlias n ++ ")") := by
  have hfunction : Composed (Condition.presenceFunction present) := by
    cases present <;> exact .word (by decide)
  exact ((hfunction.append (.word (by decide))).append (.piece (.nameAlias n))).append
    (.word (by decide))

mutual

/-- The expression of a filter is made of pieces, whatever numbers its aliases have. -/
theorem composed_condition : ∀ (f : Filter) {c : Condition}, condition f = .ok c → ∀ n v : Nat,
    Composed (c.text n v)
  | .condition _ operator value, _, h, n, v => by
    obtain ⟨c, hc, h⟩ := bind_eq_ok_iff.mp h
    obtain rfl := pure_eq_ok_iff.mp h
    obtain ⟨hsign, -⟩ := comparison_eq_ok_iff.mp hc
    exact (composed_joiner .and).intercalate
      (composed_comparisonTexts (List.forall_mem_singleton.mpr (sign_mem_words hsign)) n v)
  | .group _ conditions, _, h, n, v => by
    obtain ⟨joiner, parts, -, hparts, rfl⟩ := condition_group_eq_ok_iff.mp h
    exact (composed_joiner joiner).intercalate (composed_conditionsOfAll conditions hparts n v)
  | .range r, _, h, n, v => by
    obtain ⟨comparisons, hcomparisons, -, rfl⟩ := rangeCondition_eq_ok_iff.mp h
    exact (composed_joiner .and).intercalate
      (composed_comparisonTexts (signs_of_comparisons hcomparisons) n v)
  | .presence _ present, _, h, n, _ => by
    cases h
    exact composed_presence present n
  | .regex .., _, h, _, _ | .textSearch _, _, h, _, _ | .geo _, _, h, _, _ | .array .., _, h, _, _
  | .elemMatch .., _, h, _, _ => by
    cases h

theorem composed_conditionsOfAll : ∀ (fs : List Filter) {cs : List Condition},
    conditionsOfAll fs = .ok cs → ∀ n v : Nat, ∀ t ∈ Condition.textsOfAll n v cs, Composed t
  | [], _, h, n, v => by
    cases h
    simp [Condition.textsOfAll]
  | f :: fs, _, h, n, v => by
    obtain ⟨c, ds, hc, hds, rfl⟩ := conditionsOfAll_cons_eq_ok_iff.mp h
    refine List.forall_mem_cons.mpr ⟨?_, composed_conditionsOfAll fs hds _ _⟩
    exact ((Composed.word (by decide)).append (composed_condition f hc n v)).append
      (.word (by decide))

end

theorem isMarked_text (c : Condition) (n v : Nat) : isMarked (c.text n v) = false := by
  cases c with
  | compare path comparisons =>
    refine isMarked_intercalate _ ?_
    induction comparisons generalizing v with
    | nil => simp [Condition.comparisonTexts]
    | cons c comparisons ih =>
      refine List.forall_mem_cons.mpr ⟨?_, ih (v + 1)⟩
      exact ((((opens_nameAlias n).append _).append _).append _).append _
  | presence path present =>
    have hfunction : Opens (Condition.presenceFunction present) := by
      cases present <;> decide
    exact (((hfunction.append _).append _).append _).2
  | group joiner parts =>
    refine isMarked_intercalate _ ?_
    induction parts generalizing n v with
    | nil => simp [Condition.textsOfAll]
    | cons c parts ih =>
      have hopening : Opens "(" := by decide
      refine List.forall_mem_cons.mpr ⟨(hopening.append _).append _, ih _ _⟩

/-! ## Updates -/

theorem composed_assignmentTexts (acts : List Action) (n v : Nat) :
    ∀ t ∈ assignmentTexts n v acts, Composed t := by
  have hequals : Composed " = " := .words [" ", "=", " "] (by decide) rfl
  have hplus : Composed " + " := .words [" ", "+", " "] (by decide) rfl
  induction acts generalizing n v with
  | nil => simp [assignmentTexts]
  | cons a acts ih =>
    cases a with
    | set path value =>
      refine List.forall_mem_cons.mpr ⟨?_, ih (n + 1) (v + 1)⟩
      exact ((Composed.piece (.nameAlias n)).append hequals).append (.piece (.valueAlias v))
    | add path value =>
      refine List.forall_mem_cons.mpr ⟨?_, ih (n + 1) (v + 1)⟩
      exact ((((Composed.piece (.nameAlias n)).append hequals).append
        (.piece (.nameAlias n))).append hplus).append (.piece (.valueAlias v))
    | remove path => exact ih (n + 1) v

theorem composed_removalTexts (acts : List Action) (n : Nat) :
    ∀ t ∈ removalTexts n acts, Composed t := by
  induction acts generalizing n with
  | nil => simp [removalTexts]
  | cons a acts ih =>
    cases a with
    | remove path => exact List.forall_mem_cons.mpr ⟨.piece (.nameAlias n), ih (n + 1)⟩
    | set _ _ | add _ _ => exact ih (n + 1)

theorem composed_clauseText {keyword : String} (hkeyword : keyword ∈ expressionWords)
    {parts : List String} (h : ∀ t ∈ parts, Composed t) :
    ∀ t ∈ clauseText keyword parts, Composed t := by
  unfold clauseText
  split
  · simp
  · rw [List.forall_mem_singleton]
    exact ((Composed.word hkeyword).append (.word (by decide))).append
      (composed_comma.intercalate h)

theorem opens_clauseText {keyword : String} (hkeyword : Opens keyword) (parts : List String) :
    ∀ t ∈ clauseText keyword parts, Opens t := by
  unfold clauseText
  split
  · simp
  · rw [List.forall_mem_singleton]
    exact (hkeyword.append _).append _

/-- The expression of an update is made of pieces. -/
theorem composed_update (acts : List Action) (n v : Nat) : Composed (updateText n v acts) := by
  refine (Composed.word (by decide)).intercalate (List.forall_mem_append.mpr ⟨?_, ?_⟩)
  · exact composed_clauseText (by decide) (composed_assignmentTexts acts n v)
  · exact composed_clauseText (by decide) (composed_removalTexts acts n)

theorem isMarked_update (acts : List Action) (n v : Nat) :
    isMarked (updateText n v acts) = false := by
  refine isMarked_intercalate _ (List.forall_mem_append.mpr ⟨?_, ?_⟩)
  · exact opens_clauseText (by decide) _
  · exact opens_clauseText (by decide) _

/-! ## Maps of aliases -/

mutual

theorem valid_of_mem_paths : ∀ (f : Filter) {c : Condition}, condition f = .ok c →
    ∀ path ∈ c.paths, FieldPath.Valid path
  | .condition field _ _, _, h => by
    obtain ⟨c, -, h⟩ := bind_eq_ok_iff.mp h
    obtain rfl := pure_eq_ok_iff.mp h
    exact List.forall_mem_singleton.mpr field.path_valid
  | .group _ conditions, _, h => by
    obtain ⟨joiner, parts, -, hparts, rfl⟩ := condition_group_eq_ok_iff.mp h
    exact valid_of_mem_pathsOfAll conditions hparts
  | .range r, _, h => by
    obtain ⟨comparisons, -, -, rfl⟩ := rangeCondition_eq_ok_iff.mp h
    exact List.forall_mem_singleton.mpr r.field.path_valid
  | .presence field _, _, h => by
    cases h
    exact List.forall_mem_singleton.mpr field.path_valid
  | .regex .., _, h | .textSearch _, _, h | .geo _, _, h | .array .., _, h
  | .elemMatch .., _, h => by
    cases h

theorem valid_of_mem_pathsOfAll : ∀ (fs : List Filter) {cs : List Condition},
    conditionsOfAll fs = .ok cs → ∀ path ∈ Condition.pathsOfAll cs, FieldPath.Valid path
  | [], _, h => by
    cases h
    simp [Condition.pathsOfAll]
  | f :: fs, _, h => by
    obtain ⟨c, ds, hc, hds, rfl⟩ := conditionsOfAll_cons_eq_ok_iff.mp h
    exact List.forall_mem_append.mpr ⟨valid_of_mem_paths f hc, valid_of_mem_pathsOfAll fs hds⟩

end

theorem valid_of_mem_actions {ops : List UpdateOperation} {acts : List Action}
    (h : actions ops = .ok acts) : ∀ a ∈ acts, FieldPath.Valid a.path := by
  have hone : ∀ {operator : UpdateOperator} {es : List (Field × Option Param)} {acts : List Action},
      List.Forall₂ (Action.Makes operator) es acts → ∀ a ∈ acts, FieldPath.Valid a.path := by
    intro operator es acts hmake
    induction hmake with
    | nil => simp
    | @cons e a es acts ha _ ih =>
      refine List.forall_mem_cons.mpr ⟨?_, ih⟩
      rw [ha.1]
      exact e.1.path_valid
  obtain ⟨lists, hlists, rfl⟩ := actions_eq_ok_iff.mp h
  clear h
  induction hlists with
  | nil => simp
  | cons hacts _ ih =>
    rw [List.flatten_cons]
    exact List.forall_mem_append.mpr ⟨hone (operationActions_make hacts), ih⟩

section Maps

variable {whole : Prop} {paths : List String} {values : List Param}

theorem writes_nameEntries (h : ∀ path ∈ paths, FieldPath.Valid path) :
    Writes .dynamo whole (.obj (nameEntries paths)) [] := by
  refine .obj_when (.frame (by decide)) (fun _ => ?_) fun _ => rfl
  have hnone : paths.zipIdx.flatMap (fun _ => ([] : List Param)) = [] := by simp
  rw [← hnone]
  refine .obj_map fun p hp => ⟨.nameAlias rfl p.2, .path (h p.1 ?_)⟩
  exact (List.mem_zipIdx hp).2.2 ▸ List.getElem_mem _

theorem writes_valueParts (values : List Param) :
    Writes .dynamo whole (.obj (valueParts values)) values := by
  refine .obj_when (.frame (by decide)) (fun _ => ?_) fun hempty => by simpa using hempty
  have hentries : Writes .dynamo whole (.obj (valueMap values)) (values.zipIdx.map Prod.fst) :=
    .obj_placeholders fun p _ => .valueAlias rfl p.2
  rwa [List.zipIdx_map_fst] at hentries

end Maps

/-! ## Queries -/

section Queries

variable {whole : Prop} {q : Query} {parts : Entries} {ps : List Param} {c : Option Condition}

theorem writes_text {s : String} (h : Composed s) (hmarked : isMarked s = false) :
    Writes .dynamo whole (.str s) [] :=
  .text (.expression rfl h) hmarked

theorem writes_conditionEntries {key : String} (hkey : Dialect.dynamo.Safe key)
    (h : queryCondition q = .ok c) : Writes .dynamo whole (.obj (conditionEntries key c)) [] := by
  refine .obj_when hkey (fun _ => ?_) fun _ => rfl
  unfold queryCondition at h
  cases hf : q.filter with
  | none =>
    rw [hf] at h
    cases h
    exact writes_text .empty rfl
  | some f =>
    rw [hf] at h
    obtain ⟨c, hc, h⟩ := bind_eq_ok_iff.mp h
    obtain rfl := pure_eq_ok_iff.mp h
    exact writes_text (composed_condition f hc 0 0) (isMarked_text c 0 0)

theorem valid_of_mem_pathsOf (h : queryCondition q = .ok c) :
    ∀ path ∈ pathsOf c, FieldPath.Valid path := by
  unfold queryCondition at h
  cases hf : q.filter with
  | none =>
    rw [hf] at h
    cases h
    simp [pathsOf]
  | some f =>
    rw [hf] at h
    obtain ⟨c, hc, h⟩ := bind_eq_ok_iff.mp h
    obtain rfl := pure_eq_ok_iff.mp h
    exact valid_of_mem_paths f hc

/-- The selected paths by their aliases, which follow those of the condition. -/
theorem writes_projection (start : Nat) (selected : List String) :
    Writes .dynamo whole (.obj (Entries.when (!selected.isEmpty) "ProjectionExpression"
      (.str (", ".intercalate (selected.zipIdx.map fun p => nameAlias (start + p.2)))))) [] := by
  refine .obj_when (.frame (by decide)) (fun _ => writes_text ?_ ?_) fun _ => rfl
  · exact composed_comma.intercalate (List.forall_mem_map.mpr fun p _ => .piece (.nameAlias _))
  · exact isMarked_intercalate _ (List.forall_mem_map.mpr fun p _ => opens_nameAlias _)

theorem writes_find (h : (renderFind q).Gives parts ps) : Writes .dynamo whole (.obj parts) ps := by
  obtain ⟨c, fields, limit, us, hc, hfields, hlimit, rfl, rfl⟩ := renderFind_gives.mp h
  have hpaths : ∀ path ∈ pathsOf c ++ fields.getD [], FieldPath.Valid path :=
    List.forall_mem_append.mpr ⟨valid_of_mem_pathsOf hc, valid_of_selection hfields⟩
  exact ((((writes_conditionEntries (.frame (by decide)) hc).obj_append_plain
    (writes_nameEntries hpaths)).obj_append (writes_valueParts _)).obj_append
      (.obj_optional (.frame (by decide)) Writes.pagination hlimit)).obj_append_plain
        (writes_projection (pathsOf c).length (fields.getD []))

theorem writes_update (h : (renderUpdate q).Gives parts ps) :
    Writes .dynamo whole (.obj parts) ps := by
  obtain ⟨c, acts, hc, hacts, rfl, rfl⟩ := renderUpdate_gives.mp h
  have hpaths : ∀ path ∈ pathsOf c ++ acts.map Action.path, FieldPath.Valid path := by
    refine List.forall_mem_append.mpr ⟨valid_of_mem_pathsOf hc, ?_⟩
    exact List.forall_mem_map.mpr (valid_of_mem_actions hacts)
  exact ((Writes.obj_cons (.frame (by decide))
    (writes_text (composed_update acts _ _) (isMarked_update acts _ _))
    (writes_conditionEntries (.frame (by decide)) hc)).obj_append_plain
      (writes_nameEntries hpaths)).obj_append (writes_valueParts _)

theorem writes_delete (h : (renderDelete q).Gives parts ps) :
    Writes .dynamo whole (.obj parts) ps := by
  obtain ⟨c, hc, rfl, rfl⟩ := renderDelete_gives.mp h
  exact ((writes_conditionEntries (.frame (by decide)) hc).obj_append_plain
    (writes_nameEntries (valid_of_mem_pathsOf hc))).obj_append (writes_valueParts _)

/-- What a query writes below its header. -/
theorem writes_parts (ht : whole → q.Tidy) (h : (renderParts q).Gives parts ps) :
    Writes .dynamo whole (.obj parts) ps := by
  unfold renderParts at h
  unfold Query.Tidy at ht
  cases hop : q.operation with
  | find | findOne =>
    rw [hop] at h
    exact writes_find h
  | insert =>
    rw [hop] at h ht
    simp only [bind_pure_comp, gives_map] at h
    obtain ⟨item, hitem, rfl⟩ := h
    exact writes_first_document (.frame (by decide)) ht hitem
  | update =>
    rw [hop] at h
    exact writes_update h
  | delete =>
    rw [hop] at h
    exact writes_delete h
  | _ =>
    rw [hop] at h
    exact (Render.gives_unsupported.mp h).elim

end Queries

end DocumentQuery.Dynamo

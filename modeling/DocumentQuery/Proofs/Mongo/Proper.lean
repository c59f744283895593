import DocumentQuery.Proofs.FilterFormula
import DocumentQuery.Proofs.Mongo.Objects
/-!
# Rendered filters are proper

The object of a plain filter has no part that filters do not have, and no key
twice, at every depth (`proper_of_gives`). So reading it with `meaning` leaves
nothing out. Merging keeps objects proper (`mergeAll_proper`).

Main definitions:
* `Plain`: filters that cannot be taken for something else once rendered.
-/
namespace DocumentQuery.Mongo

open Entries (keys get?)
open Render (gives_pure)

/-- What `proper_of_gives` asks of each filter in a tree: its path is no operator, a range has a
bound, and a test of location is one. -/
def Plain : Filter → Prop
  | .condition field _ _ | .regex field _ _ | .array field _ _ | .elemMatch field _
  | .presence field _ => isOperatorKey field.path = false
  | .range r => isOperatorKey r.field.path = false ∧ r.bounds ≠ []
  | .geo g => isOperatorKey g.field.path = false ∧ isLocationOperator g.operator = true
  | .group .. | .textSearch _ => True

/-! ## Entries one by one -/

theorem properEntries_iff {es : Entries} :
    properEntries es = true ↔ ∀ e ∈ es, properEntry e.1 e.2 = true := by
  induction es with
  | nil => simp [properEntries]
  | cons e es ih => simp [properEntries, ih]

theorem properOperators_iff {ops : Entries} :
    properOperators ops = true ↔ ∀ e ∈ ops, properOperator e.1 e.2 = true := by
  induction ops with
  | nil => simp [properOperators]
  | cons e ops ih => simp [properOperators, ih]

theorem properAll_iff {vs : List Json} : properAll vs = true ↔ ∀ v ∈ vs, proper v = true := by
  induction vs with
  | nil => simp [properAll]
  | cons v vs ih => simp [properAll, ih]

theorem proper_obj_iff {es : Entries} :
    proper (.obj es) = true ↔
      distinctKeys es = true ∧ ∀ e ∈ es, properEntry e.1 e.2 = true := by
  rw [proper, Bool.and_eq_true, properEntries_iff]

theorem distinctKeys_append {es fs : Entries} (hes : distinctKeys es = true)
    (hfs : distinctKeys fs = true) (hd : disjoint es fs = true) :
    distinctKeys (es ++ fs) = true := by
  simp only [distinctKeys, decide_eq_true_eq] at hes hfs ⊢
  rw [Entries.keys_append, List.nodup_append]
  refine ⟨hes, hfs, fun key hkey key' hkey' he => ?_⟩
  subst he
  exact disjoint_iff.mp hd key hkey' hkey

theorem distinctKeys_insert {key : String} {v : Json} {es : Entries} (h : distinctKeys es = true)
    (hkey : key ∈ keys es) : distinctKeys (Entries.insert key v es) = true := by
  rw [distinctKeys, Entries.keys_insert, if_pos hkey]
  exact h

/-! ## Merging -/

theorem search_mem_keys {ops : Entries} (h : properSearch ops = true) : "$search" ∈ keys ops := by
  simp only [properSearch, Bool.and_eq_true] at h
  obtain ⟨⟨hparam, -⟩, -⟩ := h
  by_contra hnot
  rw [paramAt?, Entries.get?_eq_none_iff.mpr hnot] at hparam
  cases hparam

theorem joinOperators?_proper {key : String} {w v u : Json} (hw : properEntry key w = true)
    (hv : properEntry key v = true) (h : joinOperators? w v = some u) :
    properEntry key u = true := by
  unfold joinOperators? at h
  split at h
  · rename_i es fs
    split at h
    · rename_i hcond
      simp only [Bool.and_eq_true] at hcond
      obtain ⟨-, hd⟩ := hcond
      simp only [Option.some.injEq] at h
      subst h
      unfold properEntry at hw hv ⊢
      by_cases hkey : key = "$text"
      · simp only [hkey, if_true] at hw hv
        -- two searches have the key of their words in common
        exact absurd (search_mem_keys hw) (disjoint_iff.mp hd _ (search_mem_keys hv))
      · simp only [hkey, if_false, Bool.and_eq_true, decide_eq_true_eq] at hw hv ⊢
        obtain ⟨⟨⟨⟨hk, hne⟩, hes⟩, hae⟩, hpe⟩ := hw
        obtain ⟨⟨⟨-, hfs⟩, haf⟩, hpf⟩ := hv
        refine ⟨⟨⟨⟨hk, ?_⟩, distinctKeys_append hes hfs hd⟩, attached_append hae haf⟩, ?_⟩
        · cases es with
          | nil => cases hne
          | cons e es => rfl
        · rw [properOperators_iff] at hpe hpf ⊢
          exact List.forall_mem_append.mpr ⟨hpe, hpf⟩
    · cases h
  · cases h

theorem properEntries_insert {key : String} {u : Json} {es : Entries}
    (hes : ∀ e ∈ es, properEntry e.1 e.2 = true) (hu : properEntry key u = true) :
    ∀ e ∈ Entries.insert key u es, properEntry e.1 e.2 = true := by
  induction es with
  | nil => simpa [Entries.insert] using hu
  | cons e es ih =>
    obtain ⟨k, x⟩ := e
    simp only [List.forall_mem_cons] at hes
    by_cases hk : k = key
    · simp only [Entries.insert, hk, if_true, List.forall_mem_cons]
      exact ⟨hu, hes.2⟩
    · simp only [Entries.insert, hk, if_false, List.forall_mem_cons]
      exact ⟨hes.1, ih hes.2⟩

theorem mergeAt?_proper {key : String} {v : Json} {es es' : Entries}
    (hes : proper (.obj es) = true) (hv : properEntry key v = true)
    (h : mergeAt? es key v = some es') : proper (.obj es') = true := by
  rw [proper_obj_iff] at hes ⊢
  obtain ⟨hdistinct, hall⟩ := hes
  unfold mergeAt? at h
  cases hget : get? key es with
  | none =>
    simp only [hget, Option.some.injEq] at h
    subst h
    refine ⟨distinctKeys_append hdistinct (by simp [distinctKeys, keys]) ?_, ?_⟩
    · simp [disjoint, keys, hget]
    · exact List.forall_mem_append.mpr ⟨hall, by simpa using hv⟩
  | some w =>
    simp only [hget, Option.map_eq_some_iff] at h
    obtain ⟨u, hu, rfl⟩ := h
    have hw : properEntry key w = true := hall _ (Entries.mem_of_get? hget)
    exact ⟨distinctKeys_insert hdistinct (Entries.mem_keys_of_get? hget),
      properEntries_insert hall (joinOperators?_proper hw hv hu)⟩

theorem mergeInto?_proper {fs : Entries} : ∀ {es es' : Entries}, proper (.obj es) = true →
    (∀ f ∈ fs, properEntry f.1 f.2 = true) → mergeInto? es fs = some es' →
    proper (.obj es') = true := by
  induction fs with
  | nil =>
    intro es es' hes _ h
    simp only [mergeInto?, Option.some.injEq] at h
    subst h
    exact hes
  | cons f fs ih =>
    intro es es' hes hfs h
    obtain ⟨key, v⟩ := f
    rw [List.forall_mem_cons] at hfs
    simp only [mergeInto?, Option.bind_eq_some_iff] at h
    obtain ⟨mid, hmid, hrest⟩ := h
    exact ih (mergeAt?_proper hes hfs.1 hmid) hfs.2 hrest

theorem mergeObjects?_proper {vs : List Json} : ∀ {es es' : Entries}, proper (.obj es) = true →
    (∀ v ∈ vs, proper v = true) → mergeObjects? es vs = some es' → proper (.obj es') = true := by
  induction vs with
  | nil =>
    intro es es' hes _ h
    simp only [mergeObjects?, Option.some.injEq] at h
    subst h
    exact hes
  | cons v vs ih =>
    intro es es' hes hvs h
    rw [List.forall_mem_cons] at hvs
    obtain ⟨hv, hvs⟩ := hvs
    cases v with
    | obj fs =>
      simp only [mergeObjects?, Option.bind_eq_some_iff] at h
      obtain ⟨mid, hmid, hrest⟩ := h
      exact ih (mergeInto?_proper hes (proper_obj_iff.mp hv).2 hmid) hvs hrest
    | _ => cases hv

/-- Putting proper objects together gives a proper object. -/
theorem mergeAll_proper {vs : List Json} (hvs : ∀ v ∈ vs, proper v = true) :
    proper (mergeAll vs) = true := by
  unfold mergeAll
  cases h : mergeObjects? [] vs with
  | none =>
    simp only [Json.single, proper_obj_iff, List.forall_mem_singleton, properEntry,
      Bool.and_eq_true, properAll_iff]
    exact ⟨by simp [distinctKeys, keys], rfl, hvs⟩
  | some es => exact mergeObjects?_proper (by simp [proper_obj_iff, distinctKeys, keys]) hvs h

/-! ## Leaves -/

/-- The object of a leaf is proper if its operators are. -/
theorem proper_leaf {path : String} {ops : Entries} (hpath : isOperatorKey path = false)
    (hne : ops ≠ []) (hdistinct : distinctKeys ops = true) (hs : Sound (.obj ops))
    (hops : ∀ e ∈ ops, properOperator e.1 e.2 = true) :
    proper (.single path (.obj ops)) = true := by
  have htext : path ≠ "$text" := by
    intro heq
    subst heq
    cases hpath
  simp only [Json.single, proper_obj_iff, List.forall_mem_singleton, properEntry, htext, if_false,
    hpath, hdistinct, Bool.and_eq_true, properOperators_iff]
  refine ⟨by simp [distinctKeys, keys], ⟨⟨⟨rfl, ?_⟩, trivial⟩, decide_eq_true hs.2⟩, hops⟩
  cases ops with
  | nil => exact absurd rfl hne
  | cons e es => rfl

theorem properOperator_test (op : FilterOperator) (p : Param) :
    properOperator op.token (.str p.placeholder) = true := by
  simp [properOperator, isPlaceholder]

theorem properOperator_tests {ts : List (FilterOperator × Param)} :
    ∀ e ∈ tests ts, properOperator e.1 e.2 = true := by
  intro e he
  obtain ⟨t, -, rfl⟩ := List.mem_map.mp he
  exact properOperator_test t.1 t.2

theorem distinctKeys_bounds (r : RangeFilter) : distinctKeys (tests r.bounds) = true := by
  obtain ⟨field, min, max, minExclusive, maxExclusive⟩ := r
  cases min <;> cases max <;> cases minExclusive <;> cases maxExclusive <;>
    simp [distinctKeys, keys_tests, RangeFilter.bounds, RangeFilter.minOperator,
      RangeFilter.maxOperator, FilterOperator.token]

theorem properOperator_pattern (pattern : Param) (options : Option Param) :
    ∀ e ∈ patternOperators pattern options, properOperator e.1 e.2 = true := by
  have hregex : properOperator "$regex" (.str pattern.placeholder) = true :=
    properOperator_test .regex pattern
  refine List.forall_mem_cons.mpr ⟨hregex, ?_⟩
  cases options <;> simp [Entries.optional, properOperator, isPlaceholder]

theorem distinctKeys_pattern (pattern : Param) (options : Option Param) :
    distinctKeys (patternOperators pattern options) = true := by
  cases options <;> simp [distinctKeys, keys, patternOperators, Entries.optional]

theorem properSearch_operators (t : TextSearch) : properSearch (searchOperators t) = true := by
  obtain ⟨search, language, caseSensitive, diacriticSensitive⟩ := t
  cases language <;> cases caseSensitive <;> cases diacriticSensitive <;>
    simp [properSearch, paramAt?, distinctKeys, keys, searchOperators, Entries.optional,
      Entries.when, isPlaceholder, isFlag]

theorem properLocation_location (g : GeoFilter) (greatest : Option Param) :
    properLocation (location g greatest) = true := by
  rw [properLocation, point?_location]
  cases greatest <;> cases h : g.minDistance <;>
    simp [location, distinctKeys, keys, Entries.optional, isPlaceholder, h]

theorem token_ne_elemMatch {op : FilterOperator} (h : isLocationOperator op = true) :
    op.token ≠ "$elemMatch" := by
  revert h
  cases op <;> decide

theorem properOperator_location {g : GeoFilter} (h : isLocationOperator g.operator = true)
    (greatest : Option Param) :
    properOperator g.operator.token (.obj (location g greatest)) = true := by
  simp [properOperator, token_ne_elemMatch h, h, properLocation_location]

/-! ## Filters -/

mutual

/-- The object of a plain filter is proper. -/
theorem proper_of_gives : ∀ (f : Filter) {v : Json} {ps : List Param},
    (∀ g ∈ f.nodes, Plain g) → (renderFilter f).Gives v ps → proper v = true
  | .condition field operator value, _, _, hplain, h
  | .array field operator value, _, _, hplain, h => by
    obtain ⟨rfl, -⟩ := renderTest_gives.mp h
    exact proper_leaf (hplain _ (Filter.mem_nodes_self _)) (by simp [tests])
      (by simp [distinctKeys, keys_tests]) (sound_tests _) properOperator_tests
  | .group logic conditions, _, _, hplain, h => by
    obtain ⟨hlogic, vs, hvs, rfl⟩ := renderGroup_gives.mp h
    obtain ⟨-, hplain⟩ := Filter.forall_nodes_group.mp hplain
    have hall := properAll_of_gives conditions hplain hvs
    have hconnective : isConnective logic.token = true := by
      cases logic with
      | not => cases hlogic
      | _ => rfl
    simpa [Json.single, proper_obj_iff, properEntry, distinctKeys, keys, hconnective,
      properAll_iff] using hall
  | .range r, _, _, hplain, h => by
    obtain ⟨rfl, -⟩ := renderRange_gives.mp h
    obtain ⟨hpath, hbounds⟩ : Plain (.range r) := hplain _ (Filter.mem_nodes_self _)
    exact proper_leaf hpath (by simpa [tests] using hbounds) (distinctKeys_bounds r)
      (sound_tests _) properOperator_tests
  | .regex field pattern options, _, _, hplain, h => by
    obtain ⟨rfl, -⟩ := renderRegex_gives.mp h
    exact proper_leaf (hplain _ (Filter.mem_nodes_self _)) (by simp [patternOperators])
      (distinctKeys_pattern pattern options) (sound_pattern pattern options)
      (properOperator_pattern pattern options)
  | .textSearch t, _, _, _, h => by
    obtain ⟨rfl, -⟩ := renderTextSearch_gives.mp h
    simp [Json.single, proper_obj_iff, properEntry, distinctKeys, keys, properSearch_operators]
  | .geo g, _, _, hplain, h => by
    obtain ⟨-, rfl, -⟩ := renderGeo_gives.mp h
    obtain ⟨hpath, hoperator⟩ : Plain (.geo g) := hplain _ (Filter.mem_nodes_self _)
    refine proper_leaf hpath (by simp) (by simp [distinctKeys, keys]) (sound_location g _) ?_
    exact List.forall_mem_singleton.mpr (properOperator_location hoperator _)
  | .elemMatch field conditions, _, _, hplain, h => by
    obtain ⟨vs, hvs, rfl⟩ := renderElemMatch_gives.mp h
    obtain ⟨hpath, hplain⟩ := Filter.forall_nodes_elemMatch.mp hplain
    have hmerged := mergeAll_proper (properAll_of_gives conditions hplain hvs)
    cases hobject : mergeAll vs with
    | obj es =>
      rw [hobject, proper, Bool.and_eq_true] at hmerged
      refine proper_leaf hpath (by simp) (by simp [distinctKeys, keys]) ?_ ?_
      · simp [Sound, operatorsOnly, isOperatorKey, Attached, companions, keys]
      · simp [properOperator, hmerged]
    | _ =>
      rw [hobject] at hmerged
      cases hmerged
  | .presence field present, _, _, hplain, h => by
    obtain ⟨rfl, -⟩ := gives_pure.mp h
    exact proper_leaf (hplain _ (Filter.mem_nodes_self _)) (by simp)
      (by simp [distinctKeys, keys]) (sound_presence present) (by simp [properOperator])

theorem properAll_of_gives : ∀ (fs : List Filter) {vs : List Json} {ps : List Param},
    (∀ g ∈ Filter.nodesOfAll fs, Plain g) → (renderFilters fs).Gives vs ps →
      ∀ v ∈ vs, proper v = true
  | [], _, _, _, h => by
    obtain ⟨rfl, -⟩ := gives_pure.mp h
    simp
  | f :: fs, _, _, hplain, h => by
    obtain ⟨v, ws, qs, rs, hv, hws, rfl, rfl⟩ := renderFilters_cons_gives.mp h
    obtain ⟨hf, hfs⟩ := Filter.forall_nodesOfAll_cons.mp hplain
    exact List.forall_mem_cons.mpr ⟨proper_of_gives f hf hv, properAll_of_gives fs hfs hws⟩

end

end DocumentQuery.Mongo

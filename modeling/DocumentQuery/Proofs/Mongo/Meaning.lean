import DocumentQuery.Proofs.Mongo.Proper
/-!
# What rendered filters say

The object of a filter says what the filter says, at every depth
(`meaning_of_gives`). The induction is over the filter; the conditions of an
element match go through `mergeAll_same`, which needs their objects to be sound,
so soundness is proved along.

Results:
* `meaning_of_gives`: a filter and its object have the same truth value on every
  document, and the same atoms.
* `renderFilter_keeps_meaning`: the object of a plain filter is proper, and true
  of the same documents as the filter.
-/
namespace DocumentQuery.Mongo

open Entries (keys get?)
open Formula (Same)
open Render (gives_pure)

/-! ## Objects with one entry -/

/-- The operators of a leaf under its path. -/
theorem meaning_leaf {path : String} {ops : Entries} {φ : Formula} (hs : Sound (.obj ops))
    (h : Same (.all (operatorMeanings path ops ops)) φ) :
    SoundObject (.single path (.obj ops)) ∧ Same (meaning (.single path (.obj ops))) φ := by
  refine ⟨?_, ?_⟩
  · simpa [SoundObject, Json.single] using hs
  · simp only [Json.single, meaning, entryMeanings, entryMeaning]
    exact (Same.all_singleton _).trans h

theorem connective_token {logic : LogicOperator} (h : Dialect.mongo.supportsLogic logic = true)
    (φs : List Formula) : connective logic.token φs = logic.combine φs := by
  cases logic with
  | not => cases h
  | _ => rfl

theorem meaning_group {logic : LogicOperator} (h : Dialect.mongo.supportsLogic logic = true)
    {vs : List Json} {φs : List Formula} (hvs : List.Forall₂ Same (vs.map meaning) φs) :
    SoundObject (.single logic.token (.arr vs)) ∧
      Same (meaning (.single logic.token (.arr vs))) (logic.combine φs) := by
  refine ⟨?_, ?_⟩
  · simp [SoundObject, Json.single, Sound]
  · simp only [Json.single, meaning, entryMeanings, entryMeaning, meanings_eq, connective_token h]
    exact (Same.all_singleton _).trans (LogicOperator.combine_congr logic hvs)

/-- The operand of an element match is not taken for a point. -/
theorem place?_eq_none (path operator : String) {es : Entries} (h : ∀ e ∈ es, Sound e.2) :
    place? path operator es = none := by
  have hpoint : point? es = none := by
    unfold point?
    split
    · rename_i geometry hget
      obtain ⟨hkeys, -⟩ := h _ (Entries.mem_of_get? hget)
      have htype : get? "type" geometry = none := by
        rw [Entries.get?_eq_none_iff]
        intro hmem
        have := List.all_eq_true.mp hkeys _ hmem
        simp [isOperatorKey] at this
      rw [htype]
    · rfl
  simp [place?, hpoint]

theorem meaning_elemMatch (path : String) {v : Json} {φ : Formula} (hs : SoundObject v)
    (h : Same (meaning v) φ) :
    SoundObject (.single path (.single "$elemMatch" v)) ∧
      Same (meaning (.single path (.single "$elemMatch" v))) (.element path φ) := by
  cases v with
  | obj es =>
    refine ⟨?_, ?_⟩
    · simp [SoundObject, Json.single, Sound, operatorsOnly, isOperatorKey, Attached, companions,
        keys]
    · have hop : operatorMeaning path [("$elemMatch", .obj es)] "$elemMatch" (.obj es) =
          [.element path (.all (entryMeanings es))] := by
        simp only [operatorMeaning, operatorAtom?, place?_eq_none _ _ hs, if_true]
      simp only [Json.single, meaning, entryMeanings, entryMeaning, operatorMeanings, hop,
        List.append_nil]
      rw [meaning] at h
      exact (Same.all_singleton _).trans ((Same.all_singleton _).trans (h.element_congr path))
  | _ => exact hs.elim

/-! ## Filters -/

mutual

/-- The object of a filter says what the filter says. -/
theorem meaning_of_gives : ∀ (f : Filter) {v : Json} {ps : List Param},
    (renderFilter f).Gives v ps → SoundObject v ∧ Same (meaning v) f.formula
  | .condition field operator value, _, _, h
  | .array field operator value, _, _, h => by
    obtain ⟨rfl, -⟩ := renderTest_gives.mp h
    refine meaning_leaf (sound_tests _) ?_
    rw [operatorMeanings_tests _ (paramAt?_options_tests _)]
    exact Same.all_singleton _
  | .group logic conditions, _, _, h => by
    obtain ⟨hlogic, vs, hvs, rfl⟩ := renderGroup_gives.mp h
    obtain ⟨-, hsame⟩ := meanings_of_gives conditions hvs
    exact meaning_group hlogic hsame
  | .range r, _, _, h => by
    obtain ⟨rfl, -⟩ := renderRange_gives.mp h
    refine meaning_leaf (sound_tests _) ?_
    rw [operatorMeanings_tests _ (paramAt?_options_tests _)]
    exact Same.refl _
  | .regex field pattern options, _, _, h => by
    obtain ⟨rfl, -⟩ := renderRegex_gives.mp h
    refine meaning_leaf (sound_pattern _ _) ?_
    rw [operatorMeanings_pattern _ (paramAt?_options_pattern _ _)]
    exact Same.all_singleton _
  | .textSearch t, _, _, h => by
    obtain ⟨rfl, -⟩ := renderTextSearch_gives.mp h
    refine meaning_leaf (sound_search t) ?_
    rw [operatorMeanings_search _ (searchWords_search t)]
    exact Same.all_singleton _
  | .geo g, _, _, h => by
    obtain ⟨-, rfl, -⟩ := renderGeo_gives.mp h
    refine meaning_leaf (sound_location g _) ?_
    rw [operatorMeanings, operatorMeaning_location]
    exact Same.all_singleton _
  | .elemMatch field conditions, _, _, h => by
    obtain ⟨vs, hvs, rfl⟩ := renderElemMatch_gives.mp h
    obtain ⟨hs, hsame⟩ := meanings_of_gives conditions hvs
    obtain ⟨hms, hmsame⟩ := mergeAll_same hs
    exact meaning_elemMatch field.path hms (hmsame.trans (Same.all_congr hsame))
  | .presence field present, _, _, h => by
    obtain ⟨rfl, -⟩ := gives_pure.mp h
    refine meaning_leaf (sound_presence present) ?_
    exact Same.all_singleton _

/-- The objects of several filters say what the filters say, one by one. -/
theorem meanings_of_gives : ∀ (fs : List Filter) {vs : List Json} {ps : List Param},
    (renderFilters fs).Gives vs ps →
      (∀ v ∈ vs, SoundObject v) ∧ List.Forall₂ Same (vs.map meaning) (Filter.formulas fs)
  | [], _, _, h => by
    obtain ⟨rfl, -⟩ := gives_pure.mp h
    exact ⟨by simp, .nil⟩
  | f :: fs, _, _, h => by
    obtain ⟨v, ws, qs, rs, hv, hws, rfl, rfl⟩ := renderFilters_cons_gives.mp h
    obtain ⟨hsv, hv⟩ := meaning_of_gives f hv
    obtain ⟨hsws, hws⟩ := meanings_of_gives fs hws
    exact ⟨List.forall_mem_cons.mpr ⟨hsv, hsws⟩, .cons hv hws⟩

end

/-- Rendering a plain filter keeps its meaning: no part of the object is left out in reading it, and
the object is true of a document exactly if the filter is, whatever the atoms mean. -/
theorem renderFilter_keeps_meaning {f : Filter} {v : Json} {ps : List Param}
    (hplain : ∀ g ∈ f.nodes, Plain g) (h : renderFilter f = .ok (v, ps)) :
    proper v = true ∧ ∀ {δ : Type} (I : Interpretation δ) (d : δ),
      (meaning v).holds I d = f.formula.holds I d := by
  obtain ⟨-, hsame⟩ := meaning_of_gives f h
  exact ⟨proper_of_gives f hplain h, hsame.holds⟩

/-- Users with a score whose points are in a range but not the given ones, and whose name is not
like the pattern. The tests of the points end up under one path. -/
def goodScores : Filter :=
  .elemMatch Users.scores
    [.range ⟨Users.points, some Users.least, some Users.greatest, false, true⟩,
      .condition Users.points .ne Users.given,
      .group .nor [.regex Users.name Users.pattern (some Users.flags)]]

theorem renderFilter_keeps_meaning_goodScores :
    ∃ v ps, renderFilter goodScores = .ok (v, ps) ∧ proper v = true ∧
      ∀ {δ : Type} (I : Interpretation δ) (d : δ),
        (meaning v).holds I d = goodScores.formula.holds I d := by
  have hplain : ∀ g ∈ goodScores.nodes, Plain g := by
    simp [goodScores, Filter.nodes, Filter.nodesOfAll, Plain, isOperatorKey, RangeFilter.bounds,
      Users.scores, Users.points, Users.name]
  exact ⟨_, _, rfl, renderFilter_keeps_meaning hplain rfl⟩

end DocumentQuery.Mongo

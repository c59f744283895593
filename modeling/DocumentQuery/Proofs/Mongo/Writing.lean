import DocumentQuery.Proofs.Built
import DocumentQuery.Proofs.Mongo.Stages
import DocumentQuery.Proofs.Writing
/-!
# What mongo writes in filters

The conditions of an element match are put into one object, which has the strings
of the objects it was made from. Everything else in a filter stands under a token
or a checked path.

Main definitions:
* `Gathers`: a value has the strings of other values.

Results:
* `mergeAll_gathers`: merging loses no string value and adds no key but one.
* `writes_filter`: what a filter writes.
-/
namespace DocumentQuery.Mongo

open Entries (keys get?)
open Render (gives_pure)

/-! ## Merged objects -/

/-- The value has the strings of the others: their string values, and no keys but theirs. -/
structure Gathers (v : Json) (vs : List Json) : Prop where
  keys : v.allKeys ⊆ vs.flatMap Json.allKeys
  texts : v.texts.Perm (vs.flatMap Json.texts)

theorem Gathers.append (es fs : Entries) : Gathers (.obj (es ++ fs)) [.obj es, .obj fs] := by
  constructor <;> simp

theorem joinOperators?_gathers {w v u : Json} (h : joinOperators? w v = some u) :
    Gathers u [w, v] := by
  cases w with
  | obj es =>
    cases v with
    | obj fs =>
      simp only [joinOperators?] at h
      split at h
      · injection h with h
        subst h
        exact .append es fs
      · cases h
    | _ => cases h
  | _ => cases h

theorem insert_gathers {key : String} {w v u : Json} {es : Entries} (h : get? key es = some w)
    (hu : Gathers u [w, v]) :
    Gathers (.obj (Entries.insert key u es)) [.obj es, .obj [(key, v)]] := by
  obtain ⟨front, back, rfl, hinsert⟩ := Entries.split_of_get? h
  obtain ⟨hkeys, htexts⟩ := hu
  rw [hinsert]
  constructor
  · intro s hs
    have hgathered := @hkeys s
    simp only [Json.allKeys_obj, List.flatMap_append, List.flatMap_cons, List.flatMap_nil,
      List.mem_append, List.mem_cons, List.not_mem_nil, or_false] at hs hgathered ⊢
    tauto
  · have hmoved : (u.texts ++ back.flatMap fun e => e.2.texts).Perm
        (w.texts ++ ((back.flatMap fun e => e.2.texts) ++ v.texts)) := by
      have huw : u.texts.Perm (w.texts ++ v.texts) := by simpa using htexts
      refine (huw.append_right _).trans ?_
      rw [List.append_assoc]
      exact List.perm_append_comm.append_left w.texts
    simpa using hmoved.append_left (front.flatMap fun e => e.2.texts)

theorem mergeAt?_gathers {key : String} {v : Json} {es fs : Entries}
    (h : mergeAt? es key v = some fs) : Gathers (.obj fs) [.obj es, .obj [(key, v)]] := by
  unfold mergeAt? at h
  cases hget : get? key es with
  | none =>
    rw [hget] at h
    cases h
    exact .append es [(key, v)]
  | some w =>
    rw [hget] at h
    obtain ⟨u, hu, rfl⟩ := Option.map_eq_some_iff.mp h
    exact insert_gathers hget (joinOperators?_gathers hu)

/-- What is gathered in two steps is gathered. -/
theorem Gathers.trans {v w : Json} {vs ws : List Json} (h : Gathers v (w :: vs))
    (hw : Gathers w ws) : Gathers v (ws ++ vs) := by
  constructor
  · refine List.Subset.trans h.keys ?_
    rw [List.flatMap_cons, List.flatMap_append]
    exact List.append_subset.mpr ⟨List.subset_append_of_subset_left _ hw.keys,
      List.subset_append_right ..⟩
  · refine h.texts.trans ?_
    rw [List.flatMap_cons, List.flatMap_append]
    exact hw.texts.append_right _

theorem mergeInto?_gathers : ∀ {fs es gs : Entries}, mergeInto? es fs = some gs →
    Gathers (.obj gs) [.obj es, .obj fs]
  | [], es, _, h => by
    cases h
    have hall := Gathers.append es []
    rwa [List.append_nil] at hall
  | (k, v) :: fs, es, gs, h => by
    obtain ⟨mid, hmid, hrest⟩ := Option.bind_eq_some_iff.mp h
    have hall := (mergeInto?_gathers hrest).trans (mergeAt?_gathers hmid)
    obtain ⟨hkeys, htexts⟩ := hall
    exact ⟨by simpa using hkeys, by simpa using htexts⟩

theorem mergeObjects?_gathers : ∀ {vs : List Json} {es gs : Entries},
    mergeObjects? es vs = some gs → Gathers (.obj gs) (.obj es :: vs)
  | [], es, _, h => by
    cases h
    exact ⟨by simp, by simp⟩
  | .obj fs :: rest, es, gs, h => by
    obtain ⟨mid, hmid, hrest⟩ := Option.bind_eq_some_iff.mp h
    exact (mergeObjects?_gathers hrest).trans (mergeInto?_gathers hmid)
  | .null :: _, _, _, h | .bool _ :: _, _, _, h | .int _ :: _, _, _, h | .str _ :: _, _, _, h
  | .arr _ :: _, _, _, h => by
    cases h

/-- Merged objects have the strings of the objects, and a conjunction has one key more. -/
theorem mergeAll_gathers (vs : List Json) :
    (mergeAll vs).allKeys ⊆ "$and" :: (Json.arr vs).allKeys ∧
      (mergeAll vs).texts.Perm (Json.arr vs).texts := by
  unfold mergeAll
  cases h : mergeObjects? [] vs with
  | none => simp [Json.single]
  | some es =>
    obtain ⟨hkeys, htexts⟩ := mergeObjects?_gathers h
    refine ⟨List.Subset.trans ?_ (List.subset_cons_self ..), by simpa using htexts⟩
    simpa using hkeys

/-! ## Tokens -/

theorem safe_test (op : FilterOperator) : Dialect.mongo.Safe op.token := by
  have hmem : op.token ∈ Dialect.tokensWhere Dialect.mongo.supportsFilter :=
    Dialect.token_mem_tokensWhere rfl
  exact .token (by simp [Dialect.tokens, hmem])

theorem safe_logic {logic : LogicOperator} (h : Dialect.mongo.supportsLogic logic = true) :
    Dialect.mongo.Safe logic.token := by
  have hmem : logic.token ∈ Dialect.tokensWhere Dialect.mongo.supportsLogic :=
    Dialect.token_mem_tokensWhere h
  exact .token (by simp [Dialect.tokens, hmem])

theorem safe_update (op : UpdateOperator) : Dialect.mongo.Safe op.token := by
  have hmem : op.token ∈ Dialect.tokensWhere Dialect.mongo.supportsUpdate :=
    Dialect.token_mem_tokensWhere rfl
  exact .token (by simp [Dialect.tokens, hmem])

theorem safe_stage (kind : StageKind) : Dialect.mongo.Safe kind.token := by
  have hmem : kind.token ∈ Dialect.tokensWhere Dialect.mongo.supportsStage :=
    Dialect.token_mem_tokensWhere rfl
  exact .token (by simp [Dialect.tokens, hmem])

theorem safe_accumulator (op : AccumulatorOperator) : Dialect.mongo.Safe op.token := by
  have hmem : op.token ∈ (Vocabulary.all : List AccumulatorOperator).map Vocabulary.token :=
    List.mem_map_of_mem (Vocabulary.mem_all op)
  exact .token (by simp [Dialect.tokens, hmem])

theorem token_mem_words (operation : Operation) : operation.token ∈ Dialect.mongo.words := by
  have hmem : operation.token ∈ Dialect.tokensWhere Dialect.mongo.supportsOperation :=
    Dialect.token_mem_tokensWhere rfl
  exact List.mem_append_right _ (by simp [Dialect.tokens, hmem])

/-! ## Filters -/

section Filters

variable {whole : Prop}

theorem writes_mergeAll {vs : List Json} {ps : List Param}
    (h : Writes .mongo whole (.arr vs) ps) : Writes .mongo whole (mergeAll vs) ps := by
  obtain ⟨hkeys, htexts⟩ := mergeAll_gathers vs
  refine ⟨fun s hs => ?_, fun s hs => h.texts s (htexts.mem_iff.mp hs), ?_, fun hwhole => ?_⟩
  · rcases List.mem_cons.mp (hkeys hs) with rfl | hs
    · exact (safe_logic rfl : Dialect.mongo.Safe LogicOperator.and.token)
    · exact h.keys s hs
  · exact (htexts.filter isMarked).subperm.trans h.among
  · exact (htexts.filter isMarked).trans (h.all hwhole)

theorem writes_tests (ts : List (FilterOperator × Param)) :
    Writes .mongo whole (.obj (tests ts)) (ts.map Prod.snd) :=
  .obj_placeholders fun t _ => safe_test t.1

theorem writes_pattern (pattern : Param) (options : Option Param) :
    Writes .mongo whole (.obj (patternOperators pattern options)) (pattern :: options.toList) :=
  .obj_cons (safe_test .regex) (.placeholder pattern)
    (.obj_optional_placeholder (.frame (by decide)) options)

theorem writes_search (t : TextSearch) :
    Writes .mongo whole (.obj (searchOperators t)) (t.search :: t.language.toList) := by
  have hwords : Writes .mongo whole (.obj (("$search", .str t.search.placeholder) ::
      Entries.optional "$language" (t.language.map fun p => .str p.placeholder)))
      (t.search :: t.language.toList) :=
    .obj_cons (.frame (by decide)) (.placeholder t.search)
      (.obj_optional_placeholder (.frame (by decide)) t.language)
  have hflag : ∀ (cond : Bool) (key : String), Dialect.mongo.Safe key →
      Writes .mongo whole (.obj (Entries.when cond key (.bool true))) [] :=
    fun cond key hkey => .obj_when hkey (fun _ => .plain rfl rfl) fun _ => rfl
  exact (hwords.obj_append_plain (hflag _ _ (.frame (by decide)))).obj_append_plain
    (hflag _ _ (.frame (by decide)))

theorem writes_location (g : GeoFilter) (greatest : Option Param) :
    Writes .mongo whole (.obj (location g greatest))
      (g.lon :: g.lat :: (greatest.toList ++ g.minDistance.toList)) := by
  have hcoordinates : Writes .mongo whole
      (.arr [.str g.lon.placeholder, .str g.lat.placeholder]) [g.lon, g.lat] :=
    .arr_cons (.placeholder g.lon) (.arr_cons (.placeholder g.lat) .arr_nil)
  have hpoint : Writes .mongo whole (.obj [("type", .str "Point"),
      ("coordinates", .arr [.str g.lon.placeholder, .str g.lat.placeholder])]) [g.lon, g.lat] :=
    .obj_cons (.frame (by decide)) (.word (by decide +kernel))
      (.single (.frame (by decide)) hcoordinates)
  exact (Writes.obj_cons (.frame (by decide)) hpoint
    (.obj_optional_placeholder (.frame (by decide)) greatest)).obj_append
      (.obj_optional_placeholder (.frame (by decide)) g.minDistance)

mutual

theorem writes_filter : ∀ (f : Filter) {v : Json} {ps : List Param},
    (renderFilter f).Gives v ps → Writes .mongo whole v ps
  | .condition field op value, _, _, h | .array field op value, _, _, h => by
    obtain ⟨rfl, rfl⟩ := renderTest_gives.mp h
    exact .single (.path field.path_valid) (writes_tests _)
  | .group logic conditions, _, _, h => by
    obtain ⟨hlogic, vs, hvs, rfl⟩ := renderGroup_gives.mp h
    exact .single (safe_logic hlogic) (writes_filters conditions hvs)
  | .range r, _, _, h => by
    obtain ⟨rfl, rfl⟩ := renderRange_gives.mp h
    exact .single (.path r.field.path_valid) (writes_tests _)
  | .regex field pattern options, _, _, h => by
    obtain ⟨rfl, rfl⟩ := renderRegex_gives.mp h
    exact .single (.path field.path_valid) (writes_pattern pattern options)
  | .textSearch t, _, _, h => by
    obtain ⟨rfl, rfl⟩ := renderTextSearch_gives.mp h
    exact .single (safe_test .text) (writes_search t)
  | .geo g, _, _, h => by
    obtain ⟨-, rfl, rfl⟩ := renderGeo_gives.mp h
    exact .single (.path g.field.path_valid) (.single (safe_test g.operator) (writes_location g _))
  | .elemMatch field conditions, _, _, h => by
    obtain ⟨vs, hvs, rfl⟩ := renderElemMatch_gives.mp h
    exact .single (.path field.path_valid)
      (.single (safe_test .elemMatch) (writes_mergeAll (writes_filters conditions hvs)))
  | .presence field present, _, _, h => by
    obtain ⟨rfl, rfl⟩ := gives_pure.mp h
    exact .single (.path field.path_valid) (.single (safe_test .present) (.plain rfl rfl))

theorem writes_filters : ∀ (fs : List Filter) {vs : List Json} {ps : List Param},
    (renderFilters fs).Gives vs ps → Writes .mongo whole (.arr vs) ps
  | [], _, _, h => by
    obtain ⟨rfl, rfl⟩ := gives_pure.mp h
    exact .arr_nil
  | f :: fs, _, _, h => by
    obtain ⟨v, ws, qs, rs, hv, hws, rfl, rfl⟩ := renderFilters_cons_gives.mp h
    exact (writes_filter f hv).arr_cons (writes_filters fs hws)

end

end Filters

end DocumentQuery.Mongo

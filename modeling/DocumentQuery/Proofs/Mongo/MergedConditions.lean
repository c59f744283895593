import DocumentQuery.Proofs.LastWrites
import DocumentQuery.Proofs.Mongo.Proper
import DocumentQuery.Proofs.Mongo.Stages
/-!
# The conditions of an element match

Each condition is rendered to an object with one entry. The entries are put into one object from
left to right, where each is held against the object of all entries before it. Nothing is lost on
the way, and what it comes down to is a matter of pairs: there is one object exactly if no two
entries clash.

Main definitions:
* `Clash`: two entries that cannot stand in one object.
* `HasClash`: some two entries of a list clash.
* `united`: the value that stands for several ones at one key.
* `merged`: the object of entries that do not clash, key by key.

Results:
* `mergeAt?_merged`: what one more entry makes of the object.
* `mergeObjects?_singles`: what all entries make.
* `conditions_merged_iff`: the operand of an element match.
-/
namespace DocumentQuery

open Entries (keys get?)
open Render (gives_pure)

/-! ## Values -/

namespace Json

/-- Whether the value is an object. -/
def isObject : Json → Bool
  | .obj _ => true
  | _ => false

/-- The entries of an object; other values have none. -/
def ownEntries : Json → Entries
  | .obj es => es
  | _ => []

theorem eq_obj_of_isObject {v : Json} (h : v.isObject = true) : v = .obj v.ownEntries := by
  cases v with
  | obj es => rfl
  | _ => cases h

end Json

namespace Mongo

/-! ## Entries that clash -/

/-- Two entries that cannot stand in one object: they have the same key, and one of their values is
no object, or the values share an operator. -/
def Clash (e f : String × Json) : Prop :=
  e.1 = f.1 ∧ (e.2.isObject = false ∨ f.2.isObject = false ∨
    ∃ op ∈ keys e.2.ownEntries, op ∈ keys f.2.ownEntries)

instance (e f : String × Json) : Decidable (Clash e f) :=
  inferInstanceAs (Decidable (_ ∧ (_ ∨ _ ∨ _)))

/-- Two values that can stand together at one key. -/
structure Joinable (v w : Json) : Prop where
  left : v.isObject = true
  right : w.isObject = true
  disjoint : ∀ op ∈ keys v.ownEntries, op ∉ keys w.ownEntries

theorem not_clash_iff {e f : String × Json} : ¬ Clash e f ↔ (e.1 = f.1 → Joinable e.2 f.2) := by
  rw [Clash, not_and]
  refine imp_congr_right fun _ => ?_
  simp only [not_or, Bool.not_eq_false, not_exists, not_and]
  exact ⟨fun h => ⟨h.1, h.2.1, h.2.2⟩, fun h => ⟨h.left, h.right, h.disjoint⟩⟩

/-- What a rendered condition has at its key: if it is an object, then one of operators, each of
them once. -/
structure Operand (v : Json) : Prop where
  operators : operatorsOnly v.ownEntries = true
  nodup : (keys v.ownEntries).Nodup

/-- Operators are joined exactly if their values can stand together. -/
theorem joinOperators?_eq_some_iff {v w u : Json} (hv : operatorsOnly v.ownEntries = true)
    (hw : operatorsOnly w.ownEntries = true) :
    joinOperators? v w = some u ↔
      Joinable v w ∧ u = .obj (v.ownEntries ++ w.ownEntries) := by
  cases v with
  | obj es =>
    cases w with
    | obj fs =>
      have hjoinable : Joinable (.obj es) (.obj fs) ↔ disjoint es fs = true := by
        rw [disjoint_iff]
        exact ⟨fun h op hfs hes => h.disjoint op hes hfs, fun h => ⟨rfl, rfl, fun op hes hfs =>
          h op hfs hes⟩⟩
      simp only [Json.ownEntries] at hv hw
      rw [hjoinable, joinOperators?, hv, hw]
      cases disjoint es fs <;> simp [Json.ownEntries, @eq_comm _ u]
    | _ =>
      simp only [joinOperators?, reduceCtorEq, false_iff, not_and]
      intro h
      cases h.right
  | _ =>
    simp only [joinOperators?, reduceCtorEq, false_iff, not_and]
    intro h
    cases h.left

/-! ## Values that stand together -/

/-- The value at a key for the values that entries have there: the value itself if there is one
only, and otherwise the object of all their operators. -/
def united : List Json → Json
  | [v] => v
  | vs => .obj (vs.flatMap Json.ownEntries)

theorem united_of_objects {vs : List Json} (h : ∀ v ∈ vs, v.isObject = true) :
    united vs = .obj (vs.flatMap Json.ownEntries) := by
  rcases vs with _ | ⟨v, _ | ⟨w, vs⟩⟩
  · rfl
  · rw [united, Json.eq_obj_of_isObject (h v List.mem_cons_self)]
    simp [Json.ownEntries]
  · rfl

/-- Of values that can stand together two by two, all are objects unless there is one only. -/
theorem objects_or_single {vs : List Json} (h : vs.Pairwise Joinable) :
    (∀ v ∈ vs, v.isObject = true) ∨ ∃ v, vs = [v] := by
  rcases vs with _ | ⟨v, _ | ⟨w, vs⟩⟩
  · exact .inl (by simp)
  · exact .inr ⟨v, rfl⟩
  · obtain ⟨hv, -⟩ := List.pairwise_cons.mp h
    refine .inl (List.forall_mem_cons.mpr ⟨(hv w List.mem_cons_self).left, fun u hu => ?_⟩)
    exact (hv u hu).right

theorem operand_united {vs : List Json} (hvs : ∀ v ∈ vs, Operand v) (h : vs.Pairwise Joinable) :
    Operand (united vs) := by
  rcases objects_or_single h with hobjects | ⟨v, rfl⟩
  · rw [united_of_objects hobjects]
    constructor
    · rw [Json.ownEntries, operatorsOnly, Entries.keys, List.map_flatMap, List.all_flatMap,
        List.all_eq_true]
      exact fun v hv => (hvs v hv).operators
    · rw [Json.ownEntries, Entries.keys, List.map_flatMap, List.nodup_flatMap]
      exact ⟨fun v hv => (hvs v hv).nodup, h.imp fun hjoinable op hv hw =>
        hjoinable.disjoint op hv hw⟩
  · exact hvs v List.mem_cons_self

/-- One more value joins those that stand together exactly if it can stand with each of them. -/
theorem joinOperators?_united {vs : List Json} {v u : Json} (hne : vs ≠ [])
    (hvs : ∀ w ∈ vs, Operand w) (hv : Operand v) (h : vs.Pairwise Joinable) :
    joinOperators? (united vs) v = some u ↔
      (∀ w ∈ vs, Joinable w v) ∧ u = united (vs ++ [v]) := by
  rw [joinOperators?_eq_some_iff (operand_united hvs h).operators hv.operators]
  rcases objects_or_single h with hobjects | ⟨w, rfl⟩
  · rw [united_of_objects hobjects]
    have hjoinable : Joinable (.obj (vs.flatMap Json.ownEntries)) v ↔ ∀ w ∈ vs, Joinable w v := by
      constructor
      · intro hall w hw
        refine ⟨hobjects w hw, hall.right, fun op hop => hall.disjoint op ?_⟩
        rw [Json.ownEntries, Entries.keys, List.map_flatMap]
        exact List.mem_flatMap.mpr ⟨w, hw, hop⟩
      · intro hall
        obtain ⟨w, hw⟩ := List.exists_mem_of_ne_nil vs hne
        refine ⟨rfl, (hall w hw).right, fun op hop => ?_⟩
        rw [Json.ownEntries, Entries.keys, List.map_flatMap] at hop
        obtain ⟨w, hw, hop⟩ := List.mem_flatMap.mp hop
        exact (hall w hw).disjoint op hop
    rw [hjoinable]
    refine and_congr_right fun hall => ?_
    obtain ⟨w, hw⟩ := List.exists_mem_of_ne_nil vs hne
    have hobjects' : ∀ w ∈ vs ++ [v], w.isObject = true :=
      List.forall_mem_append.mpr ⟨hobjects, List.forall_mem_singleton.mpr (hall w hw).right⟩
    rw [united_of_objects hobjects']
    simp [Json.ownEntries]
  · -- one value stands there by itself, also if it is no object
    rw [united, List.forall_mem_singleton]
    simp [united]

/-! ## Objects of entries -/

/-- The values that entries have at a key. -/
def valuesAt (key : String) (parts : Entries) : List Json :=
  parts.filterMap fun e => if e.1 = key then some e.2 else none

/-- The object of entries: each key once, where it came first, with the value for all of its
values. -/
def merged (parts : Entries) : Entries :=
  (keys parts).eraseDups.map fun key => (key, united (valuesAt key parts))

section Merged

variable {parts : Entries} {key : String} {v : Json}

theorem mem_valuesAt : v ∈ valuesAt key parts ↔ (key, v) ∈ parts := by
  simp only [valuesAt, List.mem_filterMap, Option.ite_none_right_eq_some, Option.some.injEq]
  constructor
  · rintro ⟨⟨k, w⟩, hmem, rfl, rfl⟩
    exact hmem
  · exact fun hmem => ⟨(key, v), hmem, rfl, rfl⟩

theorem valuesAt_concat (key : String) (parts : Entries) (e : String × Json) :
    valuesAt key (parts ++ [e]) = valuesAt key parts ++ if e.1 = key then [e.2] else [] := by
  rw [valuesAt, List.filterMap_append]
  split <;> simp_all [valuesAt]

theorem valuesAt_ne_nil_iff : valuesAt key parts ≠ [] ↔ key ∈ keys parts := by
  rw [ne_eq, List.eq_nil_iff_forall_not_mem, not_forall_not]
  simp [mem_valuesAt, keys]

theorem pairwise_valuesAt (h : parts.Pairwise fun e f => ¬ Clash e f) (key : String) :
    (valuesAt key parts).Pairwise Joinable := by
  rw [valuesAt, List.pairwise_filterMap]
  refine h.imp fun {e f} hclash v hv w hw => ?_
  simp only [Option.ite_none_right_eq_some, Option.some.injEq] at hv hw
  obtain ⟨hkey, rfl⟩ := hv
  obtain ⟨hkey', rfl⟩ := hw
  exact not_clash_iff.mp hclash (hkey.trans hkey'.symm)

theorem operand_of_mem_valuesAt (h : ∀ e ∈ parts, Operand e.2) :
    ∀ v ∈ valuesAt key parts, Operand v :=
  fun _ hv => h _ (mem_valuesAt.mp hv)

theorem keys_merged (parts : Entries) : keys (merged parts) = (keys parts).eraseDups := by
  rw [merged, keys, List.map_map]
  exact List.map_id _

theorem nodup_keys_merged (parts : Entries) : (keys (merged parts)).Nodup := by
  rw [keys_merged]
  exact nodup_eraseDups _

theorem get?_merged : get? key (merged parts) =
    if key ∈ keys parts then some (united (valuesAt key parts)) else none := by
  have hmerged : merged parts = (keys parts).eraseDups.filterMap fun k =>
      (some (united (valuesAt k parts))).map fun v => (k, v) := by
    rw [merged, ← List.filterMap_eq_map]
    rfl
  rw [hmerged, Entries.get?_eq_lookup,
    lookup_filterMap fun k => some (united (valuesAt k parts))]
  simp only [List.mem_eraseDups]

/-- An entry with a new key is added to the object. -/
theorem merged_concat_of_not_mem {e : String × Json} (h : e.1 ∉ keys parts) :
    merged (parts ++ [e]) = merged parts ++ [e] := by
  have hnone : valuesAt e.1 parts = [] := by
    by_contra hne
    exact h (valuesAt_ne_nil_iff.mp hne)
  rw [merged, Entries.keys_concat, eraseDups_concat, if_neg h, List.map_append, List.map_singleton,
    valuesAt_concat, hnone, if_pos rfl, List.nil_append, united]
  refine congrArg (· ++ [e]) (List.map_congr_left fun key hkey => ?_)
  have hne : e.1 ≠ key := fun heq => h (heq ▸ List.mem_eraseDups.mp hkey)
  rw [valuesAt_concat, if_neg hne, List.append_nil]

/-- An entry with a key that is there changes the value at this key. -/
theorem merged_concat_of_mem {e : String × Json} (h : e.1 ∈ keys parts) :
    merged (parts ++ [e]) =
      Entries.insert e.1 (united (valuesAt e.1 parts ++ [e.2])) (merged parts) := by
  have hmem : e.1 ∈ keys (merged parts) := by
    rw [keys_merged]
    exact List.mem_eraseDups.mpr h
  have hkeys : keys (Entries.insert e.1 (united (valuesAt e.1 parts ++ [e.2])) (merged parts)) =
      keys (merged parts) := by rw [Entries.keys_insert, if_pos hmem]
  refine Entries.eq_of_get?_eq ?_ (hkeys ▸ nodup_keys_merged parts) fun key hkey => ?_
  · rw [hkeys, keys_merged, keys_merged, Entries.keys_concat, eraseDups_concat, if_pos h]
  · rw [hkeys, keys_merged, List.mem_eraseDups] at hkey
    have hkey' : key ∈ keys (parts ++ [e]) := by
      rw [Entries.keys_concat]
      exact List.mem_append_left _ hkey
    rw [get?_merged, if_pos hkey', valuesAt_concat]
    by_cases heq : e.1 = key
    · rw [heq, if_pos rfl, Entries.get?_insert_self]
    · rw [if_neg heq, Entries.get?_insert_of_ne heq, get?_merged, if_pos hkey, List.append_nil]

/-- Into the object of entries that do not clash goes one more exactly if it clashes with none of
them. -/
theorem mergeAt?_merged {e : String × Json} {es : Entries} (hparts : ∀ f ∈ parts, Operand f.2)
    (he : Operand e.2) (h : parts.Pairwise fun e f => ¬ Clash e f) :
    mergeAt? (merged parts) e.1 e.2 = some es ↔
      (∀ f ∈ parts, ¬ Clash f e) ∧ es = merged (parts ++ [e]) := by
  unfold mergeAt?
  rw [get?_merged]
  by_cases hmem : e.1 ∈ keys parts
  · have hclash : (∀ w ∈ valuesAt e.1 parts, Joinable w e.2) ↔ ∀ f ∈ parts, ¬ Clash f e := by
      simp only [mem_valuesAt, not_clash_iff]
      exact ⟨fun hall f hf heq => hall f.2 (heq ▸ hf), fun hall w hw => hall (e.1, w) hw rfl⟩
    simp only [if_pos hmem, Option.map_eq_some_iff,
      joinOperators?_united (valuesAt_ne_nil_iff.mpr hmem) (operand_of_mem_valuesAt hparts) he
        (pairwise_valuesAt h e.1), hclash, merged_concat_of_mem hmem]
    constructor
    · rintro ⟨u, ⟨hall, rfl⟩, rfl⟩
      exact ⟨hall, rfl⟩
    · rintro ⟨hall, rfl⟩
      exact ⟨_, ⟨hall, rfl⟩, rfl⟩
  · have hclash : ∀ f ∈ parts, ¬ Clash f e := fun f hf hclash =>
      hmem (hclash.1 ▸ List.mem_map_of_mem hf)
    simp only [if_neg hmem, Option.some.injEq, merged_concat_of_not_mem hmem, eq_comm (b := es)]
    exact (and_iff_right hclash).symm

end Merged

theorem mergeObjects?_append (vs ws : List Json) (es : Entries) :
    mergeObjects? es (vs ++ ws) = (mergeObjects? es vs).bind fun es => mergeObjects? es ws := by
  induction vs generalizing es with
  | nil => rfl
  | cons v vs ih =>
    cases v with
    | obj fs =>
      rw [List.cons_append, mergeObjects?, mergeObjects?, Option.bind_assoc]
      exact Option.bind_congr fun es _ => ih es
    | _ => rfl

theorem mergeObjects?_single (es : Entries) (e : String × Json) :
    mergeObjects? es [.single e.1 e.2] = mergeAt? es e.1 e.2 := by
  simp [Json.single, mergeObjects?, mergeInto?]

/-- The objects of entries. -/
def singles (parts : Entries) : List Json := parts.map fun e => .single e.1 e.2

/-- Objects with one entry each are put into one object exactly if no two of their entries
clash. -/
theorem mergeObjects?_singles {parts es : Entries} (hparts : ∀ e ∈ parts, Operand e.2) :
    mergeObjects? [] (singles parts) = some es ↔
      (parts.Pairwise fun e f => ¬ Clash e f) ∧ es = merged parts := by
  -- from the end, since each entry is held against the object of all entries before it
  induction parts using List.reverseRecOn generalizing es with
  | nil => simp [singles, mergeObjects?, merged, keys, eq_comm]
  | append_singleton parts e ih =>
    obtain ⟨hfront, he⟩ := List.forall_mem_append.mp hparts
    rw [singles, List.map_append, List.map_singleton, mergeObjects?_append,
      List.pairwise_append]
    simp only [Option.bind_eq_some_iff, mergeObjects?_single, List.pairwise_singleton,
      List.mem_singleton, forall_eq, true_and]
    constructor
    · rintro ⟨mid, hmid, hlast⟩
      obtain ⟨hpairwise, rfl⟩ := (ih hfront).mp hmid
      obtain ⟨hclash, rfl⟩ := (mergeAt?_merged hfront (he e (List.mem_singleton_self e))
        hpairwise).mp hlast
      exact ⟨⟨hpairwise, hclash⟩, rfl⟩
    · rintro ⟨⟨hpairwise, hclash⟩, rfl⟩
      exact ⟨_, (ih hfront).mpr ⟨hpairwise, rfl⟩,
        (mergeAt?_merged hfront (he e (List.mem_singleton_self e)) hpairwise).mpr ⟨hclash, rfl⟩⟩

/-! ## Rendered conditions -/

theorem operand_of_sound {ops : Entries} (hs : Sound (.obj ops)) (hd : distinctKeys ops = true) :
    Operand (.obj ops) :=
  ⟨hs.1, of_decide_eq_true hd⟩

theorem operand_one {op : String} (h : isOperatorKey op = true) (v : Json) :
    Operand (.single op v) :=
  ⟨by simp [operatorsOnly, keys, Json.ownEntries, Json.single, h],
    by simp [keys, Json.ownEntries, Json.single]⟩

/-- A rendered condition is an object with one entry. -/
theorem exists_single_of_gives {f : Filter} {v : Json} {ps : List Param}
    (h : (renderFilter f).Gives v ps) : ∃ e : String × Json, v = .single e.1 e.2 ∧ Operand e.2 := by
  cases f with
  | condition field operator value | array field operator value =>
    obtain ⟨rfl, -⟩ := renderTest_gives.mp h
    exact ⟨(field.path, _), rfl, operand_one (isOperatorKey_token operator) _⟩
  | group logic conditions =>
    obtain ⟨-, vs, -, rfl⟩ := renderGroup_gives.mp h
    exact ⟨(logic.token, .arr vs), rfl, rfl, List.nodup_nil⟩
  | range r =>
    obtain ⟨rfl, -⟩ := renderRange_gives.mp h
    exact ⟨(r.field.path, _), rfl, operand_of_sound (sound_tests _) (distinctKeys_bounds r)⟩
  | regex field pattern options =>
    obtain ⟨rfl, -⟩ := renderRegex_gives.mp h
    exact ⟨(field.path, _), rfl, operand_of_sound (sound_pattern pattern options)
      (distinctKeys_pattern pattern options)⟩
  | textSearch t =>
    obtain ⟨rfl, -⟩ := renderTextSearch_gives.mp h
    have hproper := properSearch_operators t
    simp only [properSearch, Bool.and_eq_true] at hproper
    exact ⟨("$text", _), rfl, operand_of_sound (sound_search t) hproper.1.2⟩
  | geo g =>
    obtain ⟨-, rfl, -⟩ := renderGeo_gives.mp h
    exact ⟨(g.field.path, _), rfl, operand_one (isOperatorKey_token g.operator) _⟩
  | elemMatch field conditions =>
    obtain ⟨vs, -, rfl⟩ := renderElemMatch_gives.mp h
    exact ⟨(field.path, _), rfl, operand_one rfl _⟩
  | presence field present =>
    obtain ⟨rfl, -⟩ := gives_pure.mp h
    exact ⟨(field.path, _), rfl, operand_one rfl _⟩

/-- Several filters are rendered one by one. -/
theorem renderFilters_of_forall₂ {fs : List Filter} {results : List (Json × List Param)}
    (h : List.Forall₂ (fun f r => (renderFilter f).Gives r.1 r.2) fs results) :
    (renderFilters fs).Gives (results.map Prod.fst) (results.flatMap Prod.snd) := by
  induction h with
  | nil => exact gives_pure.mpr ⟨rfl, rfl⟩
  | cons hf _ ih => exact renderFilters_cons_gives.mpr ⟨_, _, _, _, hf, ih, rfl, rfl⟩

theorem exists_singles_of_forall₂ {fs : List Filter} {results : List (Json × List Param)}
    (h : List.Forall₂ (fun f r => (renderFilter f).Gives r.1 r.2) fs results) :
    ∃ parts, results.map Prod.fst = singles parts ∧ ∀ e ∈ parts, Operand e.2 := by
  induction h with
  | nil => exact ⟨[], rfl, by simp⟩
  | cons hf _ ih =>
    obtain ⟨parts, hparts, hoperands⟩ := ih
    obtain ⟨e, he, hoperand⟩ := exists_single_of_gives hf
    refine ⟨e :: parts, ?_, List.forall_mem_cons.mpr ⟨hoperand, hoperands⟩⟩
    rw [List.map_cons, he, hparts]
    rfl

/-- Some two of the entries clash. -/
def HasClash (parts : Entries) : Prop :=
  ∃ (i j : Nat) (e f : String × Json),
    i < j ∧ parts[i]? = some e ∧ parts[j]? = some f ∧ Clash e f

theorem hasClash_iff {parts : Entries} :
    HasClash parts ↔ ¬ parts.Pairwise fun e f => ¬ Clash e f := by
  rw [HasClash, List.pairwise_iff_getElem]
  constructor
  · rintro ⟨i, j, e, f, hij, he, hf, hclash⟩ h
    obtain ⟨hi, rfl⟩ := List.getElem?_eq_some_iff.mp he
    obtain ⟨hj, rfl⟩ := List.getElem?_eq_some_iff.mp hf
    exact h i j hi hj hij hclash
  · intro h
    simp only [not_forall, not_not] at h
    obtain ⟨i, j, hi, hj, hij, hclash⟩ := h
    exact ⟨i, j, _, _, hij, List.getElem?_eq_getElem hi, List.getElem?_eq_getElem hj, hclash⟩

/-- The object of entries is not the conjunction of their objects: an array of these would stand
in itself. -/
theorem merged_ne_conjunction (parts : Entries) :
    merged parts ≠ [("$and", .arr (singles parts))] := by
  intro heq
  have hget : get? "$and" (merged parts) = some (.arr (singles parts)) := by
    rw [heq, Entries.get?_cons_self]
  rw [get?_merged] at hget
  split at hget
  · rw [Option.some.injEq] at hget
    unfold united at hget
    split at hget
    · rename_i v hvalues
      have hmem : ("$and", v) ∈ parts :=
        mem_valuesAt.mp (hvalues ▸ List.mem_singleton_self v)
      have hsingle : Json.single "$and" v ∈ singles parts := List.mem_map.mpr ⟨_, hmem, rfl⟩
      have hlt := List.sizeOf_lt_of_mem hsingle
      have hsize := congrArg sizeOf hget
      simp only [Json.single, Json.arr.sizeOf_spec, Json.obj.sizeOf_spec, List.cons.sizeOf_spec,
        List.nil.sizeOf_spec, Prod.mk.sizeOf_spec] at hlt hsize
      omega
    · cases hget
  · cases hget

/-- The conditions of an element match, here and in projections, are put into one object unless two
of them clash, and otherwise into the conjunction of their objects. The object has their keys in
the order in which they come first, and at each key all operators that are there in some
condition, each of them once. -/
theorem conditions_merged_iff {conditions : List Filter} {results : List (Json × List Param)}
    (h : List.Forall₂ (fun f r => (renderFilter f).Gives r.1 r.2) conditions results) :
    ∃ parts v, results.map Prod.fst = parts.map (fun e => .single e.1 e.2) ∧
      (renderMerged conditions).Gives v (results.flatMap Prod.snd) ∧
      (∀ field, (renderFilter (.elemMatch field conditions)).Gives
        (.single field.path (.single "$elemMatch" v)) (results.flatMap Prod.snd)) ∧
      (v = .single "$and" (.arr (results.map Prod.fst)) ↔ HasClash parts) ∧
      (v ≠ .single "$and" (.arr (results.map Prod.fst)) →
        ∃ es, v = .obj es ∧ keys es = (keys parts).eraseDups ∧
          ∀ e ∈ es, e.2 = united (valuesAt e.1 parts) ∧ (keys e.2.ownEntries).Nodup) := by
  obtain ⟨parts, hparts, hoperands⟩ := exists_singles_of_forall₂ h
  have hfilters := renderFilters_of_forall₂ h
  have hfalls : mergeAll (results.map Prod.fst) = .single "$and" (.arr (results.map Prod.fst)) ↔
      ¬ parts.Pairwise fun e f => ¬ Clash e f := by
    rw [hparts, mergeAll]
    cases hmerge : mergeObjects? [] (singles parts) with
    | none =>
      refine iff_of_true rfl fun hpairwise => ?_
      rw [(mergeObjects?_singles hoperands).mpr ⟨hpairwise, rfl⟩] at hmerge
      cases hmerge
    | some es =>
      obtain ⟨hpairwise, rfl⟩ := (mergeObjects?_singles hoperands).mp hmerge
      refine iff_of_false (fun heq => ?_) (not_not_intro hpairwise)
      exact merged_ne_conjunction parts (Json.obj.inj heq)
  refine ⟨parts, _, hparts, renderMerged_gives.mpr ⟨_, hfilters, rfl⟩,
    fun field => renderElemMatch_gives.mpr ⟨_, hfilters, rfl⟩, hfalls.trans hasClash_iff.symm,
    fun hne => ?_⟩
  have hpairwise : parts.Pairwise fun e f => ¬ Clash e f := by
    by_contra hclash
    exact hne (hfalls.mpr hclash)
  refine ⟨merged parts, ?_, keys_merged parts, fun e he => ?_⟩
  · rw [hparts, mergeAll, (mergeObjects?_singles hoperands).mpr ⟨hpairwise, rfl⟩]
  · obtain ⟨key, -, rfl⟩ := List.mem_map.mp he
    exact ⟨rfl, (operand_united (operand_of_mem_valuesAt hoperands)
      (pairwise_valuesAt hpairwise key)).nodup⟩

/-- Points in a range, but not the given ones, of an entry with a name. -/
def fairPoints : List Filter :=
  [.range ⟨Users.points, some Users.least, some Users.greatest, false, true⟩,
    .presence Users.name true, .condition Users.points .ne Users.given]

/-- The object of these conditions. -/
def fairEntries : Entries :=
  [("points", .obj [("$gte", .str ":least"), ("$lt", .str ":greatest"), ("$ne", .str ":given")]),
    ("name", .single "$exists" (.bool true))]

theorem conditions_merged_iff_fairPoints :
    ∃ parts, (renderMerged fairPoints).Gives (.obj fairEntries)
        [Users.least, Users.greatest, Users.given] ∧
      (keys parts).eraseDups = ["points", "name"] ∧ ¬ HasClash parts := by
  have h : List.Forall₂ (fun (f : Filter) (r : Json × List Param) =>
      (renderFilter f).Gives r.1 r.2) fairPoints
      [(.single "points" (.obj [("$gte", .str ":least"), ("$lt", .str ":greatest")]),
          [Users.least, Users.greatest]),
        (.single "name" (.single "$exists" (.bool true)), []),
        (.single "points" (.single "$ne" (.str ":given")), [Users.given])] :=
    .cons rfl (.cons rfl (.cons rfl .nil))
  obtain ⟨parts, v, -, hv, -, hfalls, hone⟩ := conditions_merged_iff h
  have hobject : (renderMerged fairPoints).Gives (.obj fairEntries)
      [Users.least, Users.greatest, Users.given] := rfl
  obtain ⟨rfl, -⟩ := Render.Gives.unique hv hobject
  have hne : ∀ vs, Json.obj fairEntries ≠ .single "$and" (.arr vs) := by
    simp [fairEntries, Json.single]
  obtain ⟨es, hes, hkeys, -⟩ := hone (hne _)
  cases hes
  exact ⟨parts, hobject, hkeys.symm, fun hclash => hne _ (hfalls.mpr hclash)⟩

end Mongo

end DocumentQuery

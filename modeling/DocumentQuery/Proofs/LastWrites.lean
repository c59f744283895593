import Mathlib.Data.List.Induction
import DocumentQuery.Proofs.Entries
import DocumentQuery.Proofs.OrderedMap
/-!
# What is written last

Objects and ordered maps take their entries one after the other, and a key that comes again
takes the new value. So at each key stands what was written there last. An object has its
keys in the order in which they were written first, an ordered map in their own order.

Main definitions:
* `lastWrites`: the entries that are left of a list of entries.

Results:
* `Entries.ofPairs_eq_lastWrites`: an object of inserted entries has those that are left.
* `OrderedMap.get?_ofList`: a map of inserted entries is looked up from the end.
-/
namespace DocumentQuery

/-! ## First occurrences -/

section FirstOccurrences

variable {α : Type} [DecidableEq α]

/-- One more element is added at the end unless it is there. -/
theorem eraseDups_concat (l : List α) (a : α) :
    (l ++ [a]).eraseDups = if a ∈ l then l.eraseDups else l.eraseDups ++ [a] := by
  rw [List.eraseDups_append, List.removeAll]
  by_cases h : a ∈ l <;> simp [h, List.eraseDups_cons]

theorem nodup_eraseDups (l : List α) : l.eraseDups.Nodup := by
  induction l using List.reverseRecOn with
  | nil => exact List.nodup_nil
  | append_singleton l a ih =>
    rw [eraseDups_concat]
    split
    · exact ih
    · rename_i hnot
      refine List.nodup_append.mpr ⟨ih, List.nodup_singleton a, fun b hb c hc heq => hnot ?_⟩
      rw [← List.mem_singleton.mp hc, ← heq]
      exact List.mem_eraseDups.mp hb

end FirstOccurrences

/-! ## Entries that are left -/

section LastWrites

variable {κ α β : Type} [DecidableEq κ]

/-- The entries that are left: each key once, where it came first, with the value that came
last. -/
def lastWrites (l : List (κ × α)) : List (κ × α) :=
  (l.map Prod.fst).eraseDups.filterMap fun key => (l.reverse.lookup key).map fun a => (key, a)

theorem lookup_map (f : α → β) (key : κ) (l : List (κ × α)) :
    (l.map fun e => (e.1, f e.2)).lookup key = (l.lookup key).map f := by
  induction l with
  | nil => rfl
  | cons e l ih =>
    rw [List.map_cons, List.lookup_cons, List.lookup_cons, ih]
    cases key == e.1 <;> rfl

/-- What is left does not depend on the values. -/
theorem lastWrites_map (f : α → β) (l : List (κ × α)) :
    lastWrites (l.map fun e => (e.1, f e.2)) = (lastWrites l).map fun e => (e.1, f e.2) := by
  rw [lastWrites, lastWrites, List.map_filterMap, List.map_map, ← List.map_reverse]
  refine List.filterMap_congr fun key _ => ?_
  rw [lookup_map, Option.map_map, Option.map_map]
  rfl

/-- A list of values by key, looked up. -/
theorem lookup_filterMap (f : κ → Option α) (key : κ) (keys : List κ) :
    (keys.filterMap fun k => (f k).map fun a => (k, a)).lookup key =
      if key ∈ keys then f key else none := by
  induction keys with
  | nil => rfl
  | cons k keys ih =>
    rw [List.filterMap_cons]
    by_cases hk : key = k
    · subst hk
      cases hf : f key with
      | none => simp [hf, ih]
      | some a => simp
    · have hbeq : (key == k) = false := beq_false_of_ne hk
      cases f k with
      | none => simp [ih, hk]
      | some a => simp [ih, hk, List.lookup_cons, hbeq]

theorem lookup_eq_none_iff_not_mem {key : κ} {l : List (κ × α)} :
    l.lookup key = none ↔ key ∉ l.map Prod.fst := by
  rw [List.lookup_eq_none_iff, List.mem_map]
  constructor
  · rintro h ⟨e, he, rfl⟩
    have hne := h e he
    simp at hne
  · intro h e he
    exact bne_iff_ne.mpr fun heq => h ⟨e, he, heq.symm⟩

theorem lookup_eq_some_of_mem {key : κ} {a : α} {l : List (κ × α)} (h : (l.map Prod.fst).Nodup)
    (hmem : (key, a) ∈ l) : l.lookup key = some a := by
  induction l with
  | nil => cases hmem
  | cons e l ih =>
    obtain ⟨hfirst, hrest⟩ := List.nodup_cons.mp h
    rw [List.lookup_cons]
    rcases List.mem_cons.mp hmem with rfl | hmem
    · simp
    · have hne : key ≠ e.1 := fun heq => hfirst (List.mem_map.mpr ⟨_, hmem, heq⟩)
      rw [beq_false_of_ne hne]
      exact ih hrest hmem

/-- If no key comes twice, the first value of a key is the last one. -/
theorem lookup_reverse_of_nodup {l : List (κ × α)} (h : (l.map Prod.fst).Nodup) (key : κ) :
    l.reverse.lookup key = l.lookup key := by
  have hreverse : (l.reverse.map Prod.fst).Nodup := by
    rw [List.map_reverse, List.nodup_reverse]
    exact h
  cases hlookup : l.lookup key with
  | none =>
    rw [lookup_eq_none_iff_not_mem, List.map_reverse, List.mem_reverse]
    exact lookup_eq_none_iff_not_mem.mp hlookup
  | some a =>
    obtain ⟨front, back, rfl, -⟩ := List.lookup_eq_some_iff.mp hlookup
    exact lookup_eq_some_of_mem hreverse (by simp)

theorem lookup_lastWrites (key : κ) (l : List (κ × α)) :
    (lastWrites l).lookup key = l.reverse.lookup key := by
  rw [lastWrites, lookup_filterMap]
  split
  · rfl
  · rename_i hnot
    rw [List.mem_eraseDups] at hnot
    rw [eq_comm, lookup_eq_none_iff_not_mem, List.map_reverse, List.mem_reverse]
    exact hnot

end LastWrites

/-! ## Objects -/

namespace Entries

theorem get?_eq_lookup (key : String) (es : Entries) : get? key es = es.lookup key := by
  induction es with
  | nil => rfl
  | cons e es ih =>
    obtain ⟨k, v⟩ := e
    rw [get?, List.lookup_cons, ih]
    by_cases h : k = key
    · simp [h]
    · have hbeq : (key == k) = false := beq_false_of_ne (Ne.symm h)
      simp [h, hbeq]

/-- An object without repeated keys is what stands at its keys. -/
theorem eq_filterMap_of_nodup {es : Entries} (h : (keys es).Nodup) :
    es = (keys es).filterMap fun key => (get? key es).map fun v => (key, v) := by
  induction es with
  | nil => rfl
  | cons e es ih =>
    obtain ⟨k, v⟩ := e
    obtain ⟨hk, hes⟩ := List.nodup_cons.mp h
    have hrest : ((keys es).filterMap fun key => (get? key ((k, v) :: es)).map fun v => (key, v)) =
        (keys es).filterMap fun key => (get? key es).map fun v => (key, v) := by
      refine List.filterMap_congr fun key hkey => ?_
      have hne : k ≠ key := fun heq => hk (heq ▸ hkey)
      rw [get?_cons_of_ne hne]
    show (k, v) :: es = (k :: keys es).filterMap _
    rw [List.filterMap_cons, get?_cons_self, hrest, ← ih hes]
    rfl

/-- Objects are the same if they have the same keys, no key twice, and the same at each. -/
theorem eq_of_get?_eq {es fs : Entries} (hkeys : keys es = keys fs)
    (hnodup : (keys fs).Nodup) (hget : ∀ key ∈ keys fs, get? key es = get? key fs) : es = fs := by
  calc
    es = (keys es).filterMap fun key => (get? key es).map fun v => (key, v) :=
      eq_filterMap_of_nodup (hkeys ▸ hnodup)
    _ = (keys fs).filterMap fun key => (get? key fs).map fun v => (key, v) := by
      rw [hkeys]
      exact List.filterMap_congr fun key hkey => by rw [hget key hkey]
    _ = fs := (eq_filterMap_of_nodup hnodup).symm

theorem keys_concat (es : Entries) (e : String × Json) : keys (es ++ [e]) = keys es ++ [e.1] :=
  List.map_append

theorem ofPairs_concat (pairs : Entries) (p : String × Json) :
    ofPairs (pairs ++ [p]) = insert p.1 p.2 (ofPairs pairs) := by
  rw [ofPairs, List.foldl_append]
  rfl

/-- The keys of an object stand in the order in which they were written first. -/
theorem keys_ofPairs (pairs : Entries) : keys (ofPairs pairs) = (keys pairs).eraseDups := by
  induction pairs using List.reverseRecOn with
  | nil => rfl
  | append_singleton pairs p ih =>
    rw [ofPairs_concat, keys_insert, ih, keys_concat, eraseDups_concat]
    simp only [List.mem_eraseDups]

/-- At a key stands what was written there last. -/
theorem get?_ofPairs (key : String) (pairs : Entries) :
    get? key (ofPairs pairs) = get? key pairs.reverse := by
  induction pairs using List.reverseRecOn with
  | nil => rfl
  | append_singleton pairs p ih =>
    obtain ⟨k, v⟩ := p
    rw [ofPairs_concat, List.reverse_append]
    by_cases h : k = key
    · subst h
      simp
    · rw [get?_insert_of_ne h, ih]
      simp [h]

theorem ofPairs_eq_lastWrites (pairs : Entries) : ofPairs pairs = lastWrites pairs := by
  have hnodup : (keys (ofPairs pairs)).Nodup := keys_ofPairs pairs ▸ nodup_eraseDups _
  rw [eq_filterMap_of_nodup hnodup, keys_ofPairs, lastWrites]
  refine List.filterMap_congr fun key _ => ?_
  rw [get?_ofPairs, get?_eq_lookup]

/-- If all values are the same, it does not matter which of them came last. -/
theorem ofPairs_map_const (v : Json) (names : List String) :
    ofPairs (names.map fun name => (name, v)) = names.eraseDups.map fun name => (name, v) := by
  have hkeys : ∀ l : List String, keys (l.map fun name => (name, v)) = l := by
    intro l
    simp [keys, Function.comp_def]
  have hget : ∀ {key : String} {l : List String}, key ∈ l →
      get? key (l.map fun name => (name, v)) = some v := by
    intro key l hmem
    obtain ⟨w, hw⟩ := Option.ne_none_iff_exists'.mp fun hnone =>
      get?_eq_none_iff.mp hnone (by rwa [hkeys])
    obtain ⟨name, -, heq⟩ := List.mem_map.mp (mem_of_get? hw)
    rw [hw, (Prod.mk.inj heq).2]
  refine eq_of_get?_eq (by rw [keys_ofPairs, hkeys, hkeys]) (by rw [hkeys]; exact nodup_eraseDups _)
    fun key hkey => ?_
  rw [hkeys, List.mem_eraseDups] at hkey
  rw [get?_ofPairs, ← List.map_reverse, hget (List.mem_reverse.mpr hkey),
    hget (List.mem_eraseDups.mpr hkey)]

end Entries

/-! ## Ordered maps -/

namespace OrderedMap

variable {κ α : Type} [LT κ] [DecidableEq κ] [DecidableLT κ] [StrictLinearOrder κ]

/-- At a key of a map stands what was inserted there last. -/
theorem get?_foldl_insert (key : κ) (l : List (κ × α)) (m : OrderedMap κ α) :
    (l.foldl (fun m e => m.insert e.1 e.2) m).get? key =
      (l.reverse.lookup key).or (m.get? key) := by
  induction l using List.reverseRecOn with
  | nil => rfl
  | append_singleton l e ih =>
    obtain ⟨k, a⟩ := e
    rw [List.foldl_append, List.reverse_append]
    by_cases h : k = key
    · subst h
      simp
    · have hbeq : (key == k) = false := beq_false_of_ne (Ne.symm h)
      simp [List.lookup_cons, hbeq, get?_insert_of_ne _ h, ih]

theorem get?_ofList (key : κ) (l : List (κ × α)) :
    (ofList l).get? key = l.reverse.lookup key := by
  have hnone : (∅ : OrderedMap κ α).get? key = none := rfl
  rw [ofList, get?_foldl_insert, hnone, Option.or_none]

end OrderedMap

end DocumentQuery

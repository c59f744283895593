import Mathlib.Data.List.Nodup
import DocumentQuery.OrderedMap
/-!
# Entries of ordered maps

Keys do not repeat, so look-up at a key is membership of an entry
(`get?_eq_some_iff`). Up to order, an insertion at a new key is one more entry
(`entries_insert_perm`).
-/
namespace DocumentQuery

/-! ## Look-up -/

section Lookup

variable {κ α : Type} [DecidableEq κ] {l : List (κ × α)} {key : κ} {a : α}

theorem lookup_eq_some_iff (h : (l.map Prod.fst).Nodup) :
    (l.find? fun e => e.1 = key).map Prod.snd = some a ↔ (key, a) ∈ l := by
  induction l with
  | nil => simp
  | cons e l ih =>
    obtain ⟨hfirst, hrest⟩ := List.nodup_cons.mp h
    rw [List.find?_cons, List.mem_cons]
    by_cases hkey : e.1 = key
    · subst hkey
      have hnot : (e.1, a) ∉ l := fun hmem => hfirst (List.mem_map.mpr ⟨_, hmem, rfl⟩)
      simp only [decide_true, Option.map_some, Option.some.injEq, hnot, or_false]
      constructor
      · intro h
        rw [← h]
      · intro h
        rw [← h]
    · have hne : (key, a) ≠ e := fun heq => hkey (heq ▸ rfl)
      simp only [hkey, decide_false, hne, false_or]
      exact ih hrest

theorem lookup_eq_none_iff :
    (l.find? fun e => e.1 = key).map Prod.snd = none ↔ key ∉ l.map Prod.fst := by
  rw [Option.map_eq_none_iff, List.find?_eq_none, List.mem_map]
  constructor
  · rintro h ⟨e, he, rfl⟩
    exact h e he (by simp)
  · intro h e he hkey
    exact h ⟨e, he, by simpa using hkey⟩

end Lookup

namespace OrderedMap

variable {κ α : Type} [LT κ] [DecidableEq κ] [StrictLinearOrder κ] {m : OrderedMap κ α} {key : κ}
  {a : α}

theorem get?_eq_some_iff : m.get? key = some a ↔ (key, a) ∈ m.entries :=
  lookup_eq_some_iff m.nodup_keys

omit [StrictLinearOrder κ] in
theorem get?_eq_none_iff : m.get? key = none ↔ key ∉ m.keys := lookup_eq_none_iff

variable [DecidableLT κ]

omit [StrictLinearOrder κ] in
theorem insertEntry_perm : ∀ {es : List (κ × α)}, key ∉ es.map Prod.fst →
    (insertEntry key a es).Perm ((key, a) :: es)
  | [], _ => .refl _
  | (k, b) :: es, h => by
    simp only [List.map_cons, List.mem_cons, not_or] at h
    obtain ⟨hne, hrest⟩ := h
    rw [insertEntry, if_neg (Ne.symm hne)]
    split
    · exact .refl _
    · exact ((insertEntry_perm hrest).cons (k, b)).trans (.swap _ _ _)

theorem entries_insert_perm (h : key ∉ m.keys) :
    (m.insert key a).entries.Perm ((key, a) :: m.entries) := insertEntry_perm h

theorem keys_insert_perm (h : key ∉ m.keys) : (m.insert key a).keys.Perm (key :: m.keys) :=
  (entries_insert_perm h).map Prod.fst

/-- A key that is inserted counts among the keys that follow. -/
theorem nodup_insert_keys_iff (a : α) {keys : List κ} :
    key ∉ m.keys ∧ ((m.insert key a).keys ++ keys).Nodup ↔ (m.keys ++ key :: keys).Nodup := by
  have hperm (hnew : key ∉ m.keys) :
      ((m.insert key a).keys ++ keys).Perm (m.keys ++ key :: keys) :=
    ((keys_insert_perm hnew).append_right keys).trans List.perm_middle.symm
  constructor
  · rintro ⟨hnew, h⟩
    exact (hperm hnew).nodup h
  · intro h
    have hnew : key ∉ m.keys := fun hmem =>
      List.disjoint_of_nodup_append h hmem List.mem_cons_self
    exact ⟨hnew, (hperm hnew).symm.nodup h⟩

end OrderedMap

end DocumentQuery

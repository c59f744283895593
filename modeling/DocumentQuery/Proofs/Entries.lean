import DocumentQuery.Json.Basic
/-!
# Looking up entries

Facts about `Entries.get?` for objects that are put together from parts: joined
lists of entries, and entries that are there only sometimes.
-/
namespace DocumentQuery

namespace Entries

@[simp] theorem get?_append (key : String) (es fs : Entries) :
    get? key (es ++ fs) = (get? key es).or (get? key fs) := by
  induction es with
  | nil => rfl
  | cons e es ih =>
    obtain ⟨k, v⟩ := e
    by_cases h : k = key <;> simp [get?, h, ih]

theorem get?_eq_none_iff {key : String} {es : Entries} : get? key es = none ↔ key ∉ keys es := by
  induction es with
  | nil => simp [get?, keys]
  | cons e es ih =>
    obtain ⟨k, v⟩ := e
    by_cases h : k = key
    · simp [get?, keys, h]
    · have h' : ¬ key = k := fun e => h e.symm
      simpa [get?, keys, h, h'] using ih

theorem mem_of_get? {key : String} {es : Entries} {v : Json} (h : get? key es = some v) :
    (key, v) ∈ es := by
  induction es with
  | nil => cases h
  | cons e es ih =>
    obtain ⟨k, w⟩ := e
    by_cases hk : k = key
    · subst hk
      simp only [get?, if_true, Option.some.injEq] at h
      subst h
      exact List.mem_cons_self
    · simp only [get?, hk, if_false] at h
      exact List.mem_cons_of_mem _ (ih h)

@[simp] theorem keys_append (es fs : Entries) : keys (es ++ fs) = keys es ++ keys fs :=
  List.map_append

theorem mem_keys_of_get? {key : String} {es : Entries} {v : Json} (h : get? key es = some v) :
    key ∈ keys es :=
  List.mem_map.mpr ⟨(key, v), mem_of_get? h, rfl⟩

/-- A key that is there takes its new value in place. -/
theorem split_of_get? {key : String} {w : Json} {es : Entries} (h : get? key es = some w) :
    ∃ front back, es = front ++ (key, w) :: back ∧
      ∀ u, insert key u es = front ++ (key, u) :: back := by
  induction es with
  | nil => cases h
  | cons e es ih =>
    obtain ⟨k, x⟩ := e
    by_cases hk : k = key
    · subst hk
      simp only [get?, if_true, Option.some.injEq] at h
      subst h
      exact ⟨[], es, rfl, fun u => by simp [insert]⟩
    · simp only [get?, hk, if_false] at h
      obtain ⟨front, back, rfl, hinsert⟩ := ih h
      exact ⟨(k, x) :: front, back, rfl, fun u => by simp [insert, hk, hinsert]⟩

/-! ## Entries that may be missing -/

@[simp] theorem get?_cons_self (key : String) (v : Json) (es : Entries) :
    get? key ((key, v) :: es) = some v := by
  rw [get?, if_pos rfl]

@[simp] theorem get?_cons_of_ne {k key : String} (h : k ≠ key) (v : Json) (es : Entries) :
    get? key ((k, v) :: es) = get? key es := by
  rw [get?, if_neg h]

@[simp] theorem get?_optional_self (key : String) (o : Option Json) :
    get? key (optional key o) = o := by
  cases o <;> simp [optional, get?]

@[simp] theorem get?_optional_of_ne {k key : String} (h : k ≠ key) (o : Option Json) :
    get? key (optional k o) = none := by
  cases o <;> simp [optional, get?, h]

@[simp] theorem get?_when_self (key : String) (cond : Bool) (v : Json) :
    get? key (when cond key v) = if cond then some v else none := by
  cases cond <;> simp [when, get?]

@[simp] theorem get?_when_of_ne {k key : String} (h : k ≠ key) (cond : Bool) (v : Json) :
    get? key (when cond k v) = none := by
  cases cond <;> simp [when, get?, h]

end Entries

end DocumentQuery

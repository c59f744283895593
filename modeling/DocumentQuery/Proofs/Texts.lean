import Mathlib.Data.List.Perm.Subperm
import DocumentQuery.Proofs.Entries
import DocumentQuery.Proofs.Names
import DocumentQuery.Reference
/-!
# The strings of a JSON value

What stands in a value as text: its string values, and the keys of its objects.
A string value that starts with a colon is a placeholder.

Main definitions:
* `Json.texts`, `Json.allKeys`: the string values and the keys at every depth,
  in written order.
* `isMarked`, `Json.placeholders`: the string values that start with a
  colon.

Results:
* `Entries.ofPairs_subperm`, `Entries.ofPairs_eq_of_nodup`: an object of
  inserted entries has some of them, and all of them if no key comes twice.
-/
namespace DocumentQuery

namespace Json

mutual

/-- The string values, at every depth. -/
def texts : Json → List String
  | .str s => [s]
  | .arr items => textsOfAll items
  | .obj entries => textsOfEntries entries
  | .null | .bool _ | .int _ => []

/-- The string values of a list of values. -/
def textsOfAll : List Json → List String
  | [] => []
  | v :: vs => texts v ++ textsOfAll vs

/-- The string values of a list of entries. -/
def textsOfEntries : Entries → List String
  | [] => []
  | (_, v) :: es => texts v ++ textsOfEntries es

end

mutual

/-- The keys of objects, at every depth. -/
def allKeys : Json → List String
  | .arr items => keysOfAll items
  | .obj entries => keysOfEntries entries
  | .null | .bool _ | .int _ | .str _ => []

/-- The keys in a list of values. -/
def keysOfAll : List Json → List String
  | [] => []
  | v :: vs => allKeys v ++ keysOfAll vs

/-- The keys of a list of entries, those of its values included. -/
def keysOfEntries : Entries → List String
  | [] => []
  | (k, v) :: es => k :: (allKeys v ++ keysOfEntries es)

end

@[simp] theorem texts_arr (vs : List Json) : (arr vs).texts = vs.flatMap texts := by
  rw [texts]
  induction vs with
  | nil => rfl
  | cons v vs ih => rw [textsOfAll, ih, List.flatMap_cons]

@[simp] theorem texts_obj (es : Entries) : (obj es).texts = es.flatMap fun e => e.2.texts := by
  rw [texts]
  induction es with
  | nil => rfl
  | cons e es ih => rw [textsOfEntries, ih, List.flatMap_cons]

@[simp] theorem allKeys_arr (vs : List Json) : (arr vs).allKeys = vs.flatMap allKeys := by
  rw [allKeys]
  induction vs with
  | nil => rfl
  | cons v vs ih => rw [keysOfAll, ih, List.flatMap_cons]

@[simp] theorem allKeys_obj (es : Entries) :
    (obj es).allKeys = es.flatMap fun e => e.1 :: e.2.allKeys := by
  rw [allKeys]
  induction es with
  | nil => rfl
  | cons e es ih => rw [keysOfEntries, ih, List.flatMap_cons, List.cons_append]

end Json

/-! ## Placeholders -/

/-- Whether a string value stands for a parameter: it starts with a colon. -/
def isMarked (s : String) : Bool := s.toList.head? == some ':'

/-- The string values that stand for parameters, at every depth. -/
def Json.placeholders (v : Json) : List String := v.texts.filter isMarked

theorem isMarked_append {s : String} (h : s ≠ "") (t : String) :
    isMarked (s ++ t) = isMarked s := by
  cases hs : s.toList with
  | nil => exact absurd (String.toList_eq_nil_iff.mp hs) h
  | cons c cs => simp [isMarked, hs]

@[simp] theorem Param.isMarked_placeholder (p : Param) : isMarked p.placeholder = true :=
  isMarked_append (by decide) p.name

theorem Identifier.Valid.not_marked {s : String} (h : Identifier.Valid s) :
    isMarked s = false := by
  obtain ⟨-, hsegment, -⟩ := Identifier.valid_iff.mp h
  unfold isMarked
  cases hs : s.toList with
  | nil => rfl
  | cons c cs =>
    by_cases hc : c = ':'
    · subst hc
      rw [hs] at hsegment
      cases hsegment
    · simp [hc]

theorem FieldPath.Valid.not_marked {s : String} (h : FieldPath.Valid s) :
    isMarked s = false := by
  unfold isMarked
  cases hs : s.toList with
  | nil => rfl
  | cons c cs =>
    by_cases hc : c = ':'
    · subst hc
      cases h.starts hs
    · simp [hc]

/-! ## Inserted entries -/

namespace Entries

theorem insert_subperm (key : String) (v : Json) (es : Entries) :
    (insert key v es).Subperm ((key, v) :: es) := by
  induction es with
  | nil => exact List.Subperm.refl _
  | cons e es ih =>
    obtain ⟨k, w⟩ := e
    rw [insert]
    split
    · rename_i hk
      subst hk
      exact (List.subperm_cons _).mpr List.Subperm.cons_self
    · have hswap : ((k, w) :: (key, v) :: es).Perm ((key, v) :: (k, w) :: es) := .swap ..
      exact ((List.subperm_cons _).mpr ih).trans hswap.subperm

theorem foldl_insert_subperm (pairs es : Entries) :
    (pairs.foldl (fun es p => insert p.1 p.2 es) es).Subperm (es ++ pairs) := by
  induction pairs generalizing es with
  | nil => rw [List.append_nil]; exact List.Subperm.refl _
  | cons p pairs ih =>
    have hmiddle : (p :: es ++ pairs).Perm (es ++ p :: pairs) := List.perm_middle.symm
    exact (ih (insert p.1 p.2 es)).trans
      (((List.subperm_append_right pairs).mpr (insert_subperm p.1 p.2 es)).trans hmiddle.subperm)

theorem ofPairs_subperm (pairs : Entries) : (ofPairs pairs).Subperm pairs :=
  foldl_insert_subperm pairs []

theorem insert_of_not_mem {key : String} {v : Json} {es : Entries} (h : key ∉ keys es) :
    insert key v es = es ++ [(key, v)] := by
  induction es with
  | nil => rfl
  | cons e es ih =>
    obtain ⟨k, w⟩ := e
    obtain ⟨hk, hes⟩ : ¬ key = k ∧ key ∉ keys es := by simpa [keys] using h
    rw [insert, if_neg fun he => hk he.symm, ih hes, List.cons_append]

theorem foldl_insert_of_nodup (pairs es : Entries) (h : (keys (es ++ pairs)).Nodup) :
    pairs.foldl (fun es p => insert p.1 p.2 es) es = es ++ pairs := by
  induction pairs generalizing es with
  | nil => rw [List.foldl_nil, List.append_nil]
  | cons p pairs ih =>
    have hsplit : es ++ p :: pairs = (es ++ [p]) ++ pairs := by simp
    have hp : p.1 ∉ keys es := by
      rw [keys_append, List.nodup_append] at h
      exact fun hmem => h.2.2 p.1 hmem p.1 List.mem_cons_self rfl
    rw [List.foldl_cons, insert_of_not_mem hp, hsplit]
    exact ih (es ++ [p]) (hsplit ▸ h)

theorem ofPairs_eq_nil_iff {pairs : Entries} : ofPairs pairs = [] ↔ pairs = [] := by
  have hinsert : ∀ (key : String) (v : Json) (es : Entries), insert key v es ≠ [] := by
    intro key v es
    have hget := get?_insert_self key v es
    intro hnil
    rw [hnil] at hget
    cases hget
  have hfold : ∀ (pairs : Entries) {es : Entries}, es ≠ [] →
      pairs.foldl (fun es p => insert p.1 p.2 es) es ≠ [] := by
    intro pairs
    induction pairs with
    | nil => exact fun h => h
    | cons p pairs ih => exact fun _ => ih (hinsert p.1 p.2 _)
  cases pairs with
  | nil => exact ⟨fun _ => rfl, fun _ => rfl⟩
  | cons p pairs =>
    have hne : ofPairs (p :: pairs) ≠ [] := hfold pairs (hinsert p.1 p.2 [])
    exact ⟨fun h => absurd h hne, fun h => by cases h⟩

theorem ofPairs_eq_of_nodup {pairs : Entries} (h : (keys pairs).Nodup) : ofPairs pairs = pairs :=
  foldl_insert_of_nodup pairs [] h

end Entries

/-- What a smaller list of entries holds, the larger one holds. -/
theorem subperm_flatMap {α β : Type} (f : α → List β) {l m : List α} (h : l.Subperm m) :
    (l.flatMap f).Subperm (m.flatMap f) := by
  obtain ⟨l', hperm, hsub⟩ := h
  have hflat : (l'.flatMap f).Sublist (m.flatMap f) := by
    clear hperm
    induction hsub with
    | slnil => exact List.Sublist.refl _
    | cons a _ ih => exact ih.trans (List.sublist_append_right ..)
    | cons_cons a _ ih => exact (List.Sublist.refl _).append ih
  exact ⟨l'.flatMap f, hperm.flatMap_right f, hflat⟩

end DocumentQuery

/-!
# JSON values

`Json` is the value tree of rendered queries and encoded definitions: numbers
are integers, and an object is the list of its entries in written order.

Main definitions:
* `Entries.insert`: how an object grows. A new key goes to the end; a key that
  is there keeps its place and takes the new value.
* `Json.ofEntries`: the object of a list of entries, inserted in turn, so no
  key occurs twice.
-/
namespace DocumentQuery

/-- A JSON value whose numbers are integers. -/
inductive Json where
  | null
  | bool (b : Bool)
  | int (n : Int)
  | str (s : String)
  | arr (items : List Json)
  | obj (entries : List (String × Json))
deriving Inhabited

/-- The entries of an object, in written order. -/
abbrev Entries := List (String × Json)

namespace Entries

/-- The keys, in written order. -/
def keys (es : Entries) : List String := es.map Prod.fst

/-- Writes `v` at `key`: in place if the key is there, else at the end. -/
def insert (key : String) (v : Json) : Entries → Entries
  | [] => [(key, v)]
  | (k, w) :: es => if k = key then (k, v) :: es else (k, w) :: insert key v es

/-- The value at `key`. -/
def get? (key : String) : Entries → Option Json
  | [] => none
  | (k, v) :: es => if k = key then some v else get? key es

/-- The entries left when `pairs` are inserted one after the other. -/
def ofPairs (pairs : List (String × Json)) : Entries :=
  pairs.foldl (fun es p => insert p.1 p.2 es) []

/-- One entry if there is a value, else none. -/
def optional (key : String) : Option Json → Entries
  | none => []
  | some v => [(key, v)]

/-- One entry if the condition holds, else none. -/
def when (cond : Bool) (key : String) (v : Json) : Entries :=
  if cond then [(key, v)] else []

@[simp] theorem get?_insert_self (key : String) (v : Json) (es : Entries) :
    get? key (insert key v es) = some v := by
  induction es with
  | nil => simp [insert, get?]
  | cons e es ih =>
    obtain ⟨k, w⟩ := e
    by_cases h : k = key <;> simp [insert, get?, h, ih]

theorem get?_insert_of_ne {key key' : String} (h : key ≠ key') (v : Json) (es : Entries) :
    get? key' (insert key v es) = get? key' es := by
  induction es with
  | nil => simp [insert, get?, h]
  | cons e es ih =>
    obtain ⟨k, w⟩ := e
    by_cases hk : k = key
    · subst hk; simp [insert, get?, h]
    · by_cases hk' : k = key' <;> simp_all [insert, get?]

/-- An insertion adds the key at the end unless it is there. -/
theorem keys_insert (key : String) (v : Json) (es : Entries) :
    keys (insert key v es) = if key ∈ keys es then keys es else keys es ++ [key] := by
  induction es with
  | nil => simp [insert, keys]
  | cons e es ih =>
    obtain ⟨k, w⟩ := e
    by_cases hk : k = key
    · simp [insert, keys, hk]
    · have hk' : ¬ key = k := fun h => hk h.symm
      simp only [insert, hk, if_false, keys, List.map_cons, List.mem_cons, hk', false_or] at ih ⊢
      rw [ih]
      split
      · rename_i h; simp [h]
      · rename_i h; simp [h]

end Entries

namespace Json

/-- The object with one entry. -/
def single (key : String) (v : Json) : Json := .obj [(key, v)]

/-- The object of entries inserted one after the other. -/
def ofEntries (pairs : List (String × Json)) : Json := .obj (Entries.ofPairs pairs)

/-- The array of strings. -/
def strings (l : List String) : Json := .arr (l.map .str)

/-- The integer of a natural number. -/
def nat (n : Nat) : Json := .int n

/-- The value, or `null` if there is none. -/
def ofOption : Option Json → Json
  | none => .null
  | some v => v

end Json

end DocumentQuery

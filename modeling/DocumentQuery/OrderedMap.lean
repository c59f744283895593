/-!
# Ordered maps

`OrderedMap κ α` is a finite map whose entries stand in strictly increasing
order of their keys: a walk over a map goes by key, and no key occurs twice.

Main definitions:
* `OrderedMap.insert`: adds an entry; a key that is there takes the new value.
* `OrderedMap.ofList`: inserts entries in turn, so of equal keys the last counts.

Results:
* `get?_insert_self`, `get?_insert_of_ne`: an insertion is seen at its key only.
-/
namespace DocumentQuery

/-- The relation `<` is a strict linear order. -/
class StrictLinearOrder (κ : Type) [LT κ] : Prop where
  lt_irrefl : ∀ a : κ, ¬ a < a
  lt_trans : ∀ {a b c : κ}, a < b → b < c → a < c
  lt_of_ne_of_not_lt : ∀ {a b : κ}, a ≠ b → ¬ a < b → b < a

instance : StrictLinearOrder String where
  lt_irrefl := String.lt_irrefl
  lt_trans := String.lt_trans
  lt_of_ne_of_not_lt h h' := Std.lt_of_le_of_ne (String.not_lt.mp h') (Ne.symm h)

/-- A finite map with its entries in order of their keys. -/
structure OrderedMap (κ : Type) [LT κ] (α : Type) where
  /-- The entries, by key. -/
  entries : List (κ × α)
  /-- Each key lies below every later one. -/
  ordered : entries.Pairwise (fun e f => e.1 < f.1)

namespace OrderedMap

variable {κ α : Type} [LT κ]

/-- The map without entries. -/
def empty : OrderedMap κ α := ⟨[], .nil⟩

instance : EmptyCollection (OrderedMap κ α) := ⟨empty⟩
instance : Inhabited (OrderedMap κ α) := ⟨empty⟩

/-- Whether there are no entries. -/
def isEmpty (m : OrderedMap κ α) : Bool := m.entries.isEmpty

/-- The keys, in order. -/
def keys (m : OrderedMap κ α) : List κ := m.entries.map Prod.fst

/-- The values, in order of their keys. -/
def values (m : OrderedMap κ α) : List α := m.entries.map Prod.snd

theorem ext {m n : OrderedMap κ α} (h : m.entries = n.entries) : m = n := by
  cases m; cases n; cases h; rfl

/-- The map with `f` applied to its values. -/
def mapValues {β : Type} (f : α → β) (m : OrderedMap κ α) : OrderedMap κ β :=
  ⟨m.entries.map fun e => (e.1, f e.2), List.pairwise_map.mpr m.ordered⟩

@[simp] theorem keys_mapValues {β : Type} (f : α → β) (m : OrderedMap κ α) :
    (m.mapValues f).keys = m.keys := by
  simp [keys, mapValues, Function.comp_def]

@[simp] theorem isEmpty_mapValues {β : Type} (f : α → β) (m : OrderedMap κ α) :
    (m.mapValues f).isEmpty = m.isEmpty := by
  simp [isEmpty, mapValues]

variable [DecidableEq κ]

/-- The value at a key. -/
def get? (m : OrderedMap κ α) (key : κ) : Option α :=
  (m.entries.find? fun e => e.1 = key).map Prod.snd

variable [DecidableLT κ]

/-- Puts an entry into its place in an ordered list of entries. -/
def insertEntry (key : κ) (a : α) : List (κ × α) → List (κ × α)
  | [] => [(key, a)]
  | (k, b) :: es =>
    if k = key then (k, a) :: es
    else if key < k then (key, a) :: (k, b) :: es
    else (k, b) :: insertEntry key a es

theorem mem_insertEntry {key : κ} {a : α} {e : κ × α} :
    ∀ {es : List (κ × α)}, e ∈ insertEntry key a es → e = (key, a) ∨ e ∈ es
  | [], h => by simp [insertEntry] at h; simp [h]
  | (k, b) :: es, h => by
    simp only [insertEntry] at h
    split at h
    · rename_i hk
      subst hk
      rcases List.mem_cons.mp h with rfl | h
      · exact Or.inl rfl
      · exact Or.inr (List.mem_cons_of_mem _ h)
    · split at h
      · rcases List.mem_cons.mp h with rfl | h
        · exact Or.inl rfl
        · exact Or.inr h
      · rcases List.mem_cons.mp h with rfl | h
        · exact Or.inr List.mem_cons_self
        · rcases mem_insertEntry h with h | h
          · exact Or.inl h
          · exact Or.inr (List.mem_cons_of_mem _ h)

theorem find?_insertEntry_self (key : κ) (a : α) :
    ∀ es : List (κ × α), (insertEntry key a es).find? (fun e => e.1 = key) = some (key, a)
  | [] => by simp [insertEntry]
  | (k, b) :: es => by
    simp only [insertEntry]
    split
    · rename_i h; simp [h]
    · split
      · simp
      · rename_i h _; simp [h, find?_insertEntry_self key a es]

theorem find?_insertEntry_of_ne {key key' : κ} (h : key ≠ key') (a : α) :
    ∀ es : List (κ × α),
      (insertEntry key a es).find? (fun e => e.1 = key') = es.find? (fun e => e.1 = key')
  | [] => by simp [insertEntry, h]
  | (k, b) :: es => by
    simp only [insertEntry]
    split
    · rename_i hk; subst hk; simp [h]
    · split
      · simp [h]
      · simp only [List.find?_cons, find?_insertEntry_of_ne h a es]

variable [StrictLinearOrder κ]

theorem ordered_insertEntry {key : κ} {a : α} :
    ∀ {es : List (κ × α)}, es.Pairwise (fun e f => e.1 < f.1) →
      (insertEntry key a es).Pairwise (fun e f => e.1 < f.1)
  | [], _ => by simp [insertEntry]
  | (k, b) :: es, h => by
    have hk := List.pairwise_cons.mp h
    simp only [insertEntry]
    split
    · exact List.pairwise_cons.mpr ⟨fun f hf => hk.1 f hf, hk.2⟩
    · split
      · rename_i hlt
        refine List.pairwise_cons.mpr ⟨fun f hf => ?_, h⟩
        rcases List.mem_cons.mp hf with rfl | hf
        · exact hlt
        · exact StrictLinearOrder.lt_trans hlt (hk.1 f hf)
      · rename_i hne hnlt
        refine List.pairwise_cons.mpr ⟨fun f hf => ?_, ordered_insertEntry hk.2⟩
        rcases mem_insertEntry hf with rfl | hf
        · exact StrictLinearOrder.lt_of_ne_of_not_lt (fun e => hne e.symm) hnlt
        · exact hk.1 f hf

/-- The map with `a` at `key`. -/
def insert (m : OrderedMap κ α) (key : κ) (a : α) : OrderedMap κ α :=
  ⟨insertEntry key a m.entries, ordered_insertEntry m.ordered⟩

/-- The map of entries inserted in turn. -/
def ofList (l : List (κ × α)) : OrderedMap κ α :=
  l.foldl (fun m e => m.insert e.1 e.2) ∅

omit [DecidableEq κ] [DecidableLT κ] in
/-- No key occurs twice. -/
theorem nodup_keys (m : OrderedMap κ α) : m.keys.Nodup := by
  rw [keys, List.nodup_iff_pairwise_ne, List.pairwise_map]
  refine m.ordered.imp fun {e f} (h : e.1 < f.1) => ?_
  intro he
  rw [he] at h
  exact StrictLinearOrder.lt_irrefl f.1 h

/-! ## Insertion and look-up -/

@[simp] theorem get?_insert_self (m : OrderedMap κ α) (key : κ) (a : α) :
    (m.insert key a).get? key = some a := by
  simp [get?, insert, find?_insertEntry_self]

theorem get?_insert_of_ne (m : OrderedMap κ α) {key key' : κ} (h : key ≠ key') (a : α) :
    (m.insert key a).get? key' = m.get? key' := by
  simp [get?, insert, find?_insertEntry_of_ne h]

end OrderedMap

end DocumentQuery

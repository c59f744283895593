import DocumentQuery.Identifier
import DocumentQuery.OrderedMap
/-!
# References

What a query refers to by name: a collection, a field in the documents of a
collection, and a parameter whose value is bound when the query is run. Each
carries the proof that its names are valid.

Fields are ordered by path and then by collection, so a map keyed by fields is
walked in path order (`Field.instLT`).
-/
namespace DocumentQuery

/-- What a name stands for, in messages. -/
inductive NameKind where
  | collection
  | field
  | parameter
  | alias
deriving DecidableEq, Repr

namespace NameKind

/-- The kind as a word. -/
def word : NameKind → String
  | .collection => "collection"
  | .field => "field"
  | .parameter => "parameter"
  | .alias => "alias"

end NameKind

/-- A named container of documents. -/
structure Collection where
  /-- The name, an identifier. -/
  name : String
  /-- The name is an identifier. -/
  valid : Identifier.Valid name
deriving DecidableEq

/-- A path inside the documents of a collection. -/
structure Field where
  /-- The path. -/
  path : String
  /-- The name of the collection. -/
  collection : String
  /-- The path is a field path. -/
  path_valid : FieldPath.Valid path
  /-- The collection's name is an identifier. -/
  collection_valid : Identifier.Valid collection
deriving DecidableEq

/-- A placeholder for a value. -/
structure Param where
  /-- The name, an identifier. -/
  name : String
  /-- The name is an identifier. -/
  valid : Identifier.Valid name
deriving DecidableEq

namespace Param

/-- The placeholder in rendered output: a colon and the name. -/
def placeholder (p : Param) : String := ":" ++ p.name

end Param

namespace Field

/-- The field in messages: the collection, a dot and the path. -/
def text (f : Field) : String := f.collection ++ "." ++ f.path

/-! ## The order of fields -/

instance : LT Field where
  lt f g := f.path < g.path ∨ f.path = g.path ∧ f.collection < g.collection

instance : DecidableLT Field := fun f g =>
  inferInstanceAs (Decidable (f.path < g.path ∨ f.path = g.path ∧ f.collection < g.collection))

theorem ext {f g : Field} (hp : f.path = g.path) (hc : f.collection = g.collection) : f = g := by
  cases f; cases g; cases hp; cases hc; rfl

instance : StrictLinearOrder Field where
  lt_irrefl f h := by
    rcases h with h | ⟨_, h⟩
    · exact String.lt_irrefl _ h
    · exact String.lt_irrefl _ h
  lt_trans h h' := by
    rcases h with h | ⟨e, h⟩ <;> rcases h' with h' | ⟨e', h'⟩
    · exact Or.inl (String.lt_trans h h')
    · exact Or.inl (e' ▸ h)
    · exact Or.inl (e ▸ h')
    · exact Or.inr ⟨e.trans e', String.lt_trans h h'⟩
  lt_of_ne_of_not_lt := by
    intro f g hne hnlt
    by_cases e : f.path = g.path
    · refine Or.inr ⟨e.symm, StrictLinearOrder.lt_of_ne_of_not_lt ?_ ?_⟩
      · exact fun hc => hne (ext e hc)
      · exact fun h => hnlt (Or.inr ⟨e, h⟩)
    · exact Or.inl (StrictLinearOrder.lt_of_ne_of_not_lt e fun h => hnlt (Or.inl h))

/-- The fields in order, each once. -/
def sortDistinct (fields : List Field) : List Field :=
  (OrderedMap.ofList (fields.map fun f => (f, ()))).keys

theorem sortDistinct_ordered (fields : List Field) : (sortDistinct fields).Pairwise (· < ·) :=
  List.pairwise_map.mpr (OrderedMap.ofList (fields.map fun f => (f, ()))).ordered

end Field

end DocumentQuery

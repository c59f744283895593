import DocumentQuery.Filter.Basic
/-!
# Selections

Which fields of the documents found are returned (`Projection`), in which
order the documents come (`SortClause`), and how many of them (`Pagination`).
-/
namespace DocumentQuery

/-- A part of an array: how many elements, after how many left out. -/
structure Slice where
  count : Param
  skip : Option Param

/-- How one field is returned. -/
structure ProjectionField where
  field : Field
  /-- Whether the field is returned or left out. -/
  included : Bool
  slice : Option Slice
  elemMatch : Option (List Filter)

namespace ProjectionField

/-- The field is returned. -/
def keep (field : Field) : ProjectionField :=
  { field, included := true, slice := none, elemMatch := none }

/-- The field is left out. -/
def leaveOut (field : Field) : ProjectionField :=
  { field, included := false, slice := none, elemMatch := none }

/-- A part of the array field is returned. -/
def sliced (field : Field) (count : Param) (skip : Option Param) : ProjectionField :=
  { keep field with slice := some { count, skip } }

/-- The first element of the array field that passes all conditions is returned. -/
def matching (field : Field) (conditions : List Filter) : ProjectionField :=
  { keep field with elemMatch := some conditions }

end ProjectionField

/-- Which fields are returned. -/
structure Projection where
  fields : List ProjectionField
  /-- Whether the projection names the fields to leave out. -/
  exclude : Bool

namespace Projection

instance : Inhabited Projection := ⟨[], false⟩

/-- The projection that returns the fields. -/
def including (fields : List Field) : Projection :=
  ⟨fields.map ProjectionField.keep, false⟩

/-- The projection that leaves the fields out. -/
def excluding (fields : List Field) : Projection :=
  ⟨fields.map ProjectionField.leaveOut, true⟩

end Projection

/-- A field and the direction in which it sorts. -/
structure SortClause where
  field : Field
  order : SortOrder

/-- A count of documents: a number, or bound when the query is run. -/
inductive Pagination where
  | fixed (n : Nat)
  | bound (p : Param)

end DocumentQuery

/-!
# Schemas

A schema lists collections, and for each the definitions of its fields. An
object field may define fields of its own, and an array field may say what its
elements are.

Main definitions:
* `FieldDefinition.children`: the definitions one level down that count, which
  are those of an object field and of the objects in an array field.
-/
namespace DocumentQuery

/-- The type of a field. -/
inductive FieldType where
  | string
  | int
  | float
  | bool
  | date
  | objectId
  | object
  | array
  | binary
  | any
deriving DecidableEq, Repr

namespace FieldType

/-- The types, in their listed order. -/
def all : List FieldType :=
  [.string, .int, .float, .bool, .date, .objectId, .object, .array, .binary, .any]

/-- The name of a type. -/
def name : FieldType → String
  | .string => "string"
  | .int => "int"
  | .float => "float"
  | .bool => "bool"
  | .date => "date"
  | .objectId => "object_id"
  | .object => "object"
  | .array => "array"
  | .binary => "binary"
  | .any => "any"

/-- The type with the given name. -/
def ofName? (s : String) : Option FieldType := all.find? fun t => t.name == s

theorem ofName?_name (t : FieldType) : ofName? t.name = some t := by cases t <;> rfl

end FieldType

/-- What the elements of an array are, with definitions of type `α` for their fields. -/
structure ArrayElement (α : Type) where
  type : FieldType
  fields : List α

/-- The definition of a field. -/
inductive FieldDefinition where
  | mk (name : String) (type : FieldType) (required : Bool) (fields : List FieldDefinition)
    (items : Option (ArrayElement FieldDefinition))

namespace FieldDefinition

/-- The name of the field. -/
def name : FieldDefinition → String
  | .mk name _ _ _ _ => name

/-- The type of the field. -/
def type : FieldDefinition → FieldType
  | .mk _ type _ _ _ => type

/-- Whether every document has the field. -/
def required : FieldDefinition → Bool
  | .mk _ _ required _ _ => required

/-- The definition without details. -/
def ofType (name : String) (type : FieldType) : FieldDefinition := .mk name type false [] none

/-- An object field. -/
def ofFields (name : String) (fields : List FieldDefinition) : FieldDefinition :=
  .mk name .object false fields none

/-- An array field with elements of a type. -/
def arrayOf (name : String) (type : FieldType) : FieldDefinition :=
  .mk name .array false [] (some ⟨type, []⟩)

/-- An array field whose elements are objects. -/
def arrayOfObjects (name : String) (fields : List FieldDefinition) : FieldDefinition :=
  .mk name .array false [] (some ⟨.object, fields⟩)

/-- The same field in every document. -/
def asRequired : FieldDefinition → FieldDefinition
  | .mk name type _ fields items => .mk name type true fields items

/-- The definitions one level down that count. -/
def children : FieldDefinition → List FieldDefinition
  | .mk _ .object _ fields _ => fields
  | .mk _ .array _ _ (some ⟨.object, fields⟩) => fields
  | _ => []

end FieldDefinition

/-- The definition of a collection. -/
structure CollectionDefinition where
  name : String
  fields : List FieldDefinition

/-- The definitions of all collections. -/
structure Schema where
  collections : List CollectionDefinition

end DocumentQuery

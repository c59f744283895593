import DocumentQuery.Dialect.Basic
import DocumentQuery.Operation
import DocumentQuery.Operator
import DocumentQuery.Reference
/-!
# Errors

`Error` lists what can go wrong, by cause; `Error.message` is the one place
where a cause is put into words. Causes that belong to one activity have a
type of their own: `QueryFault` for the shape of a finished query,
`ConstructionFault` for parts that contradict themselves, `Feature` for what a
dialect cannot express, and `SchemaFault` for definitions that cannot be
indexed.
-/
namespace DocumentQuery

/-! ## Limits on a query -/

/-- The greatest depth of nesting in the filter of a find. -/
def maxFilterDepth : Nat := 10

/-- The greatest number of documents inserted at once. -/
def maxBatchSize : Nat := 1000

/-- The greatest limit on the number of documents found. -/
def maxLimit : Nat := 10000

/-- The greatest number of entries in a projection. -/
def maxProjectionFields : Nat := 100

/-- The greatest number of sort clauses. -/
def maxSortFields : Nat := 10

/-- The greatest number of stages in a pipeline. -/
def maxPipelineStages : Nat := 50

/-- Why a query is not well formed. -/
inductive QueryFault where
  | missingTarget
  | limitTooLarge (n : Nat)
  | tooManyProjectionFields (n : Nat)
  | tooManySortFields (n : Nat)
  | filterTooDeep (depth : Nat)
  | insertDocumentCount (n : Nat)
  | noDocuments (op : Operation)
  | batchTooLarge (n : Nat)
  | noUpdateOperations (op : Operation)
  | missingFilter (op : Operation)
  | emptyPipeline
  | tooManyStages (n : Nat)
  | missingDistinctField
  | emptyGroup (logic : LogicOperator)
deriving DecidableEq, Repr

/-- A count and the limit it exceeds. -/
def exceeds (what : String) (n limit : Nat) : String :=
  what ++ ": " ++ toString n ++ " > " ++ toString limit

namespace QueryFault

/-- The fault in words. -/
def message : QueryFault → String
  | .missingTarget => "target collection is required"
  | .limitTooLarge n => exceeds "limit exceeds maximum" n maxLimit
  | .tooManyProjectionFields n => exceeds "projection fields exceed maximum" n maxProjectionFields
  | .tooManySortFields n => exceeds "sort fields exceed maximum" n maxSortFields
  | .filterTooDeep n => exceeds "filter nesting exceeds maximum depth" n maxFilterDepth
  | .insertDocumentCount n => "INSERT requires exactly one document (got " ++ toString n ++ ")"
  | .noDocuments op => op.token ++ " requires at least one document"
  | .batchTooLarge n => exceeds "batch size exceeds maximum" n maxBatchSize
  | .noUpdateOperations op => op.token ++ " requires at least one update operation"
  | .missingFilter op => op.token ++ " requires a filter for safety"
  | .emptyPipeline => "AGGREGATE requires at least one pipeline stage"
  | .tooManyStages n => exceeds "pipeline stages exceed maximum" n maxPipelineStages
  | .missingDistinctField => "DISTINCT requires a field"
  | .emptyGroup logic => logic.token ++ " group requires at least one condition"

end QueryFault

/-! ## Parts that contradict themselves -/

/-- Why a part of a query cannot be made or rendered, whatever the dialect supports. -/
inductive ConstructionFault where
  | emptyGroup (logic : LogicOperator)
  | unboundedRange (path : String)
  | conflictingDistances (path : String)
  | missingValue (op : UpdateOperator) (path : String)
  | setAndUnset (path : String)
deriving DecidableEq, Repr

namespace ConstructionFault

/-- The fault in words. -/
def message : ConstructionFault → String
  | .emptyGroup logic => logic.token ++ " requires at least one condition"
  | .unboundedRange path => "range on '" ++ path ++ "' requires a min or max bound"
  | .conflictingDistances path =>
    "geo filter on '" ++ path ++ "' sets both radius and max_distance"
  | .missingValue op path => op.token ++ " on '" ++ path ++ "' requires a value"
  | .setAndUnset path => "'" ++ path ++ "' is both set and unset in one update"

end ConstructionFault

/-! ## What a dialect cannot express -/

/-- The shape of a filter, as messages name it. -/
inductive FilterKind where
  | condition
  | group
  | range
  | regex
  | textSearch
  | geo
  | array
  | elemMatch
  | presence
deriving DecidableEq, Repr

namespace FilterKind

/-- The shape in words. -/
def label : FilterKind → String
  | .condition => "condition"
  | .group => "group"
  | .range => "range filter"
  | .regex => "regex filter"
  | .textSearch => "text search"
  | .geo => "geo filter"
  | .array => "array filter"
  | .elemMatch => "elemMatch filter"
  | .presence => "exists filter"

end FilterKind

/-- A part of a query that a dialect may lack. -/
inductive Feature where
  | operation (op : Operation)
  | filterOperator (op : FilterOperator)
  | logicOperator (logic : LogicOperator)
  | updateOperator (op : UpdateOperator)
  | filter (kind : FilterKind)
  | unboundedRange
  | regexOptions
  | excludeProjection
  | projectionSlice
  | projectionElemMatch
deriving DecidableEq, Repr

namespace Feature

/-- The feature in words. -/
def label : Feature → String
  | .operation op => "operation " ++ op.token
  | .filterOperator op => "filter operator " ++ op.token
  | .logicOperator logic => "logic operator " ++ logic.token
  | .updateOperator op => "update operator " ++ op.token
  | .filter kind => kind.label
  | .unboundedRange => "range filter without bounds"
  | .regexOptions => "regex options"
  | .excludeProjection => "exclude projection"
  | .projectionSlice => "projection $slice"
  | .projectionElemMatch => "projection $elemMatch"

end Feature

/-! ## Definitions that cannot be indexed -/

/-- Why a schema cannot be indexed. -/
inductive SchemaFault where
  | invalidCollection (name : String) (fault : NameFault)
  | duplicateCollection (name : String)
  | invalidField (name collection : String) (fault : NameFault)
  | duplicateField (path collection : String)
deriving DecidableEq, Repr

namespace SchemaFault

/-- The fault in words. -/
def message : SchemaFault → String
  | .invalidCollection name fault => "collection name '" ++ name ++ "' " ++ fault.message
  | .duplicateCollection name => "duplicate collection '" ++ name ++ "'"
  | .invalidField name collection fault =>
    "field name '" ++ name ++ "' in collection '" ++ collection ++ "' " ++ fault.message
  | .duplicateField path collection =>
    "duplicate field '" ++ path ++ "' in collection '" ++ collection ++ "'"

end SchemaFault

/-! ## All errors -/

/-- What can go wrong between a name and a rendered query. -/
inductive Error where
  | invalidName (kind : NameKind) (name : String) (fault : NameFault)
  | unknownCollection (name : String) (suggestion : Option String)
  | unknownField (collection path : String) (suggestion : Option String)
  | incompatible (method : String) (operation : Operation) (requires : OperationFamily)
  | unknownToken (text : String)
  | construction (fault : ConstructionFault)
  | invalidQuery (fault : QueryFault)
  | unsupported (dialect : Dialect) (feature : Feature)
  | schema (fault : SchemaFault)
  | malformedToml
deriving DecidableEq, Repr

namespace Error

/-- The sentence that offers a suggestion, if there is one. -/
def offer : Option String → String
  | none => ""
  | some s => ". Did you mean '" ++ s ++ "'?"

/-- The error in words. -/
def message : Error → String
  | .invalidName kind name fault =>
    "Invalid " ++ kind.word ++ " name '" ++ name ++ "': " ++ fault.message
  | .unknownCollection name suggestion =>
    "Collection '" ++ name ++ "' not found in schema" ++ offer suggestion
  | .unknownField collection path suggestion =>
    "Field '" ++ path ++ "' not found in collection '" ++ collection ++ "'" ++ offer suggestion
  | .incompatible method operation requires =>
    method ++ "() can only be used with " ++ requires.label ++ " operations (got "
      ++ operation.token ++ ")"
  | .unknownToken text => "Invalid operator: '" ++ text ++ "'"
  | .construction fault => "Builder error: " ++ fault.message
  | .invalidQuery fault => "Invalid AST: " ++ fault.message
  | .unsupported dialect feature => dialect.name ++ " does not support " ++ feature.label
  | .schema fault => "Schema error: " ++ fault.message
  | .malformedToml => "TOML error:"

end Error

/-! ## Reading names and tokens -/

/-- Reads a token of a vocabulary. -/
def readToken {α : Type} [Vocabulary α] (s : String) : Except Error α :=
  match Vocabulary.find? s with
  | some a => .ok a
  | none => .error (.unknownToken s)

namespace Dialect

/-- Reads the name of a dialect. -/
def ofName (s : String) : Except Error Dialect :=
  match ofName? s with
  | some d => .ok d
  | none => .error (.unknownToken s)

end Dialect

namespace Collection

/-- The collection with the given name. -/
def ofName (name : String) : Except Error Collection :=
  match h : Identifier.fault? name with
  | none => .ok ⟨name, h⟩
  | some fault => .error (.invalidName .collection name fault)

end Collection

namespace Field

/-- The field at a path of a collection; the collection's name is checked before the path. -/
def ofPath (collection path : String) : Except Error Field :=
  match hc : Identifier.fault? collection with
  | some fault => .error (.invalidName .collection collection fault)
  | none =>
    match hp : FieldPath.fault? path with
    | some fault => .error (.invalidName .field path fault)
    | none => .ok ⟨path, collection, hp, hc⟩

end Field

namespace Param

/-- The parameter with the given name. -/
def ofName (name : String) : Except Error Param :=
  match h : Identifier.fault? name with
  | none => .ok ⟨name, h⟩
  | some fault => .error (.invalidName .parameter name fault)

end Param

end DocumentQuery

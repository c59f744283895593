import DocumentQuery.Reference
import DocumentQuery.Operator
/-!
# Writes

What is written: new documents, and changes to the fields of documents that
are there. Both map fields to parameters, in field order; a field that is
written twice keeps the later parameter.
-/
namespace DocumentQuery

/-- A new document. -/
structure Document where
  fields : OrderedMap Field Param

namespace Document

/-- The document without fields. -/
def empty : Document := ⟨∅⟩

/-- The document with `value` at the field. -/
def set (d : Document) (field : Field) (value : Param) : Document :=
  ⟨d.fields.insert field value⟩

/-- The document whose fields are set in turn. -/
def ofList (l : List (Field × Param)) : Document :=
  l.foldl (fun d e => d.set e.1 e.2) empty

end Document

/-- One kind of change applied to some fields; a change such as removal takes no value. -/
structure UpdateOperation where
  operator : UpdateOperator
  fields : OrderedMap Field (Option Param)

namespace UpdateOperation

/-- The operation with the field among those it changes. -/
def set (op : UpdateOperation) (field : Field) (value : Option Param) : UpdateOperation :=
  { op with fields := op.fields.insert field value }

/-- The operation that changes the fields set in turn. -/
def ofList (operator : UpdateOperator) (l : List (Field × Option Param)) : UpdateOperation :=
  ⟨operator, OrderedMap.ofList l⟩

/-- Applies `f` to the operation with the given operator, which is added at the end if it is
not there. -/
def modify (operator : UpdateOperator) (f : UpdateOperation → UpdateOperation) :
    List UpdateOperation → List UpdateOperation
  | [] => [f ⟨operator, ∅⟩]
  | op :: ops => if op.operator = operator then f op :: ops else op :: modify operator f ops

end UpdateOperation

end DocumentQuery

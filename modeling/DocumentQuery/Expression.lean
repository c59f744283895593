import DocumentQuery.Reference
import DocumentQuery.Operator
/-!
# Expressions

What a pipeline computes from a document: fields, bound values, operators
applied to arguments, and a choice between two expressions. An accumulator
gathers the values of an expression over the documents of a group.
-/
namespace DocumentQuery

/-- A computed value. -/
inductive Expression where
  | field (field : Field)
  | literal (value : Param)
  | operator (operator : String) (args : List Expression)
  | conditional (condition consequence alternative : Expression)

/-- An output of a group: how it gathers, and what. Counting gathers nothing. -/
structure Accumulator where
  operator : AccumulatorOperator
  expression : Option Expression

namespace Accumulator

/-- The accumulator that counts documents. -/
def count : Accumulator := ⟨.count, none⟩

end Accumulator

end DocumentQuery

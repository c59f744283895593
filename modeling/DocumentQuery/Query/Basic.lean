import DocumentQuery.Pipeline
import DocumentQuery.Write
/-!
# Queries

A query is one operation on one collection. It has room for the parts of every
operation; which parts count is up to the operation, and `Query.start` leaves
all of them empty.
-/
namespace DocumentQuery

/-- One operation on a collection of documents. -/
structure Query where
  operation : Operation
  target : Collection
  filter : Option Filter := none
  projection : Option Projection := none
  sort : List SortClause := []
  skip : Option Pagination := none
  limit : Option Pagination := none
  documents : List Document := []
  updates : List UpdateOperation := []
  /-- Whether an update that finds no document adds one. -/
  upsert : Bool := false
  pipeline : List Stage := []
  distinctField : Option Field := none

namespace Query

/-- The query with no parts but its operation and target. -/
def start (operation : Operation) (target : Collection) : Query := { operation, target }

end Query

end DocumentQuery

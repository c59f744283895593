import DocumentQuery.Builder
import DocumentQuery.Dialect.Mongo.Query
import DocumentQuery.Dialect.Couch
import DocumentQuery.Dialect.Firestore
import DocumentQuery.Dialect.Dynamo.Query
/-!
# Rendering for a dialect

`Query.render` is the rendering of a query: the query has to be well formed and
its operation known to the dialect before any part of it is looked at.
-/
namespace DocumentQuery

namespace Dialect

/-- The object of a query in the dialect. -/
def renderEntries : Dialect → Query → Render Entries
  | .mongo => Mongo.renderEntries
  | .dynamo => Dynamo.renderEntries
  | .firestore => Firestore.renderEntries
  | .couch => Couch.renderEntries

end Dialect

namespace Query

/-- The query in a dialect, with the parameters to bind. -/
def render (q : Query) (dialect : Dialect) : Except Error Rendered :=
  match q.validate with
  | .error fault => .error (.invalidQuery fault)
  | .ok () =>
    if dialect.supportsOperation q.operation then
      Rendered.ofEntries (dialect.renderEntries q)
    else .error (.unsupported dialect (.operation q.operation))

end Query

namespace Builder

/-- The built query in a dialect. -/
def render (b : Builder) (dialect : Dialect) : Except Error Rendered := do
  let q ← b.build
  q.render dialect

end Builder

end DocumentQuery

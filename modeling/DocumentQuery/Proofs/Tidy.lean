import DocumentQuery.Query.Basic
import DocumentQuery.Dialect.Mongo.Pipeline
/-!
# Queries without repeated keys

An object keeps one value for each key. Where a query names a path twice in one
place, the later value stands and the earlier one is left out, although its
parameter is bound. A tidy query has no such places.

Main definitions:
* `Projection.Tidy`, `Document.Tidy`, `UpdateOperation.Tidy`, `Stage.Tidy`: no
  two entries of the part have the same key.
* `Query.Tidy`: the parts that the operation of the query uses are tidy.
* `Stage.DistinctFacets`: no two facets of a stage have the same name. A stage
  holds its facets as a list, since a tree cannot hold an ordered map of trees of
  its own kind, so this is a hypothesis where it matters. The facets of
  `Stage.ofFacets` come from a map, which has no name twice (`OrderedMap.nodup_keys`).
-/
namespace DocumentQuery

/-- No path is named twice. -/
def Projection.Tidy (p : Projection) : Prop := (p.fields.map fun f => f.field.path).Nodup

/-- No two fields have the same path. -/
def Document.Tidy (d : Document) : Prop := (d.fields.keys.map Field.path).Nodup

/-- No two fields have the same path. -/
def UpdateOperation.Tidy (op : UpdateOperation) : Prop := (op.fields.keys.map Field.path).Nodup

instance (p : Projection) : Decidable p.Tidy := inferInstanceAs (Decidable (List.Nodup _))

instance (d : Document) : Decidable d.Tidy := inferInstanceAs (Decidable (List.Nodup _))

instance (op : UpdateOperation) : Decidable op.Tidy := inferInstanceAs (Decidable (List.Nodup _))

namespace Stage

mutual

/-- No computed value has the name of a selected path, and no output of a group has the name of
the group's key. -/
def Tidy : Stage → Prop
  | .project projection computed =>
    projection.Tidy ∧ ∀ f ∈ projection.fields, f.field.path ∉ computed.keys
  | .group _ accumulators => Mongo.groupKey ∉ accumulators.keys
  | .lookup _ _ _ _ pipeline _ => TidyAll pipeline
  | .facet facets => TidyFacets facets
  | .filter _ | .sort _ | .limit _ | .skip _ | .unwind .. | .addFields _ | .replaceRoot _ | .count _
  | .bucket .. => True

/-- Every stage is tidy. -/
def TidyAll : List Stage → Prop
  | [] => True
  | s :: rest => s.Tidy ∧ TidyAll rest

/-- Every stage of every facet is tidy. -/
def TidyFacets : List (String × List Stage) → Prop
  | [] => True
  | (_, stages) :: rest => TidyAll stages ∧ TidyFacets rest

end

mutual

/-- The facets of the stage, and of the stages inside it, have distinct names. -/
def DistinctFacets : Stage → Prop
  | .lookup _ _ _ _ pipeline _ => DistinctFacetsIn pipeline
  | .facet facets => (facets.map Prod.fst).Nodup ∧ DistinctFacetsBelow facets
  | .filter _ | .project .. | .group .. | .sort _ | .limit _ | .skip _ | .unwind .. | .addFields _
  | .replaceRoot _ | .count _ | .bucket .. => True

/-- The facets in a list of stages have distinct names. -/
def DistinctFacetsIn : List Stage → Prop
  | [] => True
  | s :: rest => s.DistinctFacets ∧ DistinctFacetsIn rest

/-- The facets in the stages of facets have distinct names. -/
def DistinctFacetsBelow : List (String × List Stage) → Prop
  | [] => True
  | (_, stages) :: rest => DistinctFacetsIn stages ∧ DistinctFacetsBelow rest

end

end Stage

/-- The parts of the query that its operation uses are tidy. -/
def Query.Tidy (q : Query) : Prop :=
  match q.operation with
  | .find | .findOne => ∀ p ∈ q.projection, p.Tidy
  | .insert | .insertMany => ∀ d ∈ q.documents, d.Tidy
  | .update | .updateMany => ∀ op ∈ q.updates, op.Tidy
  | .aggregate => Stage.TidyAll q.pipeline
  | .delete | .deleteMany | .count | .distinct => True

end DocumentQuery

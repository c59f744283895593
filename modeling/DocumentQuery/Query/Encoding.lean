import DocumentQuery.Json.Basic
import DocumentQuery.Query.Basic
/-!
# Queries as data

`Query.toJson` writes a query down in full: every part under its own key,
absent parts as `null`, alternatives told apart by a tag (`kind` for filters
and expressions, `stage` for stages). A map keyed by fields is written with
the paths as keys.
-/
namespace DocumentQuery

/-! ## Names of alternatives -/

/-- A vocabulary whose words have names of their own in encoded queries. -/
class EncodedVocabulary (α : Type) [Vocabulary α] where
  /-- The word in an encoded query. -/
  encodedName : α → String
  /-- No two words have one name. -/
  distinct : (Vocabulary.all : List α).Pairwise fun a b => ¬ encodedName a = encodedName b

/-- A word is determined by its name. -/
@[simp] theorem EncodedVocabulary.encodedName_inj {α : Type} [Vocabulary α] [EncodedVocabulary α]
    {a b : α} : encodedName a = encodedName b ↔ a = b :=
  ⟨Vocabulary.eq_of_pairwise (fun h => h.symm) distinct, fun h => h ▸ rfl⟩

namespace Operation

/-- The operation in an encoded query. -/
def encodedName : Operation → String
  | .find => "Find"
  | .findOne => "FindOne"
  | .insert => "Insert"
  | .insertMany => "InsertMany"
  | .update => "Update"
  | .updateMany => "UpdateMany"
  | .delete => "Delete"
  | .deleteMany => "DeleteMany"
  | .aggregate => "Aggregate"
  | .count => "Count"
  | .distinct => "Distinct"

instance : EncodedVocabulary Operation where
  encodedName := encodedName
  distinct := by decide +kernel

end Operation

namespace FilterOperator

/-- The test in an encoded query. -/
def encodedName : FilterOperator → String
  | .eq => "Eq"
  | .ne => "Ne"
  | .gt => "Gt"
  | .gte => "Gte"
  | .lt => "Lt"
  | .lte => "Lte"
  | .isIn => "In"
  | .notIn => "NotIn"
  | .present => "Exists"
  | .type => "Type"
  | .regex => "Regex"
  | .text => "Text"
  | .mod => "Mod"
  | .all => "All"
  | .elemMatch => "ElemMatch"
  | .size => "Size"
  | .geoWithin => "GeoWithin"
  | .geoIntersects => "GeoIntersects"
  | .near => "Near"
  | .nearSphere => "NearSphere"

instance : EncodedVocabulary FilterOperator where
  encodedName := encodedName
  distinct := by decide +kernel

end FilterOperator

namespace LogicOperator

/-- The combination in an encoded query. -/
def encodedName : LogicOperator → String
  | .and => "And"
  | .or => "Or"
  | .nor => "Nor"
  | .not => "Not"

instance : EncodedVocabulary LogicOperator where
  encodedName := encodedName
  distinct := by decide +kernel

end LogicOperator

namespace UpdateOperator

/-- The change in an encoded query. -/
def encodedName : UpdateOperator → String
  | .set => "Set"
  | .unset => "Unset"
  | .setOnInsert => "SetOnInsert"
  | .inc => "Inc"
  | .mul => "Mul"
  | .min => "Min"
  | .max => "Max"
  | .rename => "Rename"
  | .currentDate => "CurrentDate"
  | .addToSet => "AddToSet"
  | .pop => "Pop"
  | .pull => "Pull"
  | .push => "Push"
  | .pullAll => "PullAll"

instance : EncodedVocabulary UpdateOperator where
  encodedName := encodedName
  distinct := by decide +kernel

end UpdateOperator

namespace AccumulatorOperator

/-- The accumulator in an encoded query. -/
def encodedName : AccumulatorOperator → String
  | .sum => "Sum"
  | .avg => "Avg"
  | .min => "Min"
  | .max => "Max"
  | .first => "First"
  | .last => "Last"
  | .push => "Push"
  | .addToSet => "AddToSet"
  | .count => "Count"

instance : EncodedVocabulary AccumulatorOperator where
  encodedName := encodedName
  distinct := by decide +kernel

end AccumulatorOperator

namespace SortOrder

/-- The direction in an encoded query. -/
def encodedName : SortOrder → String
  | .ascending => "Ascending"
  | .descending => "Descending"

end SortOrder

open EncodedVocabulary (encodedName)

/-! ## References -/

namespace Collection

/-- The collection as an object. -/
def toJson (c : Collection) : Json := .obj [("name", .str c.name)]

end Collection

namespace Field

/-- The field as an object. -/
def toJson (f : Field) : Json := .obj [("path", .str f.path), ("collection", .str f.collection)]

end Field

namespace Param

/-- The parameter as an object. -/
def toJson (p : Param) : Json := .obj [("name", .str p.name)]

/-- The parameter as an object, or `null`. -/
def optionToJson (p : Option Param) : Json := Json.ofOption (p.map toJson)

end Param

/-! ## Filters -/

namespace RangeFilter

/-- The parts of a range. -/
def entries (r : RangeFilter) : Entries :=
  [("field", r.field.toJson), ("min", Param.optionToJson r.min),
    ("max", Param.optionToJson r.max), ("min_exclusive", .bool r.minExclusive),
    ("max_exclusive", .bool r.maxExclusive)]

end RangeFilter

namespace TextSearch

/-- The parts of a text search. -/
def entries (t : TextSearch) : Entries :=
  [("search", t.search.toJson), ("language", Param.optionToJson t.language),
    ("case_sensitive", .bool t.caseSensitive),
    ("diacritic_sensitive", .bool t.diacriticSensitive)]

end TextSearch

namespace GeoFilter

/-- The parts of a test of location. -/
def entries (g : GeoFilter) : Entries :=
  [("field", g.field.toJson), ("operator", .str (encodedName g.operator)),
    ("center", .obj [("lon", g.lon.toJson), ("lat", g.lat.toJson)]),
    ("radius", Param.optionToJson g.radius), ("max_distance", Param.optionToJson g.maxDistance),
    ("min_distance", Param.optionToJson g.minDistance)]

end GeoFilter

namespace Filter

/-- The parts of a test of a field against a value. -/
def testEntries (field : Field) (operator : FilterOperator) (value : Param) : Entries :=
  [("field", field.toJson), ("operator", .str (encodedName operator)), ("value", value.toJson)]

/-- An object with its tag first. -/
def tagged (kind : String) (parts : Entries) : Json := .obj (("kind", .str kind) :: parts)

mutual

/-- The filter as an object. -/
def toJson : Filter → Json
  | .condition field operator value => tagged "condition" (testEntries field operator value)
  | .group logic conditions =>
    tagged "group" [("logic", .str (encodedName logic)),
      ("conditions", .arr (listToJson conditions))]
  | .range r => tagged "range" r.entries
  | .regex field pattern options =>
    tagged "regex" [("field", field.toJson), ("pattern", pattern.toJson),
      ("options", Param.optionToJson options)]
  | .textSearch t => tagged "text_search" t.entries
  | .geo g => tagged "geo" g.entries
  | .array field operator value => tagged "array" (testEntries field operator value)
  | .elemMatch field conditions =>
    tagged "elem_match" [("field", field.toJson), ("conditions", .arr (listToJson conditions))]
  | .presence field present =>
    tagged "exists" [("field", field.toJson), ("exists", .bool present)]

/-- The filters of a list as objects. -/
def listToJson : List Filter → List Json
  | [] => []
  | f :: fs => toJson f :: listToJson fs

end

end Filter

/-! ## Expressions -/

namespace Expression

mutual

/-- The expression as an object. -/
def toJson : Expression → Json
  | .field f => Filter.tagged "field" [("field", f.toJson)]
  | .literal p => Filter.tagged "literal" [("value", p.toJson)]
  | .operator op args =>
    Filter.tagged "operator" [("operator", .str op), ("args", .arr (listToJson args))]
  | .conditional condition consequence alternative =>
    Filter.tagged "conditional" [("if", toJson condition), ("then", toJson consequence),
      ("else", toJson alternative)]

/-- The expressions of a list as objects. -/
def listToJson : List Expression → List Json
  | [] => []
  | e :: es => toJson e :: listToJson es

end

end Expression

namespace Accumulator

/-- The accumulator as an object. -/
def toJson (a : Accumulator) : Json :=
  .obj [("op", .str (encodedName a.operator)),
    ("expr", Json.ofOption (a.expression.map Expression.toJson))]

end Accumulator

/-! ## Selections -/

namespace Slice

/-- The part of an array as an object. -/
def toJson (s : Slice) : Json :=
  .obj [("count", s.count.toJson), ("skip", Param.optionToJson s.skip)]

end Slice

namespace ProjectionField

/-- The entry of a projection as an object. -/
def toJson (p : ProjectionField) : Json :=
  .obj [("field", p.field.toJson), ("include", .bool p.included),
    ("slice", Json.ofOption (p.slice.map Slice.toJson)),
    ("elem_match", Json.ofOption (p.elemMatch.map fun fs => .arr (Filter.listToJson fs)))]

end ProjectionField

namespace Projection

/-- The projection as an object. -/
def toJson (p : Projection) : Json :=
  .obj [("fields", .arr (p.fields.map ProjectionField.toJson)), ("exclude", .bool p.exclude)]

end Projection

namespace SortClause

/-- The sort clause as an object. -/
def toJson (s : SortClause) : Json :=
  .obj [("field", s.field.toJson), ("order", .str s.order.encodedName)]

end SortClause

namespace Pagination

/-- The count as an object that tells a number from a parameter. -/
def toJson : Pagination → Json
  | .fixed n => .obj [("static", .nat n)]
  | .bound p => .obj [("param", p.toJson)]

end Pagination

/-! ## Writes -/

/-- A map keyed by fields as an object keyed by their paths. -/
def pathEntries {α : Type} (value : α → Json) (m : OrderedMap Field α) : Entries :=
  m.entries.map fun e => (e.1.path, value e.2)

namespace Document

/-- The document as an object. -/
def toJson (d : Document) : Json := .obj [("fields", .obj (pathEntries Param.toJson d.fields))]

end Document

namespace UpdateOperation

/-- The update operation as an object. -/
def toJson (op : UpdateOperation) : Json :=
  .obj [("operator", .str (encodedName op.operator)),
    ("fields", .obj (pathEntries Param.optionToJson op.fields))]

end UpdateOperation

/-! ## Pipelines -/

namespace Stage

/-- Values by name as an object. -/
def namedToJson {α : Type} (value : α → Json) (m : Named α) : Json :=
  .obj (m.entries.map fun e => (e.1, value e.2))

/-- An object with the tag of a stage first. -/
def tagged (kind : String) (parts : Entries) : Json := .obj (("stage", .str kind) :: parts)

mutual

/-- The stage as an object. -/
def toJson : Stage → Json
  | .filter f => tagged "match" [("filter", f.toJson)]
  | .project projection computed =>
    tagged "project" [("projection", projection.toJson),
      ("computed", namedToJson Expression.toJson computed)]
  | .group id accumulators =>
    tagged "group" [("id", Json.ofOption (id.map Expression.toJson)),
      ("accumulators", namedToJson Accumulator.toJson accumulators)]
  | .sort sorts => tagged "sort" [("sorts", .arr (sorts.map SortClause.toJson))]
  | .limit value => tagged "limit" [("value", value.toJson)]
  | .skip value => tagged "skip" [("value", value.toJson)]
  | .unwind path includeArrayIndex preserve =>
    tagged "unwind" [("path", path.toJson),
      ("include_array_index", Json.ofOption (includeArrayIndex.map .str)),
      ("preserve_null_and_empty_arrays", .bool preserve)]
  | .lookup source localField foreignField output pipeline bindings =>
    tagged "lookup" [("from", source.toJson), ("local_field", localField.toJson),
      ("foreign_field", foreignField.toJson), ("as_", .str output),
      ("pipeline", .arr (listToJson pipeline)),
      ("let_vars", namedToJson Expression.toJson bindings)]
  | .addFields fields => tagged "add_fields" [("fields", namedToJson Expression.toJson fields)]
  | .replaceRoot newRoot => tagged "replace_root" [("new_root", newRoot.toJson)]
  | .count name => tagged "count" [("field_name", .str name)]
  | .facet facets => tagged "facet" [("facets", .obj (facetsToJson facets))]
  | .bucket groupBy boundaries fallback output =>
    tagged "bucket" [("group_by", groupBy.toJson),
      ("boundaries", .arr (boundaries.map Param.toJson)),
      ("default", Param.optionToJson fallback), ("output", namedToJson Accumulator.toJson output)]

/-- The stages of a list as objects. -/
def listToJson : List Stage → List Json
  | [] => []
  | s :: rest => toJson s :: listToJson rest

/-- The facets as entries. -/
def facetsToJson : List (String × List Stage) → Entries
  | [] => []
  | (name, stages) :: rest => (name, .arr (listToJson stages)) :: facetsToJson rest

end

end Stage

/-! ## Queries -/

namespace Query

/-- The query as an object. -/
def toJson (q : Query) : Json :=
  .obj [("operation", .str (encodedName q.operation)), ("target", q.target.toJson),
    ("filter", Json.ofOption (q.filter.map Filter.toJson)),
    ("projection", Json.ofOption (q.projection.map Projection.toJson)),
    ("sort", .arr (q.sort.map SortClause.toJson)),
    ("skip", Json.ofOption (q.skip.map Pagination.toJson)),
    ("limit", Json.ofOption (q.limit.map Pagination.toJson)),
    ("documents", .arr (q.documents.map Document.toJson)),
    ("update_ops", .arr (q.updates.map UpdateOperation.toJson)), ("upsert", .bool q.upsert),
    ("pipeline", .arr (Stage.listToJson q.pipeline)),
    ("distinct_field", Json.ofOption (q.distinctField.map Field.toJson))]

end Query

end DocumentQuery

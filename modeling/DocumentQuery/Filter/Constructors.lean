import DocumentQuery.Filter.Basic
/-!
# Making filters

The filters in common use by name. `Filter.tryGroup` and `Filter.tryRange`
refuse what the plain forms let through: a group without conditions and a
range without bounds.
-/
namespace DocumentQuery.Filter

/-- The field passes a test against the value. -/
def test (operator : FilterOperator) (field : Field) (value : Param) : Filter :=
  .condition field operator value

/-- The field equals the value. -/
def eq : Field → Param → Filter := test .eq

/-- The field differs from the value. -/
def ne : Field → Param → Filter := test .ne

/-- The field lies above the value. -/
def gt : Field → Param → Filter := test .gt

/-- The field lies at or above the value. -/
def gte : Field → Param → Filter := test .gte

/-- The field lies below the value. -/
def lt : Field → Param → Filter := test .lt

/-- The field lies at or below the value. -/
def lte : Field → Param → Filter := test .lte

/-- The field is in the list of values. -/
def isIn : Field → Param → Filter := test .isIn

/-- The field is not in the list of values. -/
def notIn : Field → Param → Filter := test .notIn

/-- The array field holds all the values. -/
def all (field : Field) (values : Param) : Filter := .array field .all values

/-- The array field has the length. -/
def size (field : Field) (length : Param) : Filter := .array field .size length

/-- A group, unless it has no conditions. -/
def tryGroup (logic : LogicOperator) (conditions : List Filter) : Except Error Filter :=
  if conditions.isEmpty then .error (.construction (.emptyGroup logic))
  else .ok (.group logic conditions)

/-- A range with both bounds included. -/
def between (field : Field) (min max : Option Param) : Filter :=
  .range { field, min, max, minExclusive := false, maxExclusive := false }

/-- A range with both bounds left out. -/
def strictlyBetween (field : Field) (min max : Option Param) : Filter :=
  .range { field, min, max, minExclusive := true, maxExclusive := true }

/-- A range with both bounds included, unless it has none. -/
def tryRange (field : Field) (min max : Option Param) : Except Error Filter :=
  if min.isNone && max.isNone then .error (.construction (.unboundedRange field.path))
  else .ok (between field min max)

/-- The field lies within `radius` of a point. -/
def near (field : Field) (lon lat radius : Param) : Filter :=
  .geo
    { field, operator := .near, lon, lat, radius := some radius, maxDistance := none,
      minDistance := none }

/-- The text index matches the search words. -/
def search (words : Param) : Filter :=
  .textSearch
    { search := words, language := none, caseSensitive := false, diacriticSensitive := false }

end DocumentQuery.Filter

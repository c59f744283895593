import DocumentQuery.Dialect.Rendering
/-!
# Filters for mongo

A filter becomes an object: a group holds the objects of its conditions in an
array, and a leaf holds its operators under the path of its field.

The conditions of an element match are put into one object. Where two of them
test the same path, their operators are put together; where that would lose
one, the objects stay apart in a conjunction (`mergeAll`).
-/
namespace DocumentQuery.Mongo

/-! ## Putting objects together -/

/-- Whether the key is that of an operator: it starts with `$`. -/
def isOperatorKey (key : String) : Bool := key.toList.head? == some '$'

/-- Whether every key is that of an operator. -/
def operatorsOnly (es : Entries) : Bool := (Entries.keys es).all isOperatorKey

/-- Whether two objects have no key in common. -/
def disjoint (es fs : Entries) : Bool := (Entries.keys fs).all fun k => (Entries.get? k es).isNone

/-- Two values at one key: two objects of operators without a common key can stand together. -/
def joinOperators? : Json → Json → Option Json
  | .obj es, .obj fs =>
    if operatorsOnly es && operatorsOnly fs && disjoint es fs then some (.obj (es ++ fs))
    else none
  | _, _ => none

/-- Adds an entry to an object, joining operators where the key is there. -/
def mergeAt? (es : Entries) (key : String) (v : Json) : Option Entries :=
  match Entries.get? key es with
  | none => some (es ++ [(key, v)])
  | some w => (joinOperators? w v).map fun u => Entries.insert key u es

/-- Adds the entries of an object one after the other. -/
def mergeInto? (es : Entries) : Entries → Option Entries
  | [] => some es
  | (k, v) :: fs => (mergeAt? es k v).bind fun es => mergeInto? es fs

/-- Adds the entries of all objects. -/
def mergeObjects? (es : Entries) : List Json → Option Entries
  | [] => some es
  | .obj fs :: rest => (mergeInto? es fs).bind fun es => mergeObjects? es rest
  | _ :: _ => none

/-- One object for all, or else their conjunction. -/
def mergeAll (objects : List Json) : Json :=
  match mergeObjects? [] objects with
  | some es => .obj es
  | none => .single "$and" (.arr objects)

/-! ## Leaves -/

/-- A test of a field against a value. -/
def renderTest (field : Field) (operator : FilterOperator) (value : Param) : Render Json := do
  let v ← Render.placeholder value
  pure (.single field.path (.single operator.token v))

/-- The comparisons of a range. -/
def renderRange (r : RangeFilter) : Render Json := do
  let bounds ← Render.each (fun b => do
    let v ← Render.placeholder b.2
    pure (b.1.token, v)) r.bounds
  pure (.single r.field.path (.obj bounds))

/-- A pattern and its options. -/
def renderRegex (field : Field) (pattern : Param) (options : Option Param) : Render Json := do
  let p ← Render.placeholder pattern
  let o ← Render.optional Render.placeholder options
  pure (.single field.path (.obj (("$regex", p) :: Entries.optional "$options" o)))

/-- A search in the text index. -/
def renderTextSearch (t : TextSearch) : Render Json := do
  let search ← Render.placeholder t.search
  let language ← Render.optional Render.placeholder t.language
  pure (.single "$text" (.obj (("$search", search) :: Entries.optional "$language" language
    ++ Entries.when t.caseSensitive "$caseSensitive" (.bool true)
    ++ Entries.when t.diacriticSensitive "$diacriticSensitive" (.bool true))))

/-- The greatest distance of a test of location: it may be given as radius or as distance, but not
as both. -/
def greatestDistance (g : GeoFilter) : Except Error (Option Param) :=
  match g.radius, g.maxDistance with
  | some _, some _ => .error (.construction (.conflictingDistances g.field.path))
  | some r, none => .ok (some r)
  | none, d => .ok d

/-- A test of location. -/
def renderGeo (g : GeoFilter) : Render Json := do
  let lon ← Render.placeholder g.lon
  let lat ← Render.placeholder g.lat
  let greatest ← Render.ofExcept (greatestDistance g)
  let max ← Render.optional Render.placeholder greatest
  let min ← Render.optional Render.placeholder g.minDistance
  let point := Json.obj [("type", .str "Point"), ("coordinates", .arr [lon, lat])]
  pure (.single g.field.path (.single g.operator.token
    (.obj (("$geometry", point) :: Entries.optional "$maxDistance" max
      ++ Entries.optional "$minDistance" min))))

/-- A test whether the field is there. -/
def presence (field : Field) (present : Bool) : Json :=
  .single field.path (.single "$exists" (.bool present))

/-! ## Filters -/

mutual

/-- The object of a filter. -/
def renderFilter : Filter → Render Json
  | .condition field operator value => renderTest field operator value
  | .group logic conditions =>
    if Dialect.mongo.supportsLogic logic then do
      let objects ← renderFilters conditions
      pure (.single logic.token (.arr objects))
    else Render.unsupported .mongo (.logicOperator logic)
  | .range r => renderRange r
  | .regex field pattern options => renderRegex field pattern options
  | .textSearch t => renderTextSearch t
  | .geo g => renderGeo g
  | .array field operator value => renderTest field operator value
  | .elemMatch field conditions => do
    let objects ← renderFilters conditions
    pure (.single field.path (.single "$elemMatch" (mergeAll objects)))
  | .presence field present => pure (presence field present)

/-- The objects of a list of filters. -/
def renderFilters : List Filter → Render (List Json)
  | [] => pure []
  | f :: fs => do
    let v ← renderFilter f
    let vs ← renderFilters fs
    pure (v :: vs)

end

/-- The object of an element match's conditions. -/
def renderMerged (conditions : List Filter) : Render Json := do
  let objects ← renderFilters conditions
  pure (mergeAll objects)

end DocumentQuery.Mongo

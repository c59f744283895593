import DocumentQuery.Json.Basic
/-!
# TOML values

The value tree of a TOML document. Floats and dates are kept as written, since
nothing here computes with them.
-/
namespace DocumentQuery.Toml

/-- A value of a TOML document. -/
inductive Value where
  | string (s : String)
  | integer (n : Int)
  | float (text : String)
  | boolean (b : Bool)
  | datetime (text : String)
  | array (items : List Value)
  | table (entries : List (String × Value))
deriving Inhabited

namespace Value

mutual

/-- The value as JSON, with floats and dates as strings. -/
def toJson : Value → Json
  | .string s => .str s
  | .integer n => .int n
  | .float text => .str text
  | .boolean b => .bool b
  | .datetime text => .str text
  | .array items => .arr (itemsToJson items)
  | .table entries => .obj (entriesToJson entries)

/-- The items of an array as JSON. -/
def itemsToJson : List Value → List Json
  | [] => []
  | v :: vs => toJson v :: itemsToJson vs

/-- The entries of a table as JSON. -/
def entriesToJson : List (String × Value) → Entries
  | [] => []
  | (k, v) :: es => (k, toJson v) :: entriesToJson es

end

end Value

end DocumentQuery.Toml

import DocumentQuery.Dialect.Mongo.Filter
import DocumentQuery.Proofs.Formula
/-!
# Reading filter objects

What a filter object says, whoever made it. An object is the conjunction of its
entries. An array under `$and`, `$or` or `$nor` holds the parts of a
connective, and an object under a path is the conjunction of its operators.

Some keys only say more about an operator beside them (`companions`): they are
read with that operator and not alone.

Main definitions:
* `meaning`: the formula of an object.
* `proper`: whether every part of the object is one that filters have. On other
  objects `meaning` is of no account.
-/
namespace DocumentQuery

namespace FilterOperator

/-- The test with the given token. -/
def ofToken? (s : String) : Option FilterOperator :=
  (Vocabulary.all : List FilterOperator).find? fun op => op.token == s

@[simp] theorem ofToken?_token (op : FilterOperator) : ofToken? op.token = some op :=
  Vocabulary.all_find?_token op

theorem token_of_ofToken? {s : String} {op : FilterOperator} (h : ofToken? s = some op) :
    op.token = s := by
  have := List.find?_some h
  simpa using this

end FilterOperator

namespace Mongo

/-! ## Operands -/

/-- The parameter whose placeholder stands at the key. -/
def paramAt? (key : String) (es : Entries) : Option Param :=
  match Entries.get? key es with
  | some (.str s) => Param.ofPlaceholder? s
  | _ => none

/-- Whether the key is switched on. -/
def flagAt (key : String) (es : Entries) : Bool :=
  match Entries.get? key es with
  | some (.bool b) => b
  | _ => false

/-- The longitude and latitude of the point in an operand. -/
def point? (es : Entries) : Option (Param × Param) :=
  match Entries.get? "$geometry" es with
  | some (.obj geometry) =>
    match Entries.get? "type" geometry, Entries.get? "coordinates" geometry with
    | some (.str shape), some (.arr [.str lon, .str lat]) =>
      if shape = "Point" then do
        let lon ← Param.ofPlaceholder? lon
        let lat ← Param.ofPlaceholder? lat
        pure (lon, lat)
      else none
    | _, _ => none
  | _ => none

/-- The test of location that an operator with an object as operand makes. -/
def place? (path operator : String) (es : Entries) : Option Atom := do
  let op ← FilterOperator.ofToken? operator
  let (lon, lat) ← point? es
  pure (.place path op lon lat (paramAt? "$maxDistance" es) (paramAt? "$minDistance" es))

/-- Keys that stand beside an operator, each with its operator. -/
def companions : List (String × String) :=
  [("$options", "$regex"), ("$language", "$search"), ("$caseSensitive", "$search"),
    ("$diacriticSensitive", "$search")]

/-- The search words of an operand, with the companions among the entries of the whole object. -/
def searchWords (search : Param) (whole : Entries) : TextSearch :=
  { search, language := paramAt? "$language" whole,
    caseSensitive := flagAt "$caseSensitive" whole,
    diacriticSensitive := flagAt "$diacriticSensitive" whole }

/-- The test that an operator makes of the value at a path, with the companions among the entries
of the whole object; a companion itself makes none. -/
def operatorAtom? (path : String) (whole : Entries) (operator : String) : Json → Option Atom
  | .str s => do
    let p ← Param.ofPlaceholder? s
    if operator = "$search" then pure (.words (searchWords p whole))
    else do
      let op ← FilterOperator.ofToken? operator
      pure (.test path op p (if op = .regex then paramAt? "$options" whole else none))
  | .bool b => if operator = "$exists" then some (.presence path b) else none
  | .obj es => place? path operator es
  | _ => none

/-! ## Objects -/

/-- The connective with a key; there are three. -/
def connective (key : String) (φs : List Formula) : Formula :=
  if key = "$and" then .all φs
  else if key = "$or" then .any φs
  else if key = "$nor" then .not (.any φs)
  else .any []

mutual

/-- What an object says of a document. -/
def meaning : Json → Formula
  | .obj es => .all (entryMeanings es)
  | _ => .any []

/-- What several objects say. -/
def meanings : List Json → List Formula
  | [] => []
  | v :: vs => meaning v :: meanings vs

/-- What the entries of an object say. -/
def entryMeanings : List (String × Json) → List Formula
  | [] => []
  | (key, v) :: es => entryMeaning key v :: entryMeanings es

/-- What an entry says: a connective, or the operators under a path. -/
def entryMeaning (key : String) : Json → Formula
  | .arr items => connective key (meanings items)
  | .obj ops => .all (operatorMeanings key ops ops)
  | _ => .any []

/-- What the operators under a path say. -/
def operatorMeanings (path : String) (whole : Entries) : List (String × Json) → List Formula
  | [] => []
  | (op, v) :: ops => operatorMeaning path whole op v ++ operatorMeanings path whole ops

/-- What an operator says: a test, or that some element of the array at the path has what the
operand says. -/
def operatorMeaning (path : String) (whole : Entries) (op : String) : Json → List Formula
  | .obj es =>
    match operatorAtom? path whole op (.obj es) with
    | some a => [.atom a]
    | none => if op = "$elemMatch" then [.element path (.all (entryMeanings es))] else []
  | v => ((operatorAtom? path whole op v).map Formula.atom).toList

end

/-! ## Proper objects -/

/-- Every companion stands beside its operator. -/
def Attached (ops : Entries) : Prop :=
  ∀ c ∈ companions, c.1 ∈ Entries.keys ops → c.2 ∈ Entries.keys ops

instance (ops : Entries) : Decidable (Attached ops) :=
  inferInstanceAs (Decidable (∀ c ∈ companions, c.1 ∈ Entries.keys ops → c.2 ∈ Entries.keys ops))

/-- Whether no key occurs twice. -/
def distinctKeys (es : Entries) : Bool := decide (Entries.keys es).Nodup

/-- Whether the connective is one of the three. -/
def isConnective (key : String) : Bool := key == "$and" || key == "$or" || key == "$nor"

/-- Whether the operator is a test of location. -/
def isLocationOperator : FilterOperator → Bool
  | .near | .nearSphere | .geoWithin | .geoIntersects => true
  | _ => false

/-- Whether the value is the placeholder of a parameter. -/
def isPlaceholder : Json → Bool
  | .str s => (Param.ofPlaceholder? s).isSome
  | _ => false

/-- Whether the value is a truth value. -/
def isFlag : Json → Bool
  | .bool _ => true
  | _ => false

/-- Whether the object is that of a search in the text index. -/
def properSearch (ops : Entries) : Bool :=
  (paramAt? "$search" ops).isSome && distinctKeys ops && ops.all fun e =>
    if e.1 = "$search" ∨ e.1 = "$language" then isPlaceholder e.2
    else (e.1 == "$caseSensitive" || e.1 == "$diacriticSensitive") && isFlag e.2

/-- Whether the object is the operand of a test of location. -/
def properLocation (es : Entries) : Bool :=
  (point? es).isSome && distinctKeys es && es.all fun e =>
    e.1 == "$geometry" || (e.1 == "$maxDistance" || e.1 == "$minDistance") && isPlaceholder e.2

mutual

/-- Whether all parts of an object are those of filters. -/
def proper : Json → Bool
  | .obj es => distinctKeys es && properEntries es
  | _ => false

/-- Whether several objects are proper. -/
def properAll : List Json → Bool
  | [] => true
  | v :: vs => proper v && properAll vs

/-- Whether the entries of an object are proper. -/
def properEntries : List (String × Json) → Bool
  | [] => true
  | (key, v) :: es => properEntry key v && properEntries es

/-- Whether an entry is a connective, a search in the text index, or a path with at least one
operator. Only the first two have keys that start with `$`. -/
def properEntry (key : String) : Json → Bool
  | .arr items => isConnective key && properAll items
  | .obj ops =>
    if key = "$text" then properSearch ops
    else !isOperatorKey key && !ops.isEmpty && distinctKeys ops && decide (Attached ops) &&
      properOperators ops
  | _ => false

/-- Whether the operators under a path are proper. -/
def properOperators : List (String × Json) → Bool
  | [] => true
  | (op, v) :: ops => properOperator op v && properOperators ops

/-- Whether an operator fits its operand: an element match and a test of location have an object,
and every other one a placeholder or a truth value. -/
def properOperator (op : String) : Json → Bool
  | .obj es =>
    if op = "$elemMatch" then distinctKeys es && properEntries es
    else (FilterOperator.ofToken? op).any isLocationOperator && properLocation es
  | .str s =>
    isPlaceholder (.str s) && (op == "$options" || (FilterOperator.ofToken? op).isSome)
  | .bool _ => op == "$exists"
  | _ => false

end

end Mongo

end DocumentQuery

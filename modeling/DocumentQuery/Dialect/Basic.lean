/-!
# Dialects

The document databases a query can be rendered for, their names, and the
names by which a dialect may be asked for.
-/
namespace DocumentQuery

/-- A target of rendering. -/
inductive Dialect where
  | mongo
  | dynamo
  | firestore
  | couch
deriving DecidableEq, Repr

namespace Dialect

/-- The dialects, in their listed order. -/
def all : List Dialect := [.mongo, .dynamo, .firestore, .couch]

/-- The name of a dialect. -/
def name : Dialect → String
  | .mongo => "mongo"
  | .dynamo => "dynamo"
  | .firestore => "firestore"
  | .couch => "couch"

/-- The names by which a dialect may be asked for, in lower case. -/
def aliases : Dialect → List String
  | .mongo => ["mongo", "mongodb"]
  | .dynamo => ["dynamo", "dynamodb"]
  | .firestore => ["firestore"]
  | .couch => ["couch", "couchdb"]

/-- The dialect that goes by the name `s`, in any case of ASCII letters. -/
def ofName? (s : String) : Option Dialect :=
  all.find? fun d => d.aliases.any fun a => a.toList == s.toList.map Char.toLower

/-- Queries are rendered for `mongo` unless told otherwise. -/
instance : Inhabited Dialect := ⟨.mongo⟩

end Dialect

end DocumentQuery

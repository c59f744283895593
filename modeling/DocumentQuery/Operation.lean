import DocumentQuery.Vocabulary
/-!
# Operations

The eleven kinds of operation on a collection, their tokens, and the families
that say which parts of a query apply to them.
-/
namespace DocumentQuery

/-- What a query does to its collection. -/
inductive Operation where
  | find
  | findOne
  | insert
  | insertMany
  | update
  | updateMany
  | delete
  | deleteMany
  | aggregate
  | count
  | distinct
deriving DecidableEq, Repr

namespace Operation

/-- The token of an operation. -/
def token : Operation → String
  | .find => "FIND"
  | .findOne => "FIND_ONE"
  | .insert => "INSERT"
  | .insertMany => "INSERT_MANY"
  | .update => "UPDATE"
  | .updateMany => "UPDATE_MANY"
  | .delete => "DELETE"
  | .deleteMany => "DELETE_MANY"
  | .aggregate => "AGGREGATE"
  | .count => "COUNT"
  | .distinct => "DISTINCT"

instance : Vocabulary Operation where
  all := [.find, .findOne, .insert, .insertMany, .update, .updateMany, .delete, .deleteMany,
    .aggregate, .count, .distinct]
  token := token
  mem_all a := by cases a <;> decide
  distinct := by decide +kernel

/-- Whether the operation reads documents and takes projection, sort and pagination. -/
def isRead : Operation → Bool
  | .find | .findOne | .aggregate | .count | .distinct => true
  | _ => false

/-- Whether the operation changes documents that are there. -/
def isUpdate : Operation → Bool
  | .update | .updateMany => true
  | _ => false

/-- Whether the operation adds documents. -/
def isInsert : Operation → Bool
  | .insert | .insertMany => true
  | _ => false

end Operation

/-- A family of operations that a part of a query applies to. -/
inductive OperationFamily where
  | read
  | update
  | insert
  | insertMany
  | aggregate
deriving DecidableEq, Repr

namespace OperationFamily

/-- Whether the operation belongs to the family. -/
def allows : OperationFamily → Operation → Bool
  | .read, op => op.isRead
  | .update, op => op.isUpdate
  | .insert, op => op.isInsert
  | .insertMany, op => op == .insertMany
  | .aggregate, op => op == .aggregate

/-- The family in messages. -/
def label : OperationFamily → String
  | .read => "read"
  | .update => "UPDATE"
  | .insert => "INSERT"
  | .insertMany => "INSERT_MANY"
  | .aggregate => "AGGREGATE"

end OperationFamily

end DocumentQuery

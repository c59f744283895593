import DocumentQuery.Dialect.Basic
import DocumentQuery.Operation
import DocumentQuery.Operator
/-!
# What a dialect can express

For each dialect, the operations, tests, combinations, changes and stages that
it knows. Where a dialect writes a test by a sign of its own, the signs are
listed here too, and having a sign is what it means to be supported.

Results:
* `Firestore.whereSign?_isSome_iff`, `Dynamo.sign?_isSome_iff`: which tests
  have a sign.
-/
namespace DocumentQuery

namespace Firestore

/-- The sign of a test in a `where` clause. -/
def whereSign? : FilterOperator → Option String
  | .eq => some "=="
  | .ne => some "!="
  | .gt => some ">"
  | .gte => some ">="
  | .lt => some "<"
  | .lte => some "<="
  | .isIn => some "in"
  | .notIn => some "not-in"
  | .all => some "array-contains"
  | _ => none

theorem whereSign?_isSome_iff (op : FilterOperator) :
    (whereSign? op).isSome = true ↔
      op.isComparison = true ∨ op = .isIn ∨ op = .notIn ∨ op = .all := by
  cases op <;> decide

end Firestore

namespace Dynamo

/-- The sign of a comparison in an expression. -/
def sign? : FilterOperator → Option String
  | .eq => some "="
  | .ne => some "<>"
  | .gt => some ">"
  | .gte => some ">="
  | .lt => some "<"
  | .lte => some "<="
  | _ => none

theorem sign?_isSome_iff (op : FilterOperator) :
    (sign? op).isSome = true ↔ op.isComparison = true := by
  cases op <;> decide

end Dynamo

namespace Dialect

/-- The operations that every dialect knows: those on single documents and finds. -/
def isCommonOperation : Operation → Bool
  | .find | .findOne | .insert | .update | .delete => true
  | _ => false

/-- Whether the dialect knows the operation. -/
def supportsOperation : Dialect → Operation → Bool
  | .mongo, _ => true
  | _, op => isCommonOperation op

/-- Whether the dialect knows the test. -/
def supportsFilter : Dialect → FilterOperator → Bool
  | .mongo, _ => true
  | .dynamo, op => op.isComparison || op == .present
  | .firestore, op => (Firestore.whereSign? op).isSome
  | .couch, op =>
    op.isComparison || op == .isIn || op == .notIn || op == .regex || op == .present

/-- Whether the dialect knows the combination. -/
def supportsLogic : Dialect → LogicOperator → Bool
  | .mongo, logic => logic != .not
  | .dynamo, logic => logic == .and || logic == .or
  | .firestore, logic => logic == .and
  | .couch, logic => logic != .not

/-- Whether the dialect knows the change. -/
def supportsUpdate : Dialect → UpdateOperator → Bool
  | .mongo, _ => true
  | .dynamo, op => op == .set || op == .unset || op == .inc
  | .firestore, op => op == .set || op == .unset
  | .couch, op => op == .set

/-- Whether the dialect knows the kind of stage. -/
def supportsStage : Dialect → StageKind → Bool
  | .mongo, _ => true
  | _, _ => false

/-- The words of a vocabulary that pass a test, by their tokens. -/
def tokensWhere {α : Type} [Vocabulary α] (supported : α → Bool) : List String :=
  (Vocabulary.all.filter supported).map Vocabulary.token

end Dialect

end DocumentQuery

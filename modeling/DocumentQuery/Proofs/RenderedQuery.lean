import DocumentQuery.Dialect.Render
import DocumentQuery.Proofs.FilterFormula
import DocumentQuery.Proofs.Steps
/-!
# Rendered queries, taken apart

A query renders exactly if it is well formed, its dialect knows the operation
and its entries can be made. The first entries are the same for every operation
(`Dialect.header`); the others are its parts.

Results:
* `Query.render_eq_ok_iff`: when a query renders, and to what.
* `Dialect.renderEntries_gives`: the entries are the header and the parts.
* `Query.nonempty_groups`: a query that renders has no empty groups.
-/
namespace DocumentQuery

open Render (gives_map)

/-! ## Entries of a query -/

namespace Dialect

/-- The entries that say what the query is about. -/
def header : Dialect → Query → Entries
  | .mongo, q | .firestore, q =>
    [("collection", .str q.target.name), ("operation", .str q.operation.token)]
  | .dynamo, q => [("TableName", .str q.target.name)]
  | .couch, q => [("database", .str q.target.name)]

/-- The parts of a query below its header. -/
def renderParts : Dialect → Query → Render Entries
  | .mongo => Mongo.renderParts
  | .dynamo => Dynamo.renderParts
  | .firestore => Firestore.renderParts
  | .couch => Couch.renderParts

theorem renderEntries_eq_map (dialect : Dialect) (q : Query) :
    dialect.renderEntries q =
      (fun parts => dialect.header q ++ parts) <$> dialect.renderParts q := by
  cases dialect <;> exact bind_pure_comp ..

theorem renderEntries_gives {dialect : Dialect} {q : Query} {es : Entries} {ps : List Param} :
    (dialect.renderEntries q).Gives es ps ↔
      ∃ parts, (dialect.renderParts q).Gives parts ps ∧ es = dialect.header q ++ parts := by
  rw [renderEntries_eq_map, gives_map]

/-- The parts of a find. -/
def renderFind : Dialect → Query → Render Entries
  | .mongo => Mongo.renderFind
  | .dynamo => Dynamo.renderFind
  | .firestore => Firestore.renderFind
  | .couch => Couch.renderFind

theorem renderParts_of_find (dialect : Dialect) {q : Query}
    (hop : q.operation = .find ∨ q.operation = .findOne) :
    dialect.renderParts q = dialect.renderFind q := by
  rcases hop with hop | hop <;> cases dialect <;>
    simp only [renderParts, renderFind, Mongo.renderParts, Dynamo.renderParts,
      Firestore.renderParts, Couch.renderParts, hop]

end Dialect

/-! ## Rendering -/

/-- The entries of a rendered query. -/
def Rendered.entries (r : Rendered) : Entries :=
  match r.body with
  | .obj es => es
  | _ => []

theorem Rendered.ofEntries_eq_ok_iff {x : Render Entries} {r : Rendered} :
    Rendered.ofEntries x = .ok r ↔ ∃ es, x.Gives es r.params ∧ r.body = .obj es := by
  obtain ⟨body, params⟩ := r
  cases x with
  | error e =>
    constructor
    · intro h
      cases h
    · intro h'
      obtain ⟨es, h, -⟩ := h'
      cases h
  | ok p =>
    obtain ⟨es, ps⟩ := p
    constructor
    · intro h
      cases h
      exact ⟨es, rfl, rfl⟩
    · intro h'
      obtain ⟨es', h, hbody⟩ := h'
      cases h
      cases hbody
      rfl

theorem Collection.isEmpty_name (c : Collection) : c.name.isEmpty = false := by
  obtain ⟨hblank, -⟩ := Identifier.valid_iff.mp c.valid
  obtain ⟨hne, -⟩ := blankFault?_eq_none_iff.mp hblank
  simpa using hne

namespace Query

variable {q : Query}

theorem render_eq_ok_iff {dialect : Dialect} {r : Rendered} :
    q.render dialect = .ok r ↔ q.validate = .ok () ∧
      dialect.supportsOperation q.operation = true ∧
      ∃ es, (dialect.renderEntries q).Gives es r.params ∧ r.body = .obj es := by
  rw [← Rendered.ofEntries_eq_ok_iff]
  unfold Query.render
  cases q.validate with
  | error fault => simp
  | ok u =>
    by_cases hop : dialect.supportsOperation q.operation = true
    · simp [hop]
    · simp [hop]

/-- Only validation, the operation and the parts can make a query fail to render. -/
theorem render_isOk_iff {dialect : Dialect} : (∃ r, q.render dialect = .ok r) ↔
    q.validate = .ok () ∧ dialect.supportsOperation q.operation = true ∧
      (dialect.renderParts q).Succeeds := by
  simp only [render_eq_ok_iff, Dialect.renderEntries_gives]
  constructor
  · intro h
    obtain ⟨r, hvalid, hsupports, es, ⟨parts, hparts, -⟩, -⟩ := h
    exact ⟨hvalid, hsupports, parts, r.params, hparts⟩
  · intro h
    obtain ⟨hvalid, hsupports, parts, ps, hparts⟩ := h
    exact ⟨⟨.obj (dialect.header q ++ parts), ps⟩, hvalid, hsupports, _, ⟨parts, hparts, rfl⟩, rfl⟩

/-- A rendered query is its header and its parts. -/
theorem parts_of_render {dialect : Dialect} {r : Rendered} (h : q.render dialect = .ok r) :
    ∃ parts, (dialect.renderParts q).Gives parts r.params ∧
      r.entries = dialect.header q ++ parts := by
  obtain ⟨-, -, es, hes, hbody⟩ := render_eq_ok_iff.mp h
  obtain ⟨parts, hparts, rfl⟩ := Dialect.renderEntries_gives.mp hes
  exact ⟨parts, hparts, by rw [Rendered.entries, hbody]⟩

/-! ## Validation -/

theorem require_eq_ok_iff {cond : Bool} {fault : QueryFault} :
    Query.require cond fault = .ok () ↔ cond = true := by
  cases cond <;> simp [Query.require]

theorem exists_require_iff {cond : Bool} {fault : QueryFault} :
    (∃ u, Query.require cond fault = .ok u) ↔ cond = true := by
  cases cond <;> simp [Query.require]

theorem require_eq_error_iff {cond : Bool} {fault fault' : QueryFault} :
    Query.require cond fault = .error fault' ↔ cond = false ∧ fault' = fault := by
  cases cond <;> simp [Query.require, eq_comm]

theorem emptyGroup?_eq_none : q.emptyGroup? = none ↔
    q.filter.bind Filter.emptyGroup? = none ∧ Stage.emptyGroupIn? q.pipeline = none := by
  rw [Query.emptyGroup?]
  cases q.filter.bind Filter.emptyGroup? <;> simp

/-- What validation asks for. -/
theorem validate_eq_ok_iff : q.validate = .ok () ↔
    q.target.name.isEmpty = false ∧ q.emptyGroup? = none ∧ q.validateOperation = .ok () := by
  have htarget := @exists_require_iff (!q.target.name.isEmpty) .missingTarget
  rw [Query.validate, bind_eq_ok_iff, ← Bool.not_eq_true', ← htarget, ← exists_and_right]
  cases q.emptyGroup? <;> simp

/-- The target is looked at first, then the groups, and then what the operation asks for. -/
theorem validate_eq_error_iff {fault : QueryFault} : q.validate = .error fault ↔
    (q.target.name.isEmpty = true ∧ fault = .missingTarget) ∨
    q.target.name.isEmpty = false ∧
      ((∃ logic, q.emptyGroup? = some logic ∧ fault = .emptyGroup logic) ∨
        q.emptyGroup? = none ∧ q.validateOperation = .error fault) := by
  have htarget := @exists_require_iff (!q.target.name.isEmpty) .missingTarget
  rw [Query.validate, bind_eq_error_iff, exists_and_right, htarget, require_eq_error_iff]
  simp only [Bool.not_eq_eq_eq_not, Bool.not_true, Bool.not_false]
  cases q.emptyGroup? <;> simp [@eq_comm _ fault]

/-- What a find is asked for. -/
theorem validateFind_eq_ok_iff : q.validateFind = .ok () ↔
    (∀ n, q.limit = some (.fixed n) → n ≤ maxLimit) ∧
    (∀ p, q.projection = some p → p.fields.length ≤ maxProjectionFields) ∧
    q.sort.length ≤ maxSortFields ∧ ∀ f, q.filter = some f → f.nesting ≤ maxFilterDepth := by
  unfold validateFind
  rcases q.limit with _ | n | p <;> cases q.projection <;> cases q.filter <;>
    simp [bind_eq_ok_iff, exists_require_iff, require_eq_ok_iff]

theorem validateOperation_of_find (hop : q.operation = .find ∨ q.operation = .findOne) :
    q.validateOperation = q.validateFind := by
  rcases hop with hop | hop <;> rw [validateOperation, hop]

theorem emptyGroup?_of_validate (h : q.validate = .ok ()) : q.emptyGroup? = none :=
  (validate_eq_ok_iff.mp h).2.1

/-- A query that passed validation meets the demands of its operation. -/
theorem validateOperation_of_validate (h : q.validate = .ok ()) : q.validateOperation = .ok () :=
  (validate_eq_ok_iff.mp h).2.2

/-- The filter of a query that passed validation has no empty groups. -/
theorem nonempty_groups {f : Filter} (hf : q.filter = some f) (h : q.validate = .ok ()) :
    ∀ g ∈ f.nodes, ¬ g.IsEmptyGroup := by
  have hgroup := emptyGroup?_of_validate h
  rw [Query.emptyGroup?, hf] at hgroup
  rw [← Filter.emptyGroup?_eq_none_iff]
  cases hempty : f.emptyGroup? with
  | none => rfl
  | some logic => simp [hempty] at hgroup

end Query

end DocumentQuery

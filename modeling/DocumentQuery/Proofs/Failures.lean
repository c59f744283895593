import DocumentQuery.Proofs.RenderedQuery
/-!
# Steps of rendering that fail

A step fails with at most one error, and steps in sequence fail with the first one.
So the error of a renderer is read off its steps in order, wherever the result of a
step makes no difference to whether the next one fails.

Main definitions:
* `Render.error?`: the error of a step that fails.

Results:
* `error?_bind`: the error of two steps in sequence.
* `error?_each`, `error?_entriesBy`: of a step for each element.
* `Query.render_eq_error_iff`: a well-formed query that its dialect takes fails to
  render with the error of its parts.
-/
namespace DocumentQuery.Render

variable {α β γ : Type}

/-- The error, if the step fails. -/
def error? : Render α → Option Error
  | .error e => some e
  | .ok _ => none

theorem error?_eq_none_iff {x : Render α} : x.error? = none ↔ x.Succeeds := by
  rcases x with e | ⟨a, ps⟩
  · simp [error?, Succeeds, Gives]
  · exact iff_of_true rfl ⟨a, ps, rfl⟩

/-- A step that succeeds fails with nothing. -/
theorem Succeeds.error? {x : Render α} (h : x.Succeeds) : x.error? = none :=
  error?_eq_none_iff.mpr h

@[simp] theorem error?_pure (a : α) : (pure a : Render α).error? = none := rfl

@[simp] theorem error?_fail (e : Error) : (fail e : Render α).error? = some e := rfl

@[simp] theorem error?_unsupported (dialect : Dialect) (feature : Feature) :
    (unsupported dialect feature : Render α).error? = some (.unsupported dialect feature) := rfl

@[simp] theorem error?_placeholder (p : Param) : (placeholder p).error? = none := rfl

/-- In sequence the first error counts. -/
theorem error?_bind {x : Render α} {k : α → Render β} {o : Option Error}
    (hk : ∀ a, (k a).error? = o) : (x >>= k).error? = x.error?.or o := by
  rcases x with e | ⟨a, ps⟩
  · rfl
  · rw [← hk a]
    show (Render.bind (.ok (a, ps)) k).error? = (none : Option Error).or (k a).error?
    rw [Option.none_or, Render.bind]
    rcases k a with e | ⟨b, qs⟩ <;> rfl

@[simp] theorem error?_map {x : Render α} {f : α → β} : (f <$> x).error? = x.error? := by
  rw [map_eq_pure_bind, error?_bind fun a => error?_pure (f a), Option.or_none]

section Sequence

variable {δ ε : Type} {x : Render α} {y : Render β} {z : Render γ} {w : Render δ}

theorem error?_two {f : α → β → γ} :
    (do let a ← x; let b ← y; pure (f a b) : Render γ).error? = x.error?.or y.error? := by
  refine error?_bind fun a => ?_
  rw [error?_bind fun b => error?_pure (f a b), Option.or_none]

theorem error?_three {f : α → β → γ → δ} :
    (do let a ← x; let b ← y; let c ← z; pure (f a b c) : Render δ).error? =
      x.error?.or (y.error?.or z.error?) := error?_bind fun _ => error?_two

theorem error?_four {f : α → β → γ → δ → ε} :
    (do let a ← x; let b ← y; let c ← z; let d ← w; pure (f a b c d) : Render ε).error? =
      x.error?.or (y.error?.or (z.error?.or w.error?)) := error?_bind fun _ => error?_three

end Sequence

@[simp] theorem error?_optional {f : α → Render β} {o : Option α} :
    (optional f o).error? = o.bind fun a => (f a).error? := by
  cases o with
  | none => rfl
  | some a => rw [optional, error?_bind fun b => error?_pure (some b), Option.or_none]; rfl

/-- The first element whose step fails. -/
theorem error?_each {f : α → Render β} {as : List α} :
    (each f as).error? = as.findSome? fun a => (f a).error? := by
  induction as with
  | nil => rfl
  | cons a as ih =>
    rw [each, error?_two, ih, List.findSome?_cons]
    cases (f a).error? <;> rfl

theorem error?_entriesBy {κ : Type} [LT κ] {key : κ → String} {f : α → Render Json}
    {m : OrderedMap κ α} : (entriesBy key f m).error? = m.values.findSome? fun a => (f a).error? := by
  rw [entriesBy, error?_each, OrderedMap.values, List.findSome?_map]
  congr 1
  funext e
  rw [bind_pure_comp, error?_map]
  rfl

end DocumentQuery.Render

namespace DocumentQuery

/-! ## Queries -/

theorem Dialect.error?_renderEntries (dialect : Dialect) (q : Query) :
    (dialect.renderEntries q).error? = (dialect.renderParts q).error? := by
  rw [dialect.renderEntries_eq_map, Render.error?_map]

theorem Rendered.ofEntries_eq_error_iff {x : Render Entries} {e : Error} :
    Rendered.ofEntries x = .error e ↔ x.error? = some e := by
  rcases x with e' | r
  · show Except.error e' = Except.error e ↔ some e' = some e
    simp
  · refine iff_of_false (fun h => ?_) (fun h => ?_) <;> cases h

/-- Once a query has passed validation and its dialect takes the operation, only its parts can
fail. -/
theorem Query.render_eq_error_iff {dialect : Dialect} {q : Query} {e : Error}
    (hvalid : q.validate = .ok ()) (hsupports : dialect.supportsOperation q.operation = true) :
    q.render dialect = .error e ↔ (dialect.renderParts q).error? = some e := by
  rw [← dialect.error?_renderEntries, ← Rendered.ofEntries_eq_error_iff, Query.render, hvalid]
  simp only [hsupports, if_true]

end DocumentQuery

import DocumentQuery.Json.Printer
import DocumentQuery.Query.Validation
import DocumentQuery.Dialect.Capability
/-!
# Rendering

Rendering lowers a query into an object for one dialect. No value is ever
written: each stands in the object as the placeholder of a parameter, and the
parameters are listed in the order in which they are bound.

Main definitions:
* `Render α`: a step of rendering fails, or gives a result together with the
  parameters it binds. Steps in sequence bind in sequence.
* `Rendered`: the object and its parameters.

Results:
* `Render` is a lawful monad, so the parameters of a sequence of steps do not
  depend on how the steps are grouped.
* `each_append`: the steps for a joined list are those for its parts in turn.
-/
namespace DocumentQuery

/-- A step of rendering: an error, or a result and the parameters bound, in order. -/
def Render (α : Type) : Type := Except Error (α × List Param)

namespace Render

variable {α β : Type}

/-- The step that gives `a` and binds nothing. -/
protected def pure (a : α) : Render α := .ok (a, [])

/-- One step after the other: the parameters of the first come first. -/
protected def bind (x : Render α) (f : α → Render β) : Render β :=
  match x with
  | .error e => .error e
  | .ok (a, ps) =>
    match f a with
    | .error e => .error e
    | .ok (b, qs) => .ok (b, ps ++ qs)

instance : Monad Render where
  pure := Render.pure
  bind := Render.bind

/-! ## Laws of steps in sequence -/

theorem pure_bind_eq (a : α) (f : α → Render β) : (Render.pure a).bind f = f a := by
  unfold Render.bind Render.pure
  rcases h : f a with _ | ⟨b, qs⟩ <;> simp only [h, List.nil_append] <;> rfl

theorem bind_pure_eq (x : Render α) : x.bind Render.pure = x := by
  rcases x with _ | ⟨a, ps⟩
  · rfl
  · simp only [Render.bind, Render.pure, List.append_nil]; rfl

theorem bind_bind {γ : Type} (x : Render α) (f : α → Render β) (g : β → Render γ) :
    (x.bind f).bind g = x.bind fun a => (f a).bind g := by
  rcases x with _ | ⟨a, ps⟩
  · rfl
  · rcases hf : f a with _ | ⟨b, qs⟩
    · simp only [Render.bind, hf]; rfl
    · rcases hg : g b with _ | ⟨c, rs⟩ <;> simp only [Render.bind, hf, hg, List.append_assoc] <;> rfl

instance : LawfulMonad Render :=
  LawfulMonad.mk' Render bind_pure_eq pure_bind_eq bind_bind

/-! ## Steps -/

/-- The step that fails. -/
def fail (e : Error) : Render α := .error e

/-- The step that fails because the dialect lacks a feature. -/
def unsupported (dialect : Dialect) (feature : Feature) : Render α :=
  fail (.unsupported dialect feature)

/-- A check that binds nothing. -/
def ofExcept (x : Except Error α) : Render α := x.map fun a => (a, [])

/-- Binds a parameter and gives its placeholder. -/
def placeholder (p : Param) : Render Json := .ok (.str p.placeholder, [p])

/-- A step for each element, from left to right. -/
def each (f : α → Render β) : List α → Render (List β)
  | [] => pure []
  | a :: as => do
    let b ← f a
    let bs ← each f as
    pure (b :: bs)

theorem each_append (f : α → Render β) (as bs : List α) :
    each f (as ++ bs) =
      (do let xs ← each f as; let ys ← each f bs; pure (xs ++ ys)) := by
  induction as with
  | nil => simp [each]
  | cons a as ih => simp [each, ih]

/-- A step for the value, if there is one. -/
def optional (f : α → Render β) : Option α → Render (Option β)
  | none => pure none
  | some a => do
    let b ← f a
    pure (some b)

/-- A number, or the placeholder of a parameter. -/
def pagination : Pagination → Render Json
  | .fixed n => pure (.nat n)
  | .bound p => placeholder p

/-- The entries of a map whose values are rendered in key order. -/
def entriesBy {κ : Type} [LT κ] (key : κ → String) (f : α → Render Json) (m : OrderedMap κ α) :
    Render Entries :=
  each (fun e => do
    let v ← f e.2
    pure (key e.1, v)) m.entries

/-- The fields of a document with their placeholders, by path. -/
def document (d : Document) : Render Json := do
  let entries ← entriesBy Field.path placeholder d.fields
  pure (.ofEntries entries)

end Render

/-- A rendered query: the object, and the parameters to bind when it is run. -/
structure Rendered where
  body : Json
  params : List Param

namespace Rendered

/-- The object as text. -/
def text (r : Rendered) : String := r.body.compact

/-- The names of the parameters, in the order of their binding. -/
def paramNames (r : Rendered) : List String := r.params.map Param.name

/-- The result of rendering all entries of the object. -/
def ofEntries (x : Render Entries) : Except Error Rendered :=
  x.map fun r => ⟨.obj r.1, r.2⟩

end Rendered

/-- The paths of a projection that only selects fields; a dialect that cannot leave fields out or
cut them down fails instead of returning more. -/
def selectedPaths (dialect : Dialect) (p : Projection) : Except Error (List String) :=
  p.fields.mapM fun f =>
    if p.exclude || !f.included then .error (.unsupported dialect .excludeProjection)
    else if f.slice.isSome then .error (.unsupported dialect .projectionSlice)
    else if f.elemMatch.isSome then .error (.unsupported dialect .projectionElemMatch)
    else .ok f.field.path

end DocumentQuery

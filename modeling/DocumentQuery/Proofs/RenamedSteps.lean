import DocumentQuery.Proofs.Renaming
import DocumentQuery.Proofs.Steps
/-!
# Renamed steps

Two steps of rendering, one for a part of a query and one for the renamed part:
they bind the same parameters up to the renaming, give the same result up to the
renaming, and fail alike. The relation is kept by every way to make a step, so a
rendered query is renamed as soon as its parts are.

Main definitions:
* `Render.Renames`: a step gives what another one gives, renamed, and fails
  where the other one fails, with the same error.

Results:
* `Renames.bind`, `Renames.each`, `Renames.optional`, …: one rule for each way
  to make a step.
* `selection_rename`: what a projection selects does not depend on parameters.
-/
namespace DocumentQuery

variable (ρ : Param → Param)

theorem RangeFilter.bounds_rename (r : RangeFilter) :
    (r.rename ρ).bounds = r.bounds.map fun b => (b.1, ρ b.2) := by
  obtain ⟨field, min, max, minExclusive, maxExclusive⟩ := r
  cases min <;> cases max <;> rfl

/-! ## Steps -/

namespace Render

variable {α β γ δ : Type}

/-- The second step gives what the first one gives, changed by `g` and with renamed parameters. It
fails where the first one fails, with the same error. -/
def Renames (g : α → β) (x : Render α) (y : Render β) : Prop :=
  y = Except.map (fun r => (g r.1, r.2.map ρ)) x

namespace Renames

variable {ρ} {g : α → β} {h : γ → δ} {x : Render α} {y : Render β}

theorem pure {a : α} {b : β} (hb : b = g a) :
    Renames ρ g (Pure.pure a : Render α) (Pure.pure b : Render β) := by
  subst hb
  rfl

/-- In sequence, the second step is renamed whatever the first one gives. -/
theorem bind {f : α → Render γ} {f' : β → Render δ} (hx : Renames ρ g x y)
    (hf : ∀ a, Renames ρ h (f a) (f' (g a))) : Renames ρ h (x >>= f) (y >>= f') := by
  unfold Renames at hx
  subst hx
  show Render.bind _ f' = Except.map _ (Render.bind x f)
  cases x with
  | error e => rfl
  | ok r =>
    obtain ⟨a, ps⟩ := r
    have hfa := hf a
    unfold Renames at hfa
    cases hr : f a with
    | error e =>
      rw [hr] at hfa
      simp only [Render.bind, Except.map, hr, hfa]
      rfl
    | ok r' =>
      rw [hr] at hfa
      simp only [Render.bind, Except.map, hr, hfa, List.map_append]
      rfl

theorem unsupported {dialect : Dialect} {feature : Feature} :
    Renames ρ g (Render.unsupported dialect feature) (Render.unsupported dialect feature) := rfl

theorem placeholder (p : Param) :
    Renames ρ (Json.rename ρ) (Render.placeholder p) (Render.placeholder (ρ p)) := by
  show _ = Except.ok ((Json.str p.placeholder).rename ρ, [ρ p])
  rw [Json.rename_placeholder]
  rfl

/-- A check does not bind parameters. -/
theorem ofExcept {e : Except Error α} {e' : Except Error β} (he : e' = e.map g) :
    Renames ρ g (Render.ofExcept e) (Render.ofExcept e') := by
  subst he
  cases e <;> rfl

/-- In sequence after a check, the second step matters only for what the check lets pass. -/
theorem ofExcept_bind {e : Except Error α} {e' : Except Error β} {f : α → Render γ}
    {f' : β → Render δ} (he : e' = e.map g) (hf : ∀ a, e = .ok a → Renames ρ h (f a) (f' (g a))) :
    Renames ρ h (Render.ofExcept e >>= f) (Render.ofExcept e' >>= f') := by
  subst he
  cases e with
  | error _ => rfl
  | ok a =>
    show Renames ρ h (Pure.pure a >>= f) (Pure.pure (g a) >>= f')
    rw [pure_bind, pure_bind]
    exact hf a rfl

/-- A check that does not look at parameters. -/
theorem check_bind {e : Except Error α} {f : α → Render γ} {f' : α → Render δ}
    (hf : ∀ a, e = .ok a → Renames ρ h (f a) (f' a)) :
    Renames ρ h (Render.ofExcept e >>= f) (Render.ofExcept e >>= f') :=
  ofExcept_bind (g := id) (by cases e <;> rfl) hf

theorem each {k : α → β} {f : α → Render γ} {f' : β → Render δ} (as : List α)
    (hf : ∀ a ∈ as, Renames ρ h (f a) (f' (k a))) :
    Renames ρ (List.map h) (Render.each f as) (Render.each f' (as.map k)) := by
  induction as with
  | nil => exact pure rfl
  | cons a as ih =>
    obtain ⟨ha, has⟩ := List.forall_mem_cons.mp hf
    rw [List.map_cons, Render.each, Render.each]
    exact ha.bind fun c => (ih has).bind fun cs => pure rfl

/-- A step for each item of an array. -/
theorem items {k : α → β} {f : α → Render Json} {f' : β → Render Json}
    (hf : ∀ a, Renames ρ (Json.rename ρ) (f a) (f' (k a))) (as : List α) :
    Renames ρ (Json.renameItems ρ) (Render.each f as) (Render.each f' (as.map k)) := by
  rw [show Json.renameItems ρ = List.map (Json.rename ρ) from funext (Json.renameItems_eq ρ)]
  exact each as fun a _ => hf a

/-- A step for each entry of an object. -/
theorem entries {k : α → β} {f : α → Render (String × Json)} {f' : β → Render (String × Json)}
    (hf : ∀ a, Renames ρ (fun e => (e.1, e.2.rename ρ)) (f a) (f' (k a))) (as : List α) :
    Renames ρ (Json.renameEntries ρ) (Render.each f as) (Render.each f' (as.map k)) := by
  have hmap : Json.renameEntries ρ = List.map fun e : String × Json => (e.1, e.2.rename ρ) :=
    funext (Json.renameEntries_eq ρ)
  rw [hmap]
  exact each as fun a _ => hf a

theorem entry {v w : Render Json} (key : String) (hv : Renames ρ (Json.rename ρ) v w) :
    Renames ρ (fun e => (e.1, e.2.rename ρ)) (do let x ← v; Pure.pure (key, x))
      (do let x ← w; Pure.pure (key, x)) :=
  hv.bind fun _ => pure rfl

theorem optional {k : α → β} {f : α → Render γ} {f' : β → Render δ}
    (hf : ∀ a, Renames ρ h (f a) (f' (k a))) (o : Option α) :
    Renames ρ (Option.map h) (Render.optional f o) (Render.optional f' (o.map k)) := by
  cases o with
  | none => exact pure rfl
  | some a => exact (hf a).bind fun c => pure rfl

theorem pagination (value : Pagination) :
    Renames ρ (Json.rename ρ) (Render.pagination value) (Render.pagination (value.rename ρ)) := by
  cases value with
  | fixed n => exact pure rfl
  | bound p => exact placeholder p

theorem entriesBy {κ : Type} [LT κ] {k : α → β} {f : α → Render Json} {f' : β → Render Json}
    (key : κ → String) (hf : ∀ a, Renames ρ (Json.rename ρ) (f a) (f' (k a))) (m : OrderedMap κ α) :
    Renames ρ (Json.renameEntries ρ) (Render.entriesBy key f m)
      (Render.entriesBy key f' (m.mapValues k)) :=
  entries (k := fun e : κ × α => (e.1, k e.2)) (fun e => entry (key e.1) (hf e.2)) m.entries

theorem document (d : Document) :
    Renames ρ (Json.rename ρ) (Render.document d) (Render.document (d.rename ρ)) :=
  (entriesBy Field.path placeholder d.fields).bind fun es =>
    pure (Json.rename_ofEntries ρ es).symm

/-- The one document of an insertion, if there is one. -/
theorem firstDocument (documents : List Document) :
    Renames ρ (Option.map (Json.rename ρ)) (Render.optional Render.document documents.head?)
      (Render.optional Render.document (documents.map (Document.rename ρ)).head?) := by
  rw [List.head?_map]
  exact optional document documents.head?

/-- The comparisons of a range, one entry for each. -/
theorem bounds (r : RangeFilter) :
    Renames ρ (Json.renameEntries ρ)
      (Render.each (fun b => do let v ← Render.placeholder b.2; Pure.pure (b.1.token, v)) r.bounds)
      (Render.each (fun b => do let v ← Render.placeholder b.2; Pure.pure (b.1.token, v))
        (r.rename ρ).bounds) := by
  rw [RangeFilter.bounds_rename]
  refine entries (fun b => ?_) r.bounds
  exact entry b.1.token (placeholder b.2)

end Renames

end Render

/-! ## Checks -/

/-- A check of each element. -/
theorem mapM_rename {α β γ δ : Type} {k : α → β} {g : γ → δ} {f : α → Except Error γ}
    {f' : β → Except Error δ} (hf : ∀ a, f' (k a) = (f a).map g) (as : List α) :
    (as.map k).mapM f' = (as.mapM f).map (List.map g) := by
  induction as with
  | nil => rfl
  | cons a as ih =>
    rw [List.map_cons, List.mapM_cons, List.mapM_cons, hf, ih]
    cases f a with
    | error e => rfl
    | ok c => cases as.mapM f <;> rfl

section Selection

variable (dialect : Dialect)

theorem selectedPaths_rename (p : Projection) :
    selectedPaths dialect (p.rename ρ) = selectedPaths dialect p := by
  unfold selectedPaths Projection.rename
  rw [List.mapM_map]
  simp [ProjectionField.rename, Function.comp_def]

theorem selection_rename (o : Option Projection) :
    (o.map (Projection.rename ρ)).mapM (selectedPaths dialect) =
      o.mapM (selectedPaths dialect) := by
  cases o with
  | none => rfl
  | some p => rw [Option.map_some, Option.mapM_some, Option.mapM_some, selectedPaths_rename]

end Selection

end DocumentQuery

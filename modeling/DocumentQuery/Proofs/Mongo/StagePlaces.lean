import DocumentQuery.Proofs.LastWrites
import DocumentQuery.Proofs.Mongo.JoinedPipelines
import DocumentQuery.Proofs.RenderedQuery
/-!
# Where stages stand

A stage lies in the pipeline of its query, or in a pipeline inside another stage: that of a
look-up, or one of its facets. Its object stands at the same place of the rendered query.

Main definitions:
* `Inner`: the ways from a stage to a pipeline inside it, followed in a stage by
  `Stage.inner?` and in its object by `Mongo.innerObjects?`.
* `walk?`: what is reached by going from one list to the next.
* `Query.stageAt?`, `Rendered.objectAt?`: the stage at a place, and the object there.

Results:
* `Query.objectAt?_of_render`: the object at a place is that of the stage there.
-/
namespace DocumentQuery

open Entries (keys get?)

/-! ## Places -/

/-- The ways from a stage to a pipeline inside it. -/
inductive Inner where
  | lookup
  | facet (name : String)

/-- What is reached from a list by its index, and then along further ways, each to an index. -/
def walk? {α : Type} (inner? : α → Inner → Option (List α)) :
    List α → Nat → List (Inner × Nat) → Option α
  | items, i, [] => items[i]?
  | items, i, (way, j) :: place => do
    let a ← items[i]?
    let below ← inner? a way
    walk? inner? below j place

/-- The pipeline inside a stage; of facets with one name the last counts. -/
def Stage.inner? : Stage → Inner → Option (List Stage)
  | .lookup _ _ _ _ pipeline _, .lookup => some pipeline
  | .facet facets, .facet name => facets.reverse.lookup name
  | _, _ => none

/-- The stage of a query at a place. -/
def Query.stageAt? (q : Query) : Nat → List (Inner × Nat) → Option Stage :=
  walk? Stage.inner? q.pipeline

/-- The value that stands below some keys, one inside the other. -/
def Json.below? : List String → Json → Option Json
  | [], v => some v
  | key :: path, .obj es => do
    let v ← get? key es
    below? path v
  | _, _ => none

/-- The elements of an array. -/
def Json.items? : Json → Option (List Json)
  | .arr vs => some vs
  | _ => none

namespace Mongo

/-- The keys below which the objects of an inner pipeline stand. -/
def innerPath : Inner → List String
  | .lookup => [StageKind.lookup.token, "pipeline"]
  | .facet name => [StageKind.facet.token, name]

/-- The objects of the pipeline inside the object of a stage. -/
def innerObjects? (v : Json) (way : Inner) : Option (List Json) :=
  (v.below? (innerPath way)).bind Json.items?

end Mongo

/-- The object of a stage at a place of a rendered query. -/
def Rendered.objectAt? (r : Rendered) (i : Nat) (place : List (Inner × Nat)) : Option Json := do
  let v ← get? "pipeline" r.entries
  let objects ← v.items?
  walk? Mongo.innerObjects? objects i place

/-! ## Lists side by side -/

section Related

variable {α β : Type} {R : α → β → Prop} {as : List α} {bs : List β} {a : α}

theorem exists_getElem?_of_forall₂ (h : List.Forall₂ R as bs) {i : Nat} (ha : as[i]? = some a) :
    ∃ b, bs[i]? = some b ∧ R a b := by
  induction h generalizing i with
  | nil => cases ha
  | cons hab _ ih =>
    cases i with
    | zero =>
      cases ha
      exact ⟨_, rfl, hab⟩
    | succ i => exact ih ha

/-- Values at the same keys are looked up side by side. -/
theorem exists_lookup_of_forall₂ {as : List (String × α)} {bs : List (String × β)}
    (h : List.Forall₂ (fun e f => f.1 = e.1 ∧ R e.2 f.2) as bs) {key : String}
    (ha : as.lookup key = some a) : ∃ b, bs.lookup key = some b ∧ R a b := by
  induction h with
  | nil => cases ha
  | @cons e f _ _ hef _ ih =>
    obtain ⟨hkey, hr⟩ := hef
    rw [List.lookup_cons] at ha ⊢
    rw [hkey]
    cases hbeq : key == e.1 with
    | true =>
      rw [hbeq] at ha
      cases ha
      exact ⟨_, rfl, hr⟩
    | false =>
      rw [hbeq] at ha
      exact ih ha

/-- Walks through two related lists lead to related elements, if the lists inside related
elements are related. -/
theorem exists_walk?_of_forall₂ {inner? : α → Inner → Option (List α)}
    {inner?' : β → Inner → Option (List β)}
    (hinner : ∀ {a b way as}, R a b → inner? a way = some as → as ≠ [] →
      ∃ bs, inner?' b way = some bs ∧ List.Forall₂ R as bs)
    {i : Nat} {place : List (Inner × Nat)} (h : List.Forall₂ R as bs)
    (ha : walk? inner? as i place = some a) : ∃ b, walk? inner?' bs i place = some b ∧ R a b := by
  induction place generalizing as bs i with
  | nil => exact exists_getElem?_of_forall₂ h ha
  | cons step place ih =>
    obtain ⟨way, j⟩ := step
    simp only [walk?, Option.bind_eq_bind, Option.bind_eq_some_iff] at ha ⊢
    obtain ⟨c, hc, below, hbelow, ha⟩ := ha
    obtain ⟨d, hd, hcd⟩ := exists_getElem?_of_forall₂ h hc
    have hne : below ≠ [] := by
      rintro rfl
      cases place <;> simp [walk?] at ha
    obtain ⟨below', hbelow', hrelated⟩ := hinner hcd hbelow hne
    obtain ⟨b, hb, hab⟩ := ih hrelated ha
    exact ⟨b, ⟨d, hd, below', hbelow', hb⟩, hab⟩

end Related

/-! ## Objects at their places -/

namespace Mongo

/-- The value is the object of the stage. -/
def IsObjectOf (s : Stage) (v : Json) : Prop := ∃ ps, (renderStage s).Gives v ps

theorem isObjectOf_of_renderStages {stages : List Stage} {vs : List Json} {ps : List Param}
    (h : (renderStages stages).Gives vs ps) : List.Forall₂ IsObjectOf stages vs := by
  rw [renderStages_eq_each] at h
  exact Render.forall₂_of_each h

/-- The value is the array with the objects of the stages. -/
def IsArrayOf (stages : List Stage) (v : Json) : Prop :=
  ∃ vs, v = .arr vs ∧ List.Forall₂ IsObjectOf stages vs

/-- Each facet becomes an entry with the objects of its stages. -/
theorem entries_of_renderFacets {facets : List (String × List Stage)} {es : Entries}
    {ps : List Param} (h : (renderFacets facets).Gives es ps) :
    List.Forall₂ (fun f e => e.1 = f.1 ∧ IsArrayOf f.2 e.2) facets es := by
  induction facets generalizing es ps with
  | nil =>
    obtain ⟨rfl, -⟩ := Render.gives_pure.mp h
    exact .nil
  | cons f facets ih =>
    obtain ⟨name, stages⟩ := f
    obtain ⟨vs, fs, qs, rs, hvs, hfs, rfl, -⟩ := renderFacets_cons_gives.mp h
    exact .cons ⟨rfl, vs, rfl, isObjectOf_of_renderStages hvs⟩ (ih hfs)

/-- The objects inside the object of a stage are those of the stages inside the stage. -/
theorem innerObjects?_of_isObjectOf {s : Stage} {v : Json} {way : Inner} {stages : List Stage}
    (h : IsObjectOf s v) (hstages : s.inner? way = some stages) (hne : stages ≠ []) :
    ∃ vs, innerObjects? v way = some vs ∧ List.Forall₂ IsObjectOf stages vs := by
  obtain ⟨ps, hv⟩ := h
  obtain ⟨body, hbody, rfl⟩ := renderStage_gives.mp hv
  cases s with
  | lookup source localField foreignField output pipeline bindings =>
    cases way with
    | lookup =>
      cases hstages
      obtain ⟨values, vs, qs, rs, -, hvs, rfl, -⟩ := renderLookup_gives.mp hbody
      refine ⟨vs, ?_, isObjectOf_of_renderStages hvs⟩
      simp [innerObjects?, innerPath, Json.below?, Stage.kind, lookupEntries, hne, Json.items?]
    | facet name => cases hstages
  | facet facets =>
    cases way with
    | lookup => cases hstages
    | facet name =>
      obtain ⟨es, hes, rfl⟩ := renderFacet_gives.mp hbody
      have hentries := List.rel_reverse (entries_of_renderFacets hes)
      obtain ⟨w, hw, vs, rfl, hvs⟩ := exists_lookup_of_forall₂ hentries hstages
      have hget : get? name (Entries.ofPairs es) = some (.arr vs) := by
        rw [Entries.get?_ofPairs, Entries.get?_eq_lookup, hw]
      refine ⟨vs, ?_, hvs⟩
      simp [innerObjects?, innerPath, Json.below?, Stage.kind, Json.ofEntries, hget, Json.items?]
  | _ => cases hstages

end Mongo

/-- The object at a place of a rendered aggregation is that of the stage there. -/
theorem Query.objectAt?_of_render {q : Query} (hop : q.operation = .aggregate) {r : Rendered}
    (hr : q.render .mongo = .ok r) {i : Nat} {place : List (Inner × Nat)} {s : Stage}
    (hs : q.stageAt? i place = some s) :
    ∃ v ps, (Mongo.renderStage s).Gives v ps ∧ r.objectAt? i place = some v := by
  obtain ⟨parts, hparts, hentries⟩ := Query.parts_of_render hr
  have hpipeline : ∃ objects, (Mongo.renderStages q.pipeline).Gives objects r.params ∧
      parts = [("pipeline", .arr objects)] := by
    simpa [Dialect.renderParts, Mongo.renderParts, Mongo.renderPipeline, hop] using hparts
  obtain ⟨objects, hobjects, rfl⟩ := hpipeline
  obtain ⟨v, hv, ps, hps⟩ := exists_walk?_of_forall₂ Mongo.innerObjects?_of_isObjectOf
    (Mongo.isObjectOf_of_renderStages hobjects) hs
  refine ⟨v, ps, hps, ?_⟩
  simpa [Rendered.objectAt?, hentries, Dialect.header, Json.items?] using hv

end DocumentQuery

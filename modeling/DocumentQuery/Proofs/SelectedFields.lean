import Mathlib.Data.List.Forall2
import DocumentQuery.Proofs.ConditionTrees
import DocumentQuery.Proofs.Dynamo.Updates
import DocumentQuery.Proofs.LastWrites
/-!
# Selected fields

Mongo can return a part of an array, leave fields out or return the first element
that passes a test. The other dialects return whole fields only. A find for one
of them fails if its projection asks for anything else, so that nobody is given
more than was asked for; otherwise it lists the paths as they were given. The map
below mongo's projection has each path once.

Main definitions:
* `Projection.Selects`: the projection asks for whole fields.
* `Dialect.selectionKey`, `Dialect.selection?`: where a dialect lists the selected
  paths, and which paths are listed there.

Results:
* `selectedPaths_eq_ok_iff`: which projections ask for whole fields.
* `Dynamo.selection?_text`: the list of aliases stands for the selected paths.
* `Dialect.lists_of_renderFind`: what a find lists.
* `Mongo.renderProjection_of_selects`: the same projection in mongo.
* `Query.selection_exact`: all of this, for finds that pass validation.
-/
namespace DocumentQuery

open Entries (get?)

/-! ## Projections of whole fields -/

namespace Projection

/-- The projection asks for fields to be returned, each as a whole. -/
def Selects (p : Projection) : Prop :=
  p.exclude = false ∧ ∀ f ∈ p.fields, f.included = true ∧ f.slice = none ∧ f.elemMatch = none

/-- The paths, in the order in which the projection names them. -/
def paths (p : Projection) : List String := p.fields.map fun f => f.field.path

end Projection

/-- The selected paths of a query, if it has a projection. -/
def Query.selectedPaths (q : Query) : List String := (q.projection.map Projection.paths).getD []

/-- The query for documents as they are. -/
def Query.withoutProjection (q : Query) : Query := { q with projection := none }

/-- The check of one entry: it has to be returned as a whole. -/
theorem selectedPaths_eq_ok_iff {dialect : Dialect} {p : Projection} {paths : List String} :
    selectedPaths dialect p = .ok paths ↔ (p.fields = [] ∨ p.Selects) ∧ paths = p.paths := by
  have hentry : ∀ (f : ProjectionField) (path : String),
      (if p.exclude || !f.included then .error (.unsupported dialect .excludeProjection)
        else if f.slice.isSome then .error (.unsupported dialect .projectionSlice)
        else if f.elemMatch.isSome then .error (.unsupported dialect .projectionElemMatch)
        else .ok f.field.path : Except Error String) = .ok path ↔
      (p.exclude = false ∧ f.included = true ∧ f.slice = none ∧ f.elemMatch = none) ∧
        f.field.path = path := by
    intro f path
    cases p.exclude <;> cases f.included <;> cases f.slice <;> cases f.elemMatch <;> simp
  have hpaths : List.Forall₂ (fun f path => f.field.path = path) p.fields paths ↔
      paths = p.paths := by
    rw [← List.forall₂_map_left_iff (R := Eq), List.forall₂_eq_eq_eq, eq_comm]
    rfl
  -- without entries nobody looks at the flag of the whole projection
  have hselects : (∀ f ∈ p.fields, p.exclude = false ∧ f.included = true ∧ f.slice = none ∧
      f.elemMatch = none) ↔ p.fields = [] ∨ p.Selects := by
    rw [Projection.Selects]
    cases p.fields with
    | nil => simp
    | cons f fs =>
      simp only [List.forall_mem_cons, reduceCtorEq, false_or]
      exact ⟨fun h => ⟨h.1.1, h.1.2, fun g hg => (h.2 g hg).2⟩,
        fun h => ⟨⟨h.1, h.2.1⟩, fun g hg => ⟨h.1, h.2.2 g hg⟩⟩⟩
  simp only [selectedPaths, mapM_eq_ok_iff, hentry, List.forall₂_and_left, hpaths, hselects]

theorem optional_selectedPaths_eq_ok_iff {dialect : Dialect} {o : Option Projection}
    {fields : Option (List String)} : o.mapM (selectedPaths dialect) = .ok fields ↔
      (∀ p, o = some p → p.fields = [] ∨ p.Selects) ∧ fields = o.map Projection.paths := by
  cases o with
  | none => simpa using pure_eq_ok_iff (ε := Error)
  | some p =>
    have hbind : (some p).mapM (selectedPaths dialect) =
        (do let paths ← selectedPaths dialect p; pure (some paths)) := rfl
    simp only [hbind, bind_eq_ok_iff, selectedPaths_eq_ok_iff, pure_eq_ok_iff, Option.some.injEq,
      forall_eq', Option.map_some]
    constructor
    · rintro ⟨_, ⟨hp, rfl⟩, rfl⟩
      exact ⟨hp, rfl⟩
    · rintro ⟨hp, rfl⟩
      exact ⟨_, ⟨hp, rfl⟩, rfl⟩

/-! ## Lists of selected paths -/

/-- The texts of an array. -/
def Json.strings? : Json → Option (List String)
  | .arr items => items.mapM fun v => match v with
    | .str s => some s
    | _ => none
  | _ => none

theorem Json.strings?_strings (l : List String) : (Json.strings l).strings? = some l := by
  rw [Json.strings, Json.strings?]
  refine mapM_eq_some ?_
  rw [List.forall₂_map_left_iff]
  exact List.forall₂_same.mpr fun s _ => rfl

namespace Dynamo

/-- The path that an alias alone stands for. -/
def listed? (a : Aliases) : List String → Option String
  | [n] => a.path? n
  | _ => none

/-- The paths that a list of aliases stands for, with a comma between them. -/
def selection? (a : Aliases) (ts : List String) : Option (List String) :=
  (ts.splitOn ",").mapM (listed? a)

/-- Each alias of the list stands for its path, also where a path is selected again. -/
theorem selection?_text {a : Aliases} {start : Nat} {paths : List String}
    (h : a.HasPaths start paths) (hne : paths ≠ []) :
    selection? a (tokens (", ".intercalate
      (paths.zipIdx.map fun p => nameAlias (start + p.2))).toList) = some paths := by
  let listing := paths.zipIdx.map fun p => [nameAlias (start + p.2)]
  have hcuts : List.Forall₂ Cuts (paths.zipIdx.map fun p => nameAlias (start + p.2)) listing := by
    rw [List.forall₂_map_left_iff, List.forall₂_map_right_iff]
    exact List.forall₂_same.mpr fun p _ => cuts_word (isWord_aliasWith .name _)
  have hread : List.Forall₂ (fun us path => listed? a us = some path) listing paths := by
    have hfirst : paths.zipIdx.map Prod.fst = paths := List.zipIdx_map_fst 0 paths
    rw [← hfirst, List.forall₂_map_left_iff, List.forall₂_map_right_iff]
    refine List.forall₂_same.mpr fun p hp => ?_
    exact h p.2 p.1 (List.mem_zipIdx_iff_getElem?.mp hp)
  have hcomma : ∀ us ∈ listing, "," ∉ us := by
    intro us hus
    obtain ⟨p, -, rfl⟩ := List.mem_map.mp hus
    simp [aliasWith_ne (show Plain "," by decide)]
  have hlisting : listing ≠ [] := by simpa [listing] using hne
  rw [(separates_comma.intercalate hcuts).tokens_eq, selection?,
    List.splitOn_intercalate "," hcomma hlisting]
  exact mapM_eq_some hread

end Dynamo

namespace Dialect

/-- The key below which a dialect says which fields are returned. -/
def selectionKey : Dialect → String
  | .mongo => "projection"
  | .dynamo => "ProjectionExpression"
  | .firestore => "select"
  | .couch => "fields"

/-- The paths that a find lists there; the map of mongo is no list. -/
def selection? (dialect : Dialect) (es : Entries) : Option (List String) :=
  match dialect with
  | .mongo => none
  | .dynamo =>
    Dynamo.selection? (.of es) (Dynamo.tokens (Dynamo.expressionAt dialect.selectionKey es).toList)
  | .firestore | .couch => (get? dialect.selectionKey es).bind Json.strings?

end Dialect

/-- The entries list the selected paths of the query, or have no list if there are none. -/
structure Lists (dialect : Dialect) (q : Query) (es : Entries) : Prop where
  none : q.selectedPaths = [] → get? dialect.selectionKey es = none
  some : q.selectedPaths ≠ [] → dialect.selection? es = some q.selectedPaths

section Finds

variable {q : Query} {parts : Entries} {ps : List Param}

theorem Dynamo.lists_of_renderFind (h : (renderFind q).Gives parts ps) :
    Lists .dynamo q (Dialect.dynamo.header q ++ parts) := by
  obtain ⟨c, fields, limit, us, -, hfields, -, rfl, -⟩ := renderFind_gives.mp h
  obtain ⟨-, rfl⟩ := optional_selectedPaths_eq_ok_iff.mp hfields
  rw [← Query.selectedPaths]
  generalize hes : Dialect.dynamo.header q ++ _ = es
  simp only [Dialect.header, conditionEntries_eq, nameEntries_eq, valueParts] at hes
  constructor
  · intro hnone
    simp [← hes, Dialect.selectionKey, hnone]
  · intro hne
    -- the paths of the condition take the aliases before those of the selection
    have hpaths : (Aliases.of es).HasPaths (pathsOf c).length q.selectedPaths := by
      have hall : (Aliases.of es).HasPaths 0 (pathsOf c ++ q.selectedPaths) :=
        hasPaths_of fun _ => by simp [← hes, hne]
      have hright := hall.right
      rwa [Nat.zero_add] at hright
    have htext : expressionAt "ProjectionExpression" es = ", ".intercalate
        (q.selectedPaths.zipIdx.map fun p => nameAlias ((pathsOf c).length + p.2)) :=
      expressionAt_of_when (!q.selectedPaths.isEmpty) (fun hempty => by simp [hne] at hempty)
        (by simp [← hes])
    rw [Dialect.selection?, Dialect.selectionKey, htext]
    exact selection?_text hpaths hne

theorem Firestore.lists_of_renderFind (h : (renderFind q).Gives parts ps) :
    Lists .firestore q (Dialect.firestore.header q ++ parts) := by
  obtain ⟨conditions, limit, offset, fields, qs, rs, ts, hwhere, -, -, hfields, rfl, -⟩ :=
    renderFind_gives.mp h
  obtain ⟨-, rfl⟩ := optional_selectedPaths_eq_ok_iff.mp hfields
  obtain ⟨list, -, rfl⟩ := whereEntries_gives.mp hwhere
  rw [← Query.selectedPaths]
  constructor
  · intro hnone
    simp [Dialect.selectionKey, Dialect.header, hnone]
  · intro hne
    simp [Dialect.selection?, Dialect.selectionKey, Dialect.header, hne, Json.strings?_strings]

theorem Couch.lists_of_renderFind (h : (renderFind q).Gives parts ps) :
    Lists .couch q (Dialect.couch.header q ++ parts) := by
  obtain ⟨selector, fields, limit, skip, qs, rs, ts, -, hfields, -, -, rfl, -⟩ :=
    renderFind_gives.mp h
  obtain ⟨-, rfl⟩ := optional_selectedPaths_eq_ok_iff.mp hfields
  rw [← Query.selectedPaths]
  constructor
  · intro hnone
    simp [Dialect.selectionKey, Dialect.header, hnone]
  · intro hne
    simp [Dialect.selection?, Dialect.selectionKey, Dialect.header, hne, Json.strings?_strings]

end Finds

namespace Dialect

variable {q : Query} {dialect : Dialect} {parts : Entries} {ps : List Param}

theorem lists_of_renderFind (hdialect : dialect ≠ .mongo)
    (h : (dialect.renderFind q).Gives parts ps) : Lists dialect q (dialect.header q ++ parts) := by
  cases dialect with
  | mongo => exact absurd rfl hdialect
  | dynamo => exact Dynamo.lists_of_renderFind h
  | firestore => exact Firestore.lists_of_renderFind h
  | couch => exact Couch.lists_of_renderFind h

/-- Without its projection, the find binds the same parameters. -/
theorem renderFind_without_projection (hdialect : dialect ≠ .mongo)
    (h : (dialect.renderFind q).Gives parts ps) :
    ∃ parts', (dialect.renderFind q.withoutProjection).Gives parts' ps := by
  cases dialect with
  | mongo => exact absurd rfl hdialect
  | dynamo =>
    obtain ⟨c, -, limit, us, hc, -, hlimit, -, hps⟩ := Dynamo.renderFind_gives.mp h
    exact ⟨_, Dynamo.renderFind_gives.mpr ⟨c, none, limit, us, hc, rfl, hlimit, rfl, hps⟩⟩
  | firestore =>
    obtain ⟨conditions, limit, offset, -, qs, rs, ts, hwhere, hlimit, hoffset, -, -, hps⟩ :=
      Firestore.renderFind_gives.mp h
    exact ⟨_, Firestore.renderFind_gives.mpr
      ⟨conditions, limit, offset, none, qs, rs, ts, hwhere, hlimit, hoffset, rfl, rfl, hps⟩⟩
  | couch =>
    obtain ⟨selector, -, limit, skip, qs, rs, ts, hselector, -, hlimit, hskip, -, hps⟩ :=
      Couch.renderFind_gives.mp h
    exact ⟨_, Couch.renderFind_gives.mpr
      ⟨selector, none, limit, skip, qs, rs, ts, hselector, rfl, hlimit, hskip, rfl, hps⟩⟩

/-- Apart from mongo, the dialects have a form for whole fields only. -/
theorem projects_iff (hdialect : dialect ≠ .mongo) {o : Option Projection} :
    dialect.Projects o ↔ ∀ p, o = some p → p.fields = [] ∨ p.Selects := by
  have hchecked : dialect.Projects o ↔ ∃ fields, o.mapM (selectedPaths dialect) = .ok fields := by
    cases dialect with
    | mongo => exact absurd rfl hdialect
    | _ => exact Iff.rfl
  simp only [hchecked, optional_selectedPaths_eq_ok_iff, exists_and_left, exists_eq, and_true]

end Dialect

/-! ## The same projection in mongo -/

namespace Mongo

/-- A projection of whole fields is the map of its paths to one. -/
theorem renderProjection_of_selects {p : Projection} (hp : p.fields = [] ∨ p.Selects) {v : Json}
    {ps : List Param} (h : (renderProjection p).Gives v ps) :
    v = .obj (p.paths.eraseDups.map fun path => (path, .nat 1)) := by
  obtain ⟨es, hes, rfl⟩ := renderProjection_gives.mp h
  have hwhole : ∀ f ∈ p.fields, f.included = true ∧ f.slice = none ∧ f.elemMatch = none := by
    rcases hp with hnone | hselects
    · simp [hnone]
    · exact hselects.2
  have hentry : List.Forall₂ (fun f e => (f.field.path, Json.nat 1) = e) p.fields es := by
    refine ((List.forall₂_and_left _ _).mpr ⟨hwhole, Render.forall₂_of_each hes⟩).imp ?_
    rintro f e ⟨⟨hincluded, hslice, hmatch⟩, qs, he⟩
    obtain ⟨v, rfl, hv⟩ := renderProjectionField_gives.mp he
    rw [hslice, hmatch] at hv
    rw [hv.1, hincluded]
    rfl
  have hes : es = p.paths.map fun path => (path, .nat 1) := by
    rw [← List.forall₂_map_left_iff (R := Eq), List.forall₂_eq_eq_eq] at hentry
    rw [← hentry, Projection.paths, List.map_map]
    rfl
  rw [Json.ofEntries, hes, Entries.ofPairs_map_const]

end Mongo

/-! ## Whole finds -/

namespace Query

variable {q : Query} {dialect : Dialect}

/-- Validation has no more to say about a find without its projection. -/
theorem validate_without_projection (hop : q.operation = .find ∨ q.operation = .findOne)
    (h : q.validate = .ok ()) : q.withoutProjection.validate = .ok () := by
  obtain ⟨htarget, hgroup, hfind⟩ := validate_eq_ok_iff.mp h
  rw [validateOperation_of_find hop] at hfind
  obtain ⟨hlimit, -, hsort, hdepth⟩ := validateFind_eq_ok_iff.mp hfind
  refine validate_eq_ok_iff.mpr ⟨htarget, hgroup, ?_⟩
  have hdemand : q.withoutProjection.validateOperation = q.withoutProjection.validateFind :=
    validateOperation_of_find hop
  rw [hdemand]
  exact validateFind_eq_ok_iff.mpr ⟨hlimit, (fun p hp => by cases hp), hsort, hdepth⟩

/-- A find that passes validation, with a filter that the dialect accepts or none, is rendered by
the dialects other than mongo exactly if its projection, if it has one with entries, asks for
fields to be returned, each as a whole. The rendered find lists the paths of the projection in
order, with repetitions, and binds the parameters that it binds without its projection. Where mongo
renders it too, its projection maps each of the paths to one, and has no others. -/
theorem selection_exact (hdialect : dialect ≠ .mongo)
    (hop : q.operation = .find ∨ q.operation = .findOne) (hvalid : q.validate = .ok ())
    (hfilter : ∀ f, q.filter = some f → (dialect.renderFilter f).Succeeds) :
    ((∃ r, q.render dialect = .ok r) ↔
      ∀ p, q.projection = some p → p.fields = [] ∨ p.Selects) ∧
    ∀ r, q.render dialect = .ok r →
      (q.selectedPaths = [] → get? dialect.selectionKey r.entries = none) ∧
      (q.selectedPaths ≠ [] → dialect.selection? r.entries = some q.selectedPaths) ∧
      (∃ plain, q.withoutProjection.render dialect = .ok plain ∧
        r.params = plain.params) ∧
      ∀ p r', q.projection = some p → q.render .mongo = .ok r' →
        get? Dialect.mongo.selectionKey r'.entries =
          some (.obj (p.paths.eraseDups.map fun path => (path, .nat 1))) := by
  have hiff : (∃ r, q.render dialect = .ok r) ↔
      ∀ p, q.projection = some p → p.fields = [] ∨ p.Selects := by
    rw [find_isOk_iff hop, Dialect.projects_iff hdialect]
    exact ⟨fun h => h.2.2, fun h => ⟨hvalid, hfilter, h⟩⟩
  refine ⟨hiff, fun r hr => ?_⟩
  obtain ⟨parts, hgives, hentries⟩ := parts_of_render hr
  rw [dialect.renderParts_of_find hop] at hgives
  have hlists := Dialect.lists_of_renderFind hdialect hgives
  rw [← hentries] at hlists
  refine ⟨hlists.none, hlists.some, ?_, fun p r' hp hr' => ?_⟩
  · obtain ⟨-, hsupports, -⟩ := render_eq_ok_iff.mp hr
    obtain ⟨parts', hplain⟩ := Dialect.renderFind_without_projection hdialect hgives
    rw [← dialect.renderParts_of_find (q := q.withoutProjection) hop] at hplain
    exact ⟨⟨.obj (dialect.header q ++ parts'), r.params⟩, render_eq_ok_iff.mpr
      ⟨validate_without_projection hop hvalid, hsupports, _,
        Dialect.renderEntries_gives.mpr ⟨parts', hplain, rfl⟩, by cases dialect <;> rfl⟩, rfl⟩
  · obtain ⟨parts', hgives', hentries'⟩ := parts_of_render hr'
    rw [Dialect.renderParts_of_find _ hop] at hgives'
    obtain ⟨filter, projection, skip, limit, qs, rs, ts, us, -, hprojection, -, -, rfl, -⟩ :=
      Mongo.renderFind_gives.mp hgives'
    rw [hp, Render.gives_optional_some] at hprojection
    obtain ⟨v, rfl, hv⟩ := hprojection
    have hobject := Mongo.renderProjection_of_selects (hiff.mp ⟨r, hr⟩ p hp) hv
    rw [hentries', ← hobject]
    simp [Dialect.header, Dialect.selectionKey]

end Query

/-- The names of minors, with their scores, and the names again. -/
def namesTwice : List Call :=
  [.filter (.condition Users.age .lt Users.greatest),
    .select [Users.name, Users.scores, Users.name], .limitParam Users.given]

theorem selection_exact_namesTwice :
    ∃ q r r', ((Builder.start .find Users.collection).run namesTwice).build = .ok q ∧
      q.render .dynamo = .ok r ∧ q.render .mongo = .ok r' ∧
      Dialect.dynamo.selection? r.entries = some ["name", "scores", "name"] ∧
      get? "projection" r'.entries = some (.obj [("name", .nat 1), ("scores", .nat 1)]) := by
  obtain ⟨q, hq⟩ : ∃ q, ((Builder.start .find Users.collection).run namesTwice).build = .ok q :=
    ⟨_, rfl⟩
  obtain ⟨hop, hvalid, hfilter, hprojection, r', hr'⟩ : q.operation = .find ∧
      q.validate = .ok () ∧ (∀ f, q.filter = some f → (Dialect.dynamo.renderFilter f).Succeeds) ∧
      q.projection = some (.including [Users.name, Users.scores, Users.name]) ∧
      ∃ r', q.render .mongo = .ok r' := by
    cases hq
    refine ⟨rfl, rfl, fun f hf => ?_, rfl, _, rfl⟩
    cases hf
    exact ⟨_, _, rfl⟩
  have hdynamo : Dialect.dynamo ≠ .mongo := by decide
  obtain ⟨hiff, hexact⟩ := Query.selection_exact hdynamo (.inl hop) hvalid hfilter
  obtain ⟨r, hr⟩ := hiff.mpr fun p hp => by
    rw [hprojection] at hp
    cases hp
    exact .inr ⟨rfl, by simp [Projection.including, ProjectionField.keep]⟩
  obtain ⟨-, hsome, -, hmongo⟩ := hexact r hr
  have hselected : q.selectedPaths = ["name", "scores", "name"] := by
    rw [Query.selectedPaths, hprojection]
    rfl
  rw [hselected] at hsome
  exact ⟨q, r, r', hq, hr, hr', hsome (by simp), hmongo _ r' hprojection hr'⟩

end DocumentQuery

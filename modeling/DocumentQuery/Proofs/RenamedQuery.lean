import DocumentQuery.Proofs.Couch.Renaming
import DocumentQuery.Proofs.Dynamo.Renaming
import DocumentQuery.Proofs.Firestore.Renaming
import DocumentQuery.Proofs.Mongo.RenamedStages
import DocumentQuery.Proofs.RenderedQuery
/-!
# Renamed queries

Rendering does not look at the names of parameters. If the parameters of a built
query are renamed, even if several get the same name, the outcome is the former
one renamed: an error stays the same error, and in a rendered object only the
placeholders and the list of parameters change.

Results:
* `Query.validate_rename`: a renamed query has the faults that it had.
* `render_rename`: a renamed query renders to the renamed object.
-/
namespace DocumentQuery

variable (ρ : Param → Param)

/-! ## Validation -/

namespace Filter

mutual

@[simp] theorem nesting_rename : ∀ f : Filter, (f.rename ρ).nesting = f.nesting
  | .group _ conditions => nestingBelow_rename conditions
  | .elemMatch _ conditions => nestingBelow_rename conditions
  | .condition .. | .range _ | .regex .. | .textSearch _ | .geo _ | .array .. | .presence .. => rfl

theorem nestingBelow_rename : ∀ fs : List Filter, nestingBelow (renameAll ρ fs) = nestingBelow fs
  | [] => rfl
  | f :: fs => by
    rw [renameAll, nestingBelow, nestingBelow, nesting_rename f, nestingBelow_rename fs]

end

mutual

@[simp] theorem emptyGroup?_rename : ∀ f : Filter, (f.rename ρ).emptyGroup? = f.emptyGroup?
  | .group logic conditions => by
    have hempty : (renameAll ρ conditions).isEmpty = conditions.isEmpty := by
      cases conditions <;> rfl
    rw [rename, emptyGroup?, emptyGroup?, hempty, emptyGroupIn?_rename conditions]
  | .elemMatch _ conditions => emptyGroupIn?_rename conditions
  | .condition .. | .range _ | .regex .. | .textSearch _ | .geo _ | .array .. | .presence .. => rfl

theorem emptyGroupIn?_rename : ∀ fs : List Filter,
    emptyGroupIn? (renameAll ρ fs) = emptyGroupIn? fs
  | [] => rfl
  | f :: fs => by
    rw [renameAll, emptyGroupIn?, emptyGroupIn?, emptyGroup?_rename f, emptyGroupIn?_rename fs]

end

end Filter

namespace Stage

mutual

theorem emptyGroup?_rename : ∀ s : Stage, (s.rename ρ).emptyGroup? = s.emptyGroup?
  | .filter f => f.emptyGroup?_rename ρ
  | .lookup _ _ _ _ pipeline _ => emptyGroupIn?_rename pipeline
  | .facet facets => emptyGroupInFacets?_rename facets
  | .project .. | .group .. | .sort _ | .limit _ | .skip _ | .unwind .. | .addFields _
  | .replaceRoot _ | .count _ | .bucket .. => rfl

theorem emptyGroupIn?_rename : ∀ stages : List Stage,
    emptyGroupIn? (renameAll ρ stages) = emptyGroupIn? stages
  | [] => rfl
  | s :: rest => by
    rw [renameAll, emptyGroupIn?, emptyGroupIn?, emptyGroup?_rename s, emptyGroupIn?_rename rest]

theorem emptyGroupInFacets?_rename : ∀ facets : List (String × List Stage),
    emptyGroupInFacets? (renameFacets ρ facets) = emptyGroupInFacets? facets
  | [] => rfl
  | (name, stages) :: rest => by
    rw [renameFacets, emptyGroupInFacets?, emptyGroupInFacets?, emptyGroupIn?_rename stages,
      emptyGroupInFacets?_rename rest]

end

end Stage

namespace Query

variable (q : Query)

theorem emptyGroup?_rename : (q.rename ρ).emptyGroup? = q.emptyGroup? := by
  have hfilter : (q.filter.map (Filter.rename ρ)).bind Filter.emptyGroup? =
      q.filter.bind Filter.emptyGroup? := by
    cases q.filter with
    | none => rfl
    | some f => exact f.emptyGroup?_rename ρ
  unfold emptyGroup? rename
  rw [hfilter, Stage.emptyGroupIn?_rename]

theorem validateFind_rename : (q.rename ρ).validateFind = q.validateFind := by
  unfold validateFind rename
  cases q.limit with
  | none => cases q.projection <;> cases q.filter <;> simp [Projection.rename]
  | some limit =>
    cases limit <;> cases q.projection <;> cases q.filter <;>
      simp [Pagination.rename, Projection.rename]

theorem validateOperation_rename : (q.rename ρ).validateOperation = q.validateOperation := by
  have hoperation : (q.rename ρ).operation = q.operation := rfl
  unfold validateOperation
  rw [validateFind_rename]
  simp [rename, requireUpdates, requireFilter, Stage.isEmpty_renameAll, Stage.length_renameAll]

/-- A renamed query has the faults that it had. -/
theorem validate_rename : (q.rename ρ).validate = q.validate := by
  unfold validate
  rw [emptyGroup?_rename, validateOperation_rename]
  rfl

end Query

/-! ## Rendering -/

theorem Rendered.ofEntries_rename {x y : Render Entries}
    (h : Render.Renames ρ (Json.renameEntries ρ) x y) :
    Rendered.ofEntries y = (Rendered.ofEntries x).map (Rendered.rename ρ) := by
  unfold Render.Renames at h
  subst h
  cases x <;> rfl

theorem Query.Built.renames_entries {q : Query} (hq : q.Built) (dialect : Dialect) :
    Render.Renames ρ (Json.renameEntries ρ) (dialect.renderEntries q)
      (dialect.renderEntries (q.rename ρ)) := by
  cases dialect with
  | mongo => exact Mongo.renames_entries ρ hq.names
  | dynamo => exact Dynamo.renames_entries ρ
  | firestore => exact Firestore.renames_entries ρ q
  | couch => exact Couch.renames_entries ρ q

/-- Renaming the parameters of a built query renames its outcome in every dialect. An error stays
the same error; in an object the placeholders and the parameters to bind are renamed and the rest is
kept. -/
theorem render_rename {start : Start} {target : Collection} {calls : List Call} {q : Query}
    (hbuild : ((Builder.start start target).run calls).build = .ok q) (dialect : Dialect) :
    (q.rename ρ).render dialect = (q.render dialect).map (Rendered.rename ρ) := by
  have hoperation : (q.rename ρ).operation = q.operation := rfl
  have hentries := Rendered.ofEntries_rename ρ ((built_of_build hbuild).renames_entries ρ dialect)
  unfold Query.render
  rw [Query.validate_rename, hoperation, hentries]
  cases q.validate with
  | error fault => rfl
  | ok _ => cases dialect.supportsOperation q.operation <;> rfl

/-- Users with a score in a range. -/
def scoredBetween : List Call :=
  [.filter (.elemMatch Users.scores
    [.condition Users.points .gte Users.least, .condition Users.points .lt Users.greatest])]

theorem render_rename_scoredBetween :
    ∃ q r, ((Builder.start .find Users.collection).run scoredBetween).build = .ok q ∧
      q.render .mongo = .ok r ∧ r.paramNames = ["least", "greatest"] ∧
      (q.rename fun _ => Users.given).render .mongo = .ok (r.rename fun _ => Users.given) ∧
      (r.rename fun _ => Users.given).paramNames = ["given", "given"] := by
  obtain ⟨q, hq⟩ : ∃ q,
      ((Builder.start .find Users.collection).run scoredBetween).build = .ok q := ⟨_, rfl⟩
  obtain ⟨r, hr, hnames, hsame⟩ : ∃ r, q.render .mongo = .ok r ∧
      r.paramNames = ["least", "greatest"] ∧
      (r.rename fun _ => Users.given).paramNames = ["given", "given"] := by
    cases hq
    exact ⟨_, rfl, rfl, rfl⟩
  have hrename := render_rename (fun _ => Users.given) hq .mongo
  rw [hr] at hrename
  exact ⟨q, r, hq, hr, hnames, hrename, hsame⟩

end DocumentQuery

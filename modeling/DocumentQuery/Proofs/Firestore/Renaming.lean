import DocumentQuery.Proofs.Firestore.Writing
import DocumentQuery.Proofs.RenamedSteps
/-!
# Renamed queries for firestore

A renamed filter flattens into the renamed clauses, and the changes of a renamed
update into the renamed assignments: paths are compared, parameters never.

Main definitions:
* `Clause.rename`, `Assignment.rename`: the parameter of a clause or of an
  assignment renamed.

Results:
* `clauses_rename`, `assignments_rename`: what a renamed filter or update stands for.
* `renames_entries`: the object of a renamed query.
-/
namespace DocumentQuery.Firestore

open Render (Renames)

variable (ρ : Param → Param)

/-! ## Clauses -/

/-- The clause with its parameter renamed. -/
def Clause.rename (c : Clause) : Clause := { c with value := ρ c.value }

theorem append_rename (x y : Except Error (List Clause)) :
    (do
      let cs ← x.map (List.map (Clause.rename ρ))
      let ds ← y.map (List.map (Clause.rename ρ))
      pure (cs ++ ds)) =
      (do let cs ← x; let ds ← y; pure (cs ++ ds)).map (List.map (Clause.rename ρ)) := by
  cases x with
  | error e => rfl
  | ok cs =>
    cases y with
    | error e => rfl
    | ok ds => exact congrArg Except.ok List.map_append.symm

theorem clause_rename (field : Field) (operator : FilterOperator) (value : Param) :
    clause field operator (ρ value) =
      (clause field operator value).map (List.map (Clause.rename ρ)) := by
  unfold clause
  cases whereSign? operator <;> rfl

theorem rangeClauses_rename (r : RangeFilter) :
    rangeClauses (r.rename ρ) = (rangeClauses r).map (List.map (Clause.rename ρ)) := by
  have hfield : (r.rename ρ).field = r.field := rfl
  unfold rangeClauses
  rw [hfield, RangeFilter.bounds_rename]
  induction r.bounds with
  | nil => rfl
  | cons b bounds ih =>
    rw [List.map_cons, List.foldr_cons, List.foldr_cons, ih, clause_rename]
    exact append_rename ρ _ _

mutual

theorem clauses_rename : ∀ f : Filter,
    clauses (f.rename ρ) = (clauses f).map (List.map (Clause.rename ρ))
  | .condition field operator value | .array field operator value =>
    clause_rename ρ field operator value
  | .group logic conditions => by
    cases logic with
    | and | not => exact clausesOfAll_rename conditions
    | or | nor => rfl
  | .range r => rangeClauses_rename ρ r
  | .regex .. | .textSearch _ | .geo _ | .elemMatch .. | .presence .. => rfl

theorem clausesOfAll_rename : ∀ fs : List Filter,
    clausesOfAll (Filter.renameAll ρ fs) = (clausesOfAll fs).map (List.map (Clause.rename ρ))
  | [] => rfl
  | f :: fs => by
    rw [Filter.renameAll, clausesOfAll, clausesOfAll, clauses_rename f, clausesOfAll_rename fs]
    exact append_rename ρ (clauses f) (clausesOfAll fs)

end

theorem sign_of_mem_clauses {f : Filter} {cs : List Clause} (h : clauses f = .ok cs) :
    ∀ c ∈ cs, c.sign ∈ Dialect.firestore.words := by
  have hmakes := clauses_make f h
  clear h
  generalize f.formula.atoms = as at hmakes
  induction hmakes with
  | nil => simp
  | cons hc _ ih =>
    obtain ⟨op, hsign, -⟩ := hc
    exact List.forall_mem_cons.mpr ⟨sign_mem_words hsign, ih⟩

theorem renames_clause {c : Clause} (hsign : c.sign ∈ Dialect.firestore.words) :
    Renames ρ (Json.rename ρ) (renderClause c) (renderClause (c.rename ρ)) := by
  refine (Renames.placeholder c.value).bind fun _ => .pure ?_
  rw [Json.rename, Json.renameEntries, Json.rename_path, Json.renameEntries,
    Json.rename_str ρ (Dialect.not_marked_of_mem_words hsign)]
  rfl

theorem renames_where (f : Filter) :
    Renames ρ (Json.rename ρ) (renderWhere f) (renderWhere (f.rename ρ)) := by
  refine Renames.ofExcept_bind (clauses_rename ρ f) fun cs hcs =>
    (Renames.each cs fun c hc => renames_clause ρ (sign_of_mem_clauses hcs c hc)).bind
      fun vs => .pure ?_
  rw [Json.rename, Json.renameItems_eq]

theorem renames_whereEntries (q : Query) :
    Renames ρ (Json.renameEntries ρ) (whereEntries q) (whereEntries (q.rename ρ)) :=
  (Renames.optional (renames_where ρ) q.filter).bind fun list =>
    .pure (Json.renameEntries_optional ρ "where" list).symm

/-! ## Updates -/

/-- The assignment with its parameter renamed. -/
def Assignment.rename : Assignment → Assignment
  | .value p => .value (ρ p)
  | .removal => .removal

theorem assignment_rename (operator : UpdateOperator) (path : String) (value : Option Param) :
    assignment operator path (value.map ρ) =
      (assignment operator path value).map (Assignment.rename ρ) := by
  cases operator <;> cases value <;> rfl

theorem changes_rename (ops : List UpdateOperation) :
    changes (ops.map (UpdateOperation.rename ρ)) =
      (changes ops).map fun c => (c.1, c.2.1, c.2.2.map ρ) := by
  simp [changes, UpdateOperation.rename, OrderedMap.mapValues, List.flatMap_map, List.map_flatMap,
    Function.comp_def]

/-- The paths written so far are those of the original, so a repeated path is found in both. -/
theorem assignments_rename (cs : List (UpdateOperator × String × Option Param)) :
    ∀ written : List (String × Assignment),
      assignments (written.map fun a => (a.1, a.2.rename ρ))
          (cs.map fun c => (c.1, c.2.1, c.2.2.map ρ)) =
        (assignments written cs).map (List.map fun a => (a.1, a.2.rename ρ)) := by
  induction cs with
  | nil => intro written; rfl
  | cons c cs ih =>
    intro written
    obtain ⟨operator, path, value⟩ := c
    have hpaths : (written.map fun a => (a.1, a.2.rename ρ)).map Prod.fst =
        written.map Prod.fst := by
      simp [Function.comp_def]
    rw [List.map_cons, assignments, assignments, hpaths]
    split
    · rfl
    · rw [assignment_rename]
      cases assignment operator path value with
      | error e => rfl
      | ok a =>
        have hnext := ih (written ++ [(path, a)])
        rw [List.map_append] at hnext
        exact hnext

theorem renames_assignment (a : String × Assignment) :
    Renames ρ (fun e => (e.1, e.2.rename ρ)) (renderAssignment a)
      (renderAssignment (a.1, a.2.rename ρ)) := by
  obtain ⟨path, a⟩ := a
  cases a with
  | value p => exact Renames.entry path (.placeholder p)
  | removal => exact .pure (congrArg (path, ·) (Json.rename_str ρ (by decide)).symm)

theorem renames_data (ops : List UpdateOperation) :
    Renames ρ (Json.rename ρ) (renderData ops)
      (renderData (ops.map (UpdateOperation.rename ρ))) := by
  have hlist : assignments [] (changes (ops.map (UpdateOperation.rename ρ))) =
      (assignments [] (changes ops)).map (List.map fun a => (a.1, a.2.rename ρ)) := by
    rw [changes_rename]
    exact assignments_rename ρ (changes ops) []
  exact Renames.ofExcept_bind hlist fun list _ =>
    (Renames.entries (renames_assignment ρ) list).bind fun _ => .pure rfl

/-! ## Queries -/

variable (q : Query)

theorem renames_find :
    Renames ρ (Json.renameEntries ρ) (renderFind q) (renderFind (q.rename ρ)) := by
  have hselection : (q.rename ρ).projection.mapM (selectedPaths .firestore) =
      q.projection.mapM (selectedPaths .firestore) := selection_rename ρ .firestore q.projection
  have hsame : (q.rename ρ).sort = q.sort := rfl
  unfold renderFind
  rw [hselection, hsame]
  refine (renames_whereEntries ρ q).bind fun conditions =>
    (Renames.optional Renames.pagination q.limit).bind fun limit =>
    (Renames.optional Renames.pagination q.skip).bind fun offset =>
    Renames.check_bind fun fields hfields => .pure ?_
  have hselect :=
    (writes_selection "select" (.frame (by decide)) hfields).renameEntries_eq ρ
  have hsort := (writes_sort q.sort).renameEntries_eq ρ
  simp only [Json.renameEntries_append, Json.renameEntries_optional, hselect, hsort]

/-- What a renamed query renders to below its header. -/
theorem renames_parts :
    Renames ρ (Json.renameEntries ρ) (renderParts q) (renderParts (q.rename ρ)) := by
  have hoperation : (q.rename ρ).operation = q.operation := rfl
  unfold renderParts
  rw [hoperation]
  cases q.operation with
  | find | findOne => exact renames_find ρ q
  | insert =>
    refine (Renames.firstDocument q.documents).bind fun document => .pure ?_
    rw [Json.renameEntries_optional]
  | update =>
    refine (renames_whereEntries ρ q).bind fun conditions =>
      (renames_data ρ q.updates).bind fun data => .pure ?_
    rw [Json.renameEntries_append]
    rfl
  | delete => exact renames_whereEntries ρ q
  | _ => exact .unsupported

theorem renames_entries :
    Renames ρ (Json.renameEntries ρ) (renderEntries q) (renderEntries (q.rename ρ)) := by
  refine (renames_parts ρ q).bind fun parts => .pure ?_
  simp [Json.renameEntries, Json.rename_identifier ρ q.target.valid, Json.rename_operation,
    Query.rename]

end DocumentQuery.Firestore

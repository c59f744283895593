import DocumentQuery.Proofs.Built
import DocumentQuery.Proofs.FilterPlaces
import DocumentQuery.Proofs.FirstFailure
/-!
# The names that stages introduce

A stage makes up names: of accumulators and computed values, of fields that it adds, of facets and
counts, of what a look-up finds and of its bindings, of array indices. Stages inside of it, in the
pipeline of a look-up or in facets, make up more. Adding the stage to a query checks all of them,
the stage's own before those of the stages inside.

Main definitions:
* `Stage.Introduces`: a stage, or a stage inside of it, makes up a name.
* `Stage.inner`: the stages that lie right inside a stage.
* `Stage.introduced`: all names that a stage makes up, in the order in which they are checked.

Results:
* `Stage.mem_introduced`: the list has just these names.
* `Stage.invalidName?_eq`: the check goes along the list.
* `Query.pushStage_exact`: when a stage is added, and what is left when it is not.
-/
namespace DocumentQuery

namespace Stage

/-- A stage, or a stage at any depth inside of it, makes up a name. -/
inductive Introduces : Stage → String → Prop where
  | accumulator {id accumulators name} :
      name ∈ accumulators.keys → Introduces (.group id accumulators) name
  | computed {projection computed name} :
      name ∈ computed.keys → Introduces (.project projection computed) name
  | added {fields name} : name ∈ fields.keys → Introduces (.addFields fields) name
  | bucketOutput {groupBy boundaries fallback output name} :
      name ∈ output.keys → Introduces (.bucket groupBy boundaries fallback output) name
  | facet {facets name stages} : (name, stages) ∈ facets → Introduces (.facet facets) name
  | count {name} : Introduces (.count name) name
  | found {source localField foreignField name pipeline bindings} :
      Introduces (.lookup source localField foreignField name pipeline bindings) name
  | binding {source localField foreignField output pipeline bindings name} :
      name ∈ bindings.keys →
        Introduces (.lookup source localField foreignField output pipeline bindings) name
  | arrayIndex {path name preserve} : Introduces (.unwind path (some name) preserve) name
  | insideLookup {source localField foreignField output pipeline bindings t name} :
      t ∈ pipeline → Introduces t name →
        Introduces (.lookup source localField foreignField output pipeline bindings) name
  | insideFacet {facets facetName stages t name} :
      (facetName, stages) ∈ facets → t ∈ stages → Introduces t name →
        Introduces (.facet facets) name

/-- The stages that lie right inside a stage. -/
def inner : Stage → List Stage
  | .lookup _ _ _ _ pipeline _ => pipeline
  | .facet facets => facets.flatMap Prod.snd
  | _ => []

/-- The names that a stage and the stages inside of it make up, in the order of the check. -/
def introduced (s : Stage) : List String := s.nodes.flatMap ownNames

/-! ## What lies inside a stage -/

theorem nodesIn_eq_flatMap (stages : List Stage) : nodesIn stages = stages.flatMap nodes := by
  induction stages with
  | nil => rfl
  | cons s rest ih => rw [nodesIn, ih, List.flatMap_cons]

theorem nodesInFacets_eq_flatMap (facets : List (String × List Stage)) :
    nodesInFacets facets = (facets.flatMap Prod.snd).flatMap nodes := by
  induction facets with
  | nil => rfl
  | cons facet rest ih =>
    rw [nodesInFacets, ih, nodesIn_eq_flatMap, List.flatMap_cons, List.flatMap_append]

/-- The walk visits a stage before the stages inside of it. -/
theorem nodes_eq (s : Stage) : s.nodes = s :: s.inner.flatMap nodes := by
  cases s with
  | lookup => rw [nodes, nodesIn_eq_flatMap, inner]
  | facet => rw [nodes, nodesInFacets_eq_flatMap, inner]
  | _ => rfl

/-- Its own names come before those of the stages inside of it. -/
theorem introduced_eq (s : Stage) : s.introduced = s.ownNames ++ s.inner.flatMap introduced := by
  rw [introduced, nodes_eq, List.flatMap_cons, List.flatMap_assoc]
  rfl

/-- A name is a stage's own, or made up by a stage right inside of it. -/
theorem introduces_iff {s : Stage} {name : String} :
    s.Introduces name ↔ name ∈ s.ownNames ∨ ∃ t ∈ s.inner, t.Introduces name := by
  constructor
  · intro h
    cases h with
    | insideLookup ht h => exact .inr ⟨_, ht, h⟩
    | insideFacet hfacet ht h => exact .inr ⟨_, List.mem_flatMap.mpr ⟨_, hfacet, ht⟩, h⟩
    | facet hfacet => exact .inl (List.mem_map_of_mem hfacet)
    | accumulator hname | computed hname | added hname | bucketOutput hname => exact .inl hname
    | binding hname => exact .inl (.tail _ hname)
    | count | found | arrayIndex => exact .inl (.head _)
  · rintro (hown | ⟨t, ht, h⟩)
    · cases s with
      | group => exact .accumulator hown
      | project => exact .computed hown
      | addFields => exact .added hown
      | bucket => exact .bucketOutput hown
      | facet =>
        obtain ⟨⟨_, stages⟩, hfacet, rfl⟩ := List.mem_map.mp hown
        exact .facet hfacet
      | count =>
        cases List.mem_singleton.mp hown
        exact .count
      | lookup =>
        rcases List.mem_cons.mp hown with rfl | hname
        · exact .found
        · exact .binding hname
      | unwind =>
        cases Option.mem_toList.mp hown
        exact .arrayIndex
      | filter | sort | limit | skip | replaceRoot => cases hown
    · cases s with
      | lookup => exact .insideLookup ht h
      | facet =>
        obtain ⟨⟨_, stages⟩, hfacet, ht⟩ := List.mem_flatMap.mp ht
        exact .insideFacet hfacet ht h
      | _ => cases ht

theorem sizeOf_lt_of_mem_inner {s t : Stage} (h : t ∈ s.inner) : sizeOf t < sizeOf s := by
  cases s with
  | lookup _ _ _ _ pipeline _ =>
    have hlt : sizeOf t < sizeOf pipeline := List.sizeOf_lt_of_mem h
    simp only [lookup.sizeOf_spec]
    omega
  | facet facets =>
    obtain ⟨⟨name, stages⟩, hfacet, ht⟩ := List.mem_flatMap.mp h
    have hstages := List.sizeOf_lt_of_mem hfacet
    have hlt : sizeOf t < sizeOf stages := List.sizeOf_lt_of_mem ht
    simp only [facet.sizeOf_spec, Prod.mk.sizeOf_spec] at hstages ⊢
    omega
  | _ => cases h

/-- What holds of a stage if it holds of the stages right inside of it, holds of every stage. -/
@[elab_as_elim]
theorem innerInduction {P : Stage → Prop} (step : ∀ s, (∀ t ∈ s.inner, P t) → P s)
    (s : Stage) : P s :=
  step s fun t ht =>
    have := sizeOf_lt_of_mem_inner ht
    innerInduction step t
termination_by sizeOf s

theorem mem_introduced {s : Stage} {name : String} :
    name ∈ s.introduced ↔ s.Introduces name := by
  induction s using innerInduction with
  | step s ih =>
    rw [introduced_eq, introduces_iff, List.mem_append, List.mem_flatMap]
    exact or_congr_right (exists_congr fun t => and_congr_right (ih t))

/-! ## The check -/

theorem firstInvalid?_append (names more : List String) :
    firstInvalid? (names ++ more) = (firstInvalid? names <|> firstInvalid? more) := by
  simp [firstInvalid?]

/-- A name is the first invalid one if all before it are valid. -/
theorem firstInvalid?_eq_some_iff {names : List String} {name : String} {fault : NameFault} :
    firstInvalid? names = some (name, fault) ↔
      Identifier.fault? name = some fault ∧
        ∃ before after, names = before ++ name :: after ∧
          ∀ earlier ∈ before, Identifier.Valid earlier := by
  simp only [firstInvalid?, List.findSome?_eq_some_iff, Option.map_eq_some_iff,
    Option.map_eq_none_iff, Prod.mk.injEq]
  constructor
  · rintro ⟨before, _, after, rfl, ⟨_, hfault, rfl, rfl⟩, hbefore⟩
    exact ⟨hfault, before, after, rfl, hbefore⟩
  · rintro ⟨hfault, before, after, rfl, hbefore⟩
    exact ⟨before, name, after, rfl, ⟨fault, hfault, rfl, rfl⟩, hbefore⟩

theorem invalidNameInFacets?_eq (facets : List (String × List Stage)) :
    invalidNameInFacets? facets = invalidNameIn? (facets.flatMap Prod.snd) := by
  induction facets with
  | nil => rfl
  | cons facet rest ih =>
    rw [invalidNameInFacets?, ih, List.flatMap_cons, invalidNameIn?_append]

/-- One step of the check: the stage's own names, then the stages right inside of it. -/
theorem invalidName?_step (s : Stage) :
    s.invalidName? = (firstInvalid? s.ownNames <|> invalidNameIn? s.inner) := by
  cases s with
  | lookup => rw [invalidName?, inner]
  | facet => rw [invalidName?, invalidNameInFacets?_eq, inner]
  | _ => simp [invalidName?, invalidNameIn?, inner]

theorem invalidNameIn?_eq {stages : List Stage}
    (h : ∀ s ∈ stages, s.invalidName? = firstInvalid? s.introduced) :
    invalidNameIn? stages = firstInvalid? (stages.flatMap introduced) := by
  induction stages with
  | nil => rfl
  | cons s rest ih =>
    obtain ⟨hs, hrest⟩ := List.forall_mem_cons.mp h
    rw [invalidNameIn?, hs, ih hrest, List.flatMap_cons, firstInvalid?_append]

/-- The check finds the first invalid one of all names that the stage makes up. -/
theorem invalidName?_eq (s : Stage) : s.invalidName? = firstInvalid? s.introduced := by
  induction s using innerInduction with
  | step s ih =>
    rw [invalidName?_step, invalidNameIn?_eq ih, introduced_eq, firstInvalid?_append]

theorem invalidName?_eq_none_iff {s : Stage} :
    s.invalidName? = none ↔ ∀ name, s.Introduces name → Identifier.Valid name := by
  rw [invalidName?_eq, firstInvalid?_eq_none_iff]
  exact forall_congr' fun name => imp_congr_left mem_introduced

end Stage

/-! ## Adding a stage -/

namespace Query

/-- A stage is added exactly if all names that it makes up, at any depth, are identifiers; then it
comes last in the pipeline, and nothing else changes. Otherwise the query stays as it is, and the
failure names the first of the names that is none. -/
theorem pushStage_exact (q : Query) (s : Stage) :
    ((q.pushStage s).failure = none ↔ ∀ name, s.Introduces name → Identifier.Valid name) ∧
    ((q.pushStage s).failure = none →
      (q.pushStage s).query = { q with pipeline := q.pipeline ++ [s] }) ∧
    (∀ e, (q.pushStage s).failure = some e →
      (q.pushStage s).query = q ∧
      ∃ before name after fault,
        s.introduced = before ++ name :: after ∧
        (∀ earlier ∈ before, Identifier.Valid earlier) ∧
        Identifier.fault? name = some fault ∧ e = .invalidName .alias name fault) ∧
    (∀ name, name ∈ s.introduced ↔ s.Introduces name) ∧
    s.introduced = s.ownNames ++ s.inner.flatMap Stage.introduced := by
  refine ⟨?_, fun h => ?_, fun e h => ⟨Call.query_pushStage_of_failure h, ?_⟩,
    fun _ => Stage.mem_introduced, s.introduced_eq⟩
  · rw [Call.failure_pushStage, Option.map_eq_none_iff, Stage.invalidName?_eq_none_iff]
  · exact (Query.eq_of_pushStage (congrArg (Builder.mk _) h)).2
  · rw [Call.failure_pushStage, Stage.invalidName?_eq] at h
    obtain ⟨⟨name, fault⟩, hfirst, rfl⟩ := Option.map_eq_some_iff.mp h
    obtain ⟨hfault, before, after, hnames, hbefore⟩ := Stage.firstInvalid?_eq_some_iff.mp hfirst
    exact ⟨before, name, after, fault, hnames, hbefore, hfault, rfl⟩

/-- Facets of one name, whose look-up numbers the scores that it takes apart; the number has a name
that is no identifier. -/
def numberedScores : Stage :=
  .facet [("best", [.lookup Users.collection Users.name Users.name "found"
    [.unwind Users.scores (some "1st") false] ∅])]

theorem pushStage_exact_numberedScores :
    let q := Start.aggregate.query Users.collection
    numberedScores.Introduces "1st" ∧
      q.pushStage numberedScores = ⟨q, some (.invalidName .alias "1st" (.invalidStart '1'))⟩ := by
  intro q
  obtain ⟨-, -, hrejects, -⟩ := pushStage_exact q numberedScores
  have hfailure : (q.pushStage numberedScores).failure =
      some (.invalidName .alias "1st" (.invalidStart '1')) := by
    rw [Call.failure_pushStage]
    rfl
  obtain ⟨hquery, -⟩ := hrejects _ hfailure
  have hinside : numberedScores.Introduces "1st" :=
    .insideFacet (.head _) (.head _) (.insideLookup (.head _) .arrayIndex)
  exact ⟨hinside, congrArg₂ Builder.mk hquery hfailure⟩

/-- All names that the stages of a built query make up are identifiers. -/
theorem Built.valid_of_introduces {q : Query} (h : q.Built) {s : Stage} (hs : s ∈ q.pipeline) :
    ∀ name, s.Introduces name → Identifier.Valid name := by
  have hnames := h.names
  rw [Stage.invalidNameIn?_eq fun s _ => s.invalidName?_eq,
    Stage.firstInvalid?_eq_none_iff] at hnames
  exact fun name hname => hnames name (List.mem_flatMap.mpr ⟨s, hs, Stage.mem_introduced.mpr hname⟩)

end Query

end DocumentQuery

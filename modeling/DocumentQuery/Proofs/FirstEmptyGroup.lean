import DocumentQuery.Proofs.Conjunctions
import DocumentQuery.Proofs.Faults
import DocumentQuery.Proofs.Places
import DocumentQuery.Proofs.StageNames
/-!
# The first empty group

Validation goes through a query in the order in which it is written down and reports the first
group without conditions that it meets. Only a query without such groups gets as far as the demands
of its operation, and a find as far as the depth of its filter.

Main definitions:
* `IsFirst`: a value stands at the first of the places where values stand.
* `Finds`: a search finds the value at the first place.
* `EmptyGroupAt`: a group without conditions stands at a place.
* `Stage.FacetsByName`: the facets of a stage are in the order of their names. A
  stage holds them as a list, since a tree cannot hold an ordered map of trees of
  its own kind, so their order is a hypothesis.
* `Query.ReachesDepth`: a find that validation has no other fault to find with than its depth.

Results:
* `Filter.finds_emptyGroup`, `Stage.finds_emptyGroup`, `Query.finds_emptyGroup`: the searches for
  an empty group find the first one.
* `Query.verdicts_exact`: what validation says of empty groups and of depth.
-/
namespace DocumentQuery

/-! ## Searches -/

section Searches

variable {α β : Type} {P Q : Place → α → Prop} {found : Option α} {a b : α}

/-- The value stands at a place, and all else that stands somewhere comes later. -/
def IsFirst (P : Place → α → Prop) (a : α) : Prop :=
  ∃ place, P place a ∧ ∀ place' b, P place' b → (place' = place ∧ b = a) ∨ place.Before place'

theorem IsFirst.unique (ha : IsFirst P a) (hb : IsFirst P b) : a = b := by
  obtain ⟨p, hp, hfirst⟩ := ha
  obtain ⟨q, hq, hfirst'⟩ := hb
  rcases hfirst q b hq with ⟨-, rfl⟩ | hpq
  · rfl
  · rcases hfirst' p a hp with ⟨-, rfl⟩ | hqp
    · rfl
    · exact absurd hqp hpq.asymm

/-- What the search finds stands first, and if it finds nothing then nothing stands anywhere. -/
def Finds (P : Place → α → Prop) (found : Option α) : Prop :=
  found.elim (∀ place a, ¬ P place a) (IsFirst P)

theorem findSome?_cons_eq_orElse (find : β → Option α) (item : β) (items : List β) :
    (item :: items).findSome? find = (find item <|> items.findSome? find) := by
  rw [List.findSome?_cons]
  cases find item <;> rfl

namespace Finds

theorem eq_some_iff (h : Finds P found) : found = some a ↔ IsFirst P a := by
  cases found with
  | none =>
    refine iff_of_false (by simp) ?_
    rintro ⟨place, ha, -⟩
    exact h place a ha
  | some b =>
    rw [Option.some.injEq]
    constructor
    · rintro rfl
      exact h
    · exact fun ha => IsFirst.unique h ha

theorem eq_none_iff (h : Finds P found) : found = none ↔ ∀ place a, ¬ P place a := by
  cases found with
  | none => exact iff_of_true rfl h
  | some b =>
    obtain ⟨place, hb, -⟩ := h
    exact iff_of_false (by simp) fun hnone => hnone place b hb

theorem exists_iff (h : Finds P found) : (∃ a, found = some a) ↔ ∃ place a, P place a := by
  cases found with
  | none =>
    refine iff_of_false (by simp) ?_
    rintro ⟨place, a, ha⟩
    exact h place a ha
  | some b =>
    obtain ⟨place, hb, -⟩ := h
    exact iff_of_true ⟨b, rfl⟩ ⟨place, b, hb⟩

theorem congr (h : Finds P found) (hPQ : ∀ place a, P place a ↔ Q place a) : Finds Q found := by
  have heq : P = Q := funext fun place => funext fun a => propext (hPQ place a)
  exact heq ▸ h

/-- The same search, seen from one step above. -/
theorem above (h : Finds P found) (step : Step) :
    Finds (fun place a => ∃ rest, place = step :: rest ∧ P rest a) found := by
  cases found with
  | none =>
    rintro _ a ⟨rest, rfl, ha⟩
    exact h rest a ha
  | some a =>
    obtain ⟨place, ha, hfirst⟩ := h
    refine ⟨step :: place, ⟨place, rfl, ha⟩, ?_⟩
    rintro _ b ⟨rest, rfl, hb⟩
    rcases hfirst rest b hb with ⟨rfl, rfl⟩ | hbefore
    · exact .inl ⟨rfl, rfl⟩
    · exact .inr (.cons hbefore)

/-- One search after another one, in places that come after those of the first. -/
theorem orElse {found' : Option α} (h : Finds P found) (h' : Finds Q found')
    (hbefore : ∀ {p q a b}, P p a → Q q b → p.Before q) :
    Finds (fun place a => P place a ∨ Q place a) (found <|> found') := by
  cases found with
  | none => exact h'.congr fun place a => (or_iff_right (h place a)).symm
  | some a =>
    obtain ⟨place, ha, hfirst⟩ := h
    refine ⟨place, .inl ha, fun place' b hb => ?_⟩
    rcases hb with hb | hb
    · exact hfirst place' b hb
    · exact .inr (hbefore ha hb)

/-- Searches in the members of a list, whose places come in the order of the list. -/
theorem findSome? {items : List β} {find : β → Option α} {R : β → Place → α → Prop}
    (hfind : ∀ item ∈ items, Finds (R item) (find item))
    (hbefore : items.Pairwise fun c d => ∀ {p q a b}, R c p a → R d q b → p.Before q) :
    Finds (fun place a => ∃ item ∈ items, R item place a) (items.findSome? find) := by
  induction items with
  | nil =>
    rintro place a ⟨item, hitem, -⟩
    cases hitem
  | cons c items ih =>
    obtain ⟨hc, hitems⟩ := List.forall_mem_cons.mp hfind
    obtain ⟨hcitems, hrest⟩ := List.pairwise_cons.mp hbefore
    rw [findSome?_cons_eq_orElse]
    refine (hc.orElse (ih hitems hrest) ?_).congr fun place a => ?_
    · rintro p q a b ha ⟨d, hd, hb⟩
      exact hcitems d hd ha hb
    · rw [List.exists_mem_cons_iff]

/-- Searches in the members of a list, each one step down. -/
theorem findSome?_getElem (step : Nat → Step) {items : List β} {find : β → Option α}
    {R : β → Place → α → Prop} (hstep : ∀ {i j}, i < j → (step i).Before (step j))
    (hfind : ∀ item ∈ items, Finds (R item) (find item)) :
    Finds (fun place a => ∃ i item rest, items[i]? = some item ∧ place = step i :: rest ∧
      R item rest a) (items.findSome? find) := by
  have hitems : items.findSome? find = items.zipIdx.findSome? fun e => find e.1 := by
    conv_lhs => rw [← List.zipIdx_map_fst 0 items, List.findSome?_map]
    rfl
  have hordered : items.zipIdx.Pairwise fun d e => d.2 < e.2 := by
    have hindices := List.pairwise_lt_range' (s := 0) (n := items.length)
    rwa [← List.zipIdx_map_snd, List.pairwise_map] at hindices
  rw [hitems]
  refine (findSome? (fun e he => (hfind e.1 ?_).above (step e.2)) ?_).congr fun place a => ?_
  · exact List.fst_mem_of_mem_zipIdx he
  · refine hordered.imp fun {d e} hlt => ?_
    rintro _ _ a b ⟨p, rfl, -⟩ ⟨q, rfl, -⟩
    exact .rel (hstep hlt)
  · simp only [Prod.exists, List.mk_mem_zipIdx_iff_getElem?]
    constructor
    · rintro ⟨item, i, hi, rest, hplace, ha⟩
      exact ⟨i, item, rest, hi, hplace, ha⟩
    · rintro ⟨i, item, rest, hi, hplace, ha⟩
      exact ⟨item, i, hi, rest, hplace, ha⟩

end Finds

end Searches

/-- The filter at the place is a group of the logic, without conditions. -/
def EmptyGroupAt (At : Place → Filter → Prop) (place : Place) (logic : LogicOperator) : Prop :=
  At place (.group logic [])

/-! ## Filters -/

namespace Filter

theorem emptyGroupIn?_eq_findSome? (fs : List Filter) :
    emptyGroupIn? fs = fs.findSome? emptyGroup? := by
  induction fs with
  | nil => rfl
  | cons f fs ih => rw [emptyGroupIn?, ih, findSome?_cons_eq_orElse]

/-- The search goes on to the conditions, except in an empty group. -/
theorem emptyGroup?_eq_findSome? {f : Filter} (h : ¬ f.IsEmptyGroup) :
    f.emptyGroup? = f.conditions.findSome? emptyGroup? := by
  cases f with
  | group logic conditions =>
    rw [emptyGroup?, if_neg (mt List.isEmpty_iff.mp h), emptyGroupIn?_eq_findSome?]
    rfl
  | elemMatch => exact emptyGroupIn?_eq_findSome? _
  | _ => rfl

theorem at_iff {f g : Filter} {place : Place} : f.At place g ↔ (place = [] ∧ g = f) ∨
    ∃ i c rest, f.conditions[i]? = some c ∧ place = .condition i :: rest ∧ c.At rest g := by
  constructor
  · intro h
    cases h with
    | root => exact .inl ⟨rfl, rfl⟩
    | condition hc hg => exact .inr ⟨_, _, _, hc, rfl, hg⟩
  · rintro (⟨rfl, rfl⟩ | ⟨i, c, rest, hc, rfl, hg⟩)
    · exact .root _
    · exact .condition hc hg

/-- The search through a filter finds its first empty group. -/
theorem finds_emptyGroup (f : Filter) : Finds (EmptyGroupAt f.At) f.emptyGroup? := by
  induction f using conditionsInduction with
  | step f ih =>
    by_cases hempty : f.IsEmptyGroup
    · -- there is nothing below an empty group
      obtain ⟨logic, rfl⟩ : ∃ logic, f = .group logic [] := by
        cases f with
        | group logic conditions => exact ⟨logic, congrArg (group logic) hempty⟩
        | _ => exact hempty.elim
      refine ⟨[], .root _, fun place logic' h => .inl ?_⟩
      cases h with
      | root => exact ⟨rfl, rfl⟩
      | condition hc => cases hc
    · rw [emptyGroup?_eq_findSome? hempty]
      refine (Finds.findSome?_getElem .condition .condition ih).congr fun place logic => ?_
      rw [EmptyGroupAt, at_iff, or_iff_right]
      · rfl
      · rintro ⟨-, rfl⟩
        exact hempty rfl

end Filter

/-! ## Stages -/

namespace Stage

/-- The facets of the stage have different names and go by them. -/
def FacetsByName : Stage → Prop
  | .facet facets => facets.Pairwise fun f g => f.1 < g.1
  | _ => True

/-- Facets from a map go by name. -/
theorem facetsByName_ofFacets (facets : List (String × List Stage)) :
    (ofFacets facets).FacetsByName :=
  (OrderedMap.ofList facets).ordered

theorem emptyGroupIn?_eq_findSome? (stages : List Stage) :
    emptyGroupIn? stages = stages.findSome? emptyGroup? := by
  induction stages with
  | nil => rfl
  | cons s rest ih => rw [emptyGroupIn?, ih, findSome?_cons_eq_orElse]

theorem emptyGroupInFacets?_eq_findSome? (facets : List (String × List Stage)) :
    emptyGroupInFacets? facets = facets.findSome? fun f => f.2.findSome? emptyGroup? := by
  induction facets with
  | nil => rfl
  | cons f rest ih =>
    rw [emptyGroupInFacets?, emptyGroupIn?_eq_findSome?, ih, findSome?_cons_eq_orElse]

/-- The search through a stage, at any depth, finds its first empty group. -/
theorem finds_emptyGroup (s : Stage) (hfacets : ∀ t ∈ s.nodes, t.FacetsByName) :
    Finds (EmptyGroupAt s.At) s.emptyGroup? := by
  induction s using innerInduction with
  | step s ih =>
    rw [nodes_eq, List.forall_mem_cons] at hfacets
    obtain ⟨hs, hinner⟩ := hfacets
    have hfinds : ∀ t ∈ s.inner, Finds (EmptyGroupAt t.At) t.emptyGroup? := fun t ht =>
      ih t ht fun u hu => hinner u (List.mem_flatMap.mpr ⟨t, ht, hu⟩)
    cases s with
    | filter f =>
      refine (f.finds_emptyGroup.above .filter).congr fun place logic => ⟨?_, fun h => ?_⟩
      · rintro ⟨rest, rfl, h⟩
        exact .filter h
      · cases h with
        | filter h => exact ⟨_, rfl, h⟩
    | lookup source localField foreignField output pipeline bindings =>
      rw [emptyGroup?, emptyGroupIn?_eq_findSome?]
      refine (Finds.findSome?_getElem .stage .stage hfinds).congr
        fun place logic => ⟨?_, fun h => ?_⟩
      · rintro ⟨i, t, rest, ht, rfl, h⟩
        exact .lookup ht h
      · cases h with
        | lookup ht h => exact ⟨_, _, _, ht, rfl, h⟩
    | facet facets =>
      have hfacet : ∀ f ∈ facets, ∀ t ∈ f.2, Finds (EmptyGroupAt t.At) t.emptyGroup? :=
        fun f hf t ht => hfinds t (List.mem_flatMap.mpr ⟨f, hf, ht⟩)
      rw [emptyGroup?, emptyGroupInFacets?_eq_findSome?]
      refine (Finds.findSome? (fun f hf => Finds.findSome?_getElem (.facet f.1) .insideFacet
        (hfacet f hf)) ?_).congr fun place logic => ⟨?_, fun h => ?_⟩
      · refine hs.imp fun {f g} hlt => ?_
        rintro _ _ a b ⟨i, t, p, -, rfl, -⟩ ⟨j, u, q, -, rfl, -⟩
        exact .rel (.facet hlt)
      · rintro ⟨f, hf, i, t, rest, ht, rfl, h⟩
        exact .facet hf ht h
      · cases h with
        | facet hf ht h => exact ⟨_, hf, _, _, _, ht, rfl, h⟩
    | _ =>
      intro place logic h
      cases h

end Stage

/-! ## Queries -/

namespace Query

variable {q : Query}

/-- The search through a query finds its first empty group: first in its filter, then stage by
stage, with facets by name. -/
theorem finds_emptyGroup (hfacets : ∀ s ∈ Stage.nodesIn q.pipeline, s.FacetsByName) :
    Finds (EmptyGroupAt q.At) q.emptyGroup? := by
  have hfilter : Finds (fun place logic => ∃ f ∈ q.filter, ∃ rest, place = .filter :: rest ∧
      EmptyGroupAt f.At rest logic) (q.filter.bind Filter.emptyGroup?) := by
    cases q.filter with
    | none =>
      rintro place logic ⟨f, hf, -⟩
      cases hf
    | some f => exact (f.finds_emptyGroup.above .filter).congr (by simp)
  have hstages : ∀ s ∈ q.pipeline, Finds (EmptyGroupAt s.At) s.emptyGroup? := fun s hs =>
    s.finds_emptyGroup fun t ht => hfacets t <| by
      rw [Stage.nodesIn_eq_flatMap]
      exact List.mem_flatMap.mpr ⟨s, hs, ht⟩
  rw [emptyGroup?, Stage.emptyGroupIn?_eq_findSome?]
  refine (hfilter.orElse (Finds.findSome?_getElem .stage .stage hstages) ?_).congr
    fun place logic => ⟨?_, fun h => ?_⟩
  · rintro _ _ a b ⟨f, -, p, rfl, -⟩ ⟨i, s, r, -, rfl, -⟩
    exact .rel .filter
  · rintro (⟨f, hf, rest, rfl, h⟩ | ⟨i, s, rest, hs, rfl, h⟩)
    · exact .filter hf h
    · exact .stage hs h
  · cases h with
    | filter hf h => exact .inl ⟨_, hf, _, rfl, h⟩
    | stage hs h => exact .inr ⟨_, _, _, hs, rfl, h⟩

/-! ## Validation -/

/-- The query passes all that validation asks of a find before it looks at the depth of its
filter. The target is not among it, since a collection always has a name. -/
structure ReachesDepth (q : Query) : Prop where
  operation : q.operation = .find ∨ q.operation = .findOne
  groups : ∀ place logic, ¬ EmptyGroupAt q.At place logic
  limit : ∀ n, q.limit = some (.fixed n) → n ≤ maxLimit
  projection : ∀ p, q.projection = some p → p.fields.length ≤ maxProjectionFields
  sort : q.sort.length ≤ maxSortFields

/-- Empty groups are looked for before the operation is looked at. -/
theorem validate_eq_emptyGroup_iff {logic : LogicOperator} :
    q.validate = .error (.emptyGroup logic) ↔ q.emptyGroup? = some logic :=
  ⟨has_of_validate, fun h =>
    validate_eq_error_iff.mpr (.inr ⟨q.target.isEmpty_name, .inl ⟨logic, h, rfl⟩⟩)⟩

theorem validateFind_eq_filterTooDeep_iff {depth : Nat} :
    q.validateFind = .error (.filterTooDeep depth) ↔
      (∀ n, q.limit = some (.fixed n) → n ≤ maxLimit) ∧
      (∀ p, q.projection = some p → p.fields.length ≤ maxProjectionFields) ∧
      q.sort.length ≤ maxSortFields ∧
      ∃ f, q.filter = some f ∧ maxFilterDepth < f.nesting ∧ depth = f.nesting := by
  unfold validateFind
  rcases q.limit with _ | n | p <;> cases q.projection <;> cases q.filter <;>
    simp [bind_eq_error_iff, require_eq_error_iff, exists_require_iff]

/-- No operation but a find asks how deep the filter is. -/
theorem validateOperation_eq_filterTooDeep_iff {depth : Nat} :
    q.validateOperation = .error (.filterTooDeep depth) ↔
      (q.operation = .find ∨ q.operation = .findOne) ∧
        q.validateFind = .error (.filterTooDeep depth) := by
  constructor
  · intro h
    have hop : q.operation = .find ∨ q.operation = .findOne := by
      unfold validateOperation at h
      cases hop : q.operation with
      | find => exact .inl rfl
      | findOne => exact .inr rfl
      | _ =>
        simp [hop, requireUpdates, requireFilter, bind_eq_error_iff, require_eq_error_iff] at h
    exact ⟨hop, validateOperation_of_find hop ▸ h⟩
  · rintro ⟨hop, h⟩
    rw [validateOperation_of_find hop, h]

theorem validate_eq_filterTooDeep_iff (hfacets : ∀ s ∈ Stage.nodesIn q.pipeline, s.FacetsByName)
    {depth : Nat} : q.validate = .error (.filterTooDeep depth) ↔
      q.ReachesDepth ∧ ∃ f, q.filter = some f ∧ maxFilterDepth < f.nesting ∧ depth = f.nesting := by
  have hgroups := (finds_emptyGroup hfacets).eq_none_iff
  have hvalidate : q.validate = .error (.filterTooDeep depth) ↔
      q.emptyGroup? = none ∧ q.validateOperation = .error (.filterTooDeep depth) := by
    simp [validate_eq_error_iff, q.target.isEmpty_name]
  rw [hvalidate, hgroups, validateOperation_eq_filterTooDeep_iff, validateFind_eq_filterTooDeep_iff]
  constructor
  · rintro ⟨hnone, hop, hlimit, hprojection, hsort, hdeep⟩
    exact ⟨⟨hop, hnone, hlimit, hprojection, hsort⟩, hdeep⟩
  · rintro ⟨⟨hop, hnone, hlimit, hprojection, hsort⟩, hdeep⟩
    exact ⟨hnone, hop, hlimit, hprojection, hsort, hdeep⟩

/-- The nesting of a filter is the depth of its deepest node, and the search for an empty group
finds the first one in the filter, or nothing if there is none. Validation reports an empty group
exactly if there is one in the filter of the query or in that of a stage at any depth, with the
logic of the first one: that of the filter comes before those of the stages, and facets come by
name. It reports the depth of a filter exactly for a find that passes all other demands and whose
deepest node lies more than 10 steps below the root. A stage holds its facets as a list, so their
order is a hypothesis; facets from a map have it (`Stage.facetsByName_ofFacets`). -/
theorem verdicts_exact (hfacets : ∀ s ∈ Stage.nodesIn q.pipeline, s.FacetsByName) :
    (∀ f : Filter, IsGreatest f.depths f.nesting ∧
      (∀ logic, f.emptyGroup? = some logic ↔ IsFirst (EmptyGroupAt f.At) logic) ∧
      (f.emptyGroup? = none ↔ ∀ place logic, ¬ EmptyGroupAt f.At place logic)) ∧
    (∀ logic, q.validate = .error (.emptyGroup logic) ↔ IsFirst (EmptyGroupAt q.At) logic) ∧
    ((∃ logic, q.validate = .error (.emptyGroup logic)) ↔
      ∃ place logic, EmptyGroupAt q.At place logic) ∧
    ∀ depth, q.validate = .error (.filterTooDeep depth) ↔
      q.ReachesDepth ∧ ∃ f, q.filter = some f ∧ IsGreatest f.depths depth ∧ 10 < depth := by
  have hfinds := finds_emptyGroup hfacets
  refine ⟨fun f => ⟨f.isGreatest_nesting, fun logic => f.finds_emptyGroup.eq_some_iff,
    f.finds_emptyGroup.eq_none_iff⟩, fun logic => ?_, ?_, fun depth => ?_⟩
  · rw [validate_eq_emptyGroup_iff, hfinds.eq_some_iff]
  · simp only [validate_eq_emptyGroup_iff, hfinds.exists_iff]
  · rw [validate_eq_filterTooDeep_iff hfacets]
    refine and_congr_right fun _ => exists_congr fun f => and_congr_right fun _ => ?_
    constructor
    · rintro ⟨hlt, rfl⟩
      exact ⟨f.isGreatest_nesting, hlt⟩
    · rintro ⟨hdepth, hlt⟩
      obtain rfl := hdepth.unique f.isGreatest_nesting
      exact ⟨hlt, rfl⟩

/-- Facets that are not given by name. The first one by name looks for scores that pass a group
without conditions, in the documents that a look-up finds; so does the other one for users. -/
def vacantFacets : Query :=
  { Query.start .aggregate Users.collection with
    pipeline := [.limit (.fixed 5), .ofFacets
      [("recent", [.filter (.group .or [])]),
       ("best", [.lookup Users.collection Users.name Users.name "found"
          [.filter (.elemMatch Users.scores [.presence Users.name true, .group .nor []])] ∅])]] }

/-- Users of an age who have an email address, asked for eleven times over. -/
def insistentFind : Query :=
  { Query.start .find Users.collection with
    filter := some (Filter.conjunction (.condition Users.age .gte Users.least)
      (List.replicate 11 (.presence Users.email true))) }

theorem verdicts_exact_vacantFacets :
    (∀ s ∈ Stage.nodesIn vacantFacets.pipeline, s.FacetsByName) ∧
    vacantFacets.validate = .error (.emptyGroup .nor) ∧
    IsFirst (EmptyGroupAt vacantFacets.At) .nor ∧
    insistentFind.validate = .error (.filterTooDeep 11) ∧ insistentFind.ReachesDepth ∧
    ∃ f, insistentFind.filter = some f ∧ IsGreatest f.depths 11 := by
  have hvacant : vacantFacets.validate = .error (.emptyGroup .nor) := rfl
  have hinsistent : insistentFind.validate = .error (.filterTooDeep 11) := rfl
  have hbyName : ∀ s ∈ Stage.nodesIn vacantFacets.pipeline, s.FacetsByName := by
    refine List.forall_mem_cons.mpr ⟨trivial, List.forall_mem_cons.mpr
      ⟨Stage.facetsByName_ofFacets _, ?_⟩⟩
    -- inside the facets there are a look-up and two filters
    refine List.forall_mem_cons.mpr ⟨trivial, List.forall_mem_cons.mpr ⟨trivial, ?_⟩⟩
    exact List.forall_mem_cons.mpr ⟨trivial, List.forall_mem_nil _⟩
  have hnone : ∀ s ∈ Stage.nodesIn insistentFind.pipeline, s.FacetsByName := by
    intro s hs
    cases hs
  obtain ⟨-, hgroup, -, -⟩ := verdicts_exact hbyName
  obtain ⟨-, -, -, hdepth⟩ := verdicts_exact hnone
  obtain ⟨hreaches, f, hf, hdeepest, -⟩ := (hdepth 11).mp hinsistent
  exact ⟨hbyName, hvacant, (hgroup .nor).mp hvacant, hinsistent, hreaches, f, hf, hdeepest⟩

end Query

end DocumentQuery

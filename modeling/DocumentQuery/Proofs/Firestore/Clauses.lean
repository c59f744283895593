import DocumentQuery.Dialect.Firestore
import DocumentQuery.Proofs.FilterFormula
import DocumentQuery.Proofs.Steps
/-!
# What lists of clauses test

A list of clauses is read back clause by clause. The clauses of a filter test
what its leaves test, in the same order (`testsOf_renderWhere`). How a filter
combines its leaves is not in the list.

Main definitions:
* `testsOf`: the tests that a list of clauses makes.
-/
namespace DocumentQuery.Firestore

open Render (gives_bind gives_pure)

/-! ## Reading clauses -/

/-- The test with a sign. -/
def ofSign? (sign : String) : Option FilterOperator :=
  (Vocabulary.all : List FilterOperator).find? fun op => whereSign? op == some sign

/-- The test that a clause makes. -/
def testOf? : Json → Option Atom
  | .obj es =>
    match Entries.get? "field" es, Entries.get? "operator" es, Entries.get? "value" es with
    | some (.str path), some (.str sign), some (.str value) => do
      let op ← ofSign? sign
      let p ← Param.ofPlaceholder? value
      pure (.test path op p none)
    | _, _, _ => none
  | _ => none

/-- The tests that a list of clauses makes, from left to right. -/
def testsOf : Json → List Atom
  | .arr clauses => clauses.filterMap testOf?
  | _ => []

theorem ofSign?_of_whereSign? {op : FilterOperator} {sign : String}
    (h : whereSign? op = some sign) : ofSign? sign = some op := by
  cases op <;> cases h <;> decide

/-! ## The clauses of a filter -/

/-- The clause makes the test. -/
def Clause.Makes (c : Clause) (a : Atom) : Prop :=
  ∃ op, whereSign? op = some c.sign ∧ a = .test c.field.path op c.value none

theorem clause_makes {field : Field} {op : FilterOperator} {value : Param} {cs : List Clause}
    (h : clause field op value = .ok cs) :
    List.Forall₂ Clause.Makes cs [.test field.path op value none] := by
  unfold clause at h
  cases hsign : whereSign? op with
  | none =>
    rw [hsign] at h
    cases h
  | some sign =>
    rw [hsign] at h
    cases h
    exact .cons ⟨op, hsign, rfl⟩ .nil

theorem rangeClauses_makes {r : RangeFilter} {cs : List Clause} (h : rangeClauses r = .ok cs) :
    List.Forall₂ Clause.Makes cs
      (r.bounds.map fun b => .test r.field.path b.1 b.2 none) := by
  unfold rangeClauses at h
  generalize r.bounds = bounds at h
  induction bounds generalizing cs with
  | nil =>
    cases h
    exact .nil
  | cons b bounds ih =>
    obtain ⟨c, hc, rest, hrest, rfl⟩ : ∃ c, clause r.field b.1 b.2 = .ok c ∧
        ∃ rest, _ = Except.ok rest ∧ cs = c ++ rest := by
      simpa only [List.foldr_cons, bind_eq_ok_iff, pure_eq_ok_iff] using h
    exact List.rel_append (clause_makes hc) (ih hrest)

mutual

/-- The clauses of a filter make the tests of its leaves, in order. -/
theorem clauses_make : ∀ (f : Filter) {cs : List Clause}, clauses f = .ok cs →
    List.Forall₂ Clause.Makes cs f.formula.atoms
  | .condition field op value, _, h => clause_makes h
  | .array field op value, _, h => clause_makes h
  | .group logic conditions, _, h => by
    rw [Filter.formula, Filter.atoms_combine]
    cases logic with
    | and | not => exact clausesOfAll_make conditions h
    | or | nor => cases h
  | .range r, _, h => by
    rw [Filter.atoms_range]
    exact rangeClauses_makes h
  | .regex .., _, h | .textSearch _, _, h | .geo _, _, h | .elemMatch .., _, h
  | .presence .., _, h => by
    cases h

theorem clausesOfAll_make : ∀ (fs : List Filter) {cs : List Clause}, clausesOfAll fs = .ok cs →
    List.Forall₂ Clause.Makes cs ((Filter.formulas fs).flatMap Formula.atoms)
  | [], _, h => by
    cases h
    exact .nil
  | f :: fs, _, h => by
    rw [clausesOfAll] at h
    simp only [bind_eq_ok_iff, pure_eq_ok_iff] at h
    obtain ⟨cs, hcs, rest, hrest, rfl⟩ := h
    rw [Filter.formulas, List.flatMap_cons]
    exact List.rel_append (clauses_make f hcs) (clausesOfAll_make fs hrest)

end

/-! ## Rendered lists -/

/-- The object of a clause. -/
def Clause.object (c : Clause) : Json :=
  .obj [("field", .str c.field.path), ("operator", .str c.sign),
    ("value", .str c.value.placeholder)]

theorem renderWhere_gives {f : Filter} {v : Json} {ps : List Param} :
    (renderWhere f).Gives v ps ↔ ∃ cs, clauses f = .ok cs ∧ v = .arr (cs.map Clause.object) ∧
      ps = cs.map Clause.value := by
  have hclause : ∀ c : Clause, (renderClause c).Gives c.object [c.value] := by
    intro c
    simp [renderClause, Clause.object]
  have hvalues : ∀ cs : List Clause, cs.flatMap (fun c => [c.value]) = cs.map Clause.value :=
    fun cs => List.flatMap_pure_eq_map ..
  simp only [renderWhere, gives_bind, gives_pure, Render.gives_ofExcept,
    Render.gives_each_of_forall hclause, hvalues]
  constructor
  · intro h
    obtain ⟨cs, _, _, ⟨hcs, rfl⟩, ⟨_, _, _, ⟨rfl, rfl⟩, ⟨rfl, rfl⟩, rfl⟩, rfl⟩ := h
    exact ⟨cs, hcs, rfl, by simp⟩
  · intro h
    obtain ⟨cs, hcs, rfl, rfl⟩ := h
    exact ⟨cs, [], _, ⟨hcs, rfl⟩, ⟨_, _, [], ⟨rfl, rfl⟩, ⟨rfl, rfl⟩, rfl⟩, by simp⟩

theorem testOf?_object {c : Clause} {a : Atom} (h : c.Makes a) : testOf? c.object = some a := by
  obtain ⟨op, hsign, rfl⟩ := h
  simp [testOf?, Clause.object, Entries.get?, ofSign?_of_whereSign? hsign]

theorem filterMap_testOf? {cs : List Clause} {as : List Atom}
    (h : List.Forall₂ Clause.Makes cs as) : (cs.map Clause.object).filterMap testOf? = as := by
  induction h with
  | nil => rfl
  | cons h _ ih => rw [List.map_cons, List.filterMap_cons_some (testOf?_object h), ih]

/-- The rendered list makes the tests of the filter's leaves, in order. -/
theorem testsOf_renderWhere {f : Filter} {v : Json} {ps : List Param}
    (h : (renderWhere f).Gives v ps) : testsOf v = f.formula.atoms := by
  obtain ⟨cs, hcs, rfl, -⟩ := renderWhere_gives.mp h
  exact filterMap_testOf? (clauses_make f hcs)

end DocumentQuery.Firestore

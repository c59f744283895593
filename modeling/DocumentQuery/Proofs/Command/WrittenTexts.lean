import DocumentQuery.Command.Run
import DocumentQuery.Proofs.Schema.References
/-!
# Written filters and sorts

On the command line a filter is written as `path:op:param`, with two colons that
split it and an operator that may lack its `$`, and a sort as a path, with a dash in
front to turn it round.

Main definitions:
* `Asked`: what a written filter asks for, and `Catalog.Asks`: the texts that ask
  for it in a collection.
* `Asked.Is`: the condition that is asked for.

Results:
* `splitCondition?_eq_some_iff`: how a filter is split.
* `readToken_eq_ok_iff`: which texts name an operator.
* `Catalog.Asks.unique`: a text asks for at most one condition.
* `conditionOf_eq_ok_iff`, `sortOf_eq_ok_iff`: what a written filter and a written
  sort are read as.
-/
namespace DocumentQuery

/-! ## Splitting -/

theorem splitColon?_cons (c : Char) (cs : List Char) :
    splitColon? (c :: cs) =
      if c = ':' then some ([], cs) else (splitColon? cs).map fun p => (c :: p.1, p.2) := by
  simp only [splitColon?, List.span_eq_takeWhile_dropWhile, List.takeWhile_cons,
    List.dropWhile_cons]
  by_cases hc : c = ':'
  · simp [hc]
  · simp only [bne_iff_ne, ne_eq, hc, not_false_eq_true, if_true, if_false]
    cases cs.dropWhile (· != ':') <;> rfl

/-- A text is split at its first colon. -/
theorem splitColon?_eq_some_iff {cs before after : List Char} :
    splitColon? cs = some (before, after) ↔ cs = before ++ ':' :: after ∧ ':' ∉ before := by
  induction cs generalizing before with
  | nil => simp [splitColon?, List.span_eq_takeWhile_dropWhile]
  | cons c cs ih =>
    rw [splitColon?_cons]
    by_cases hc : c = ':'
    · subst hc
      cases before with
      | nil => simp
      | cons d before =>
        refine iff_of_false (fun h => by simp at h) (fun h => ?_)
        obtain ⟨hcs, hbefore⟩ := h
        injection hcs with hd
        exact hbefore (hd ▸ List.mem_cons_self)
    · cases before with
      | nil => simp [hc]
      | cons d before =>
        have hsplit : splitColon? cs = some (before, after) ↔
            cs = before ++ ':' :: after ∧ ':' ∉ before := ih
        simp only [hc, if_false, Option.map_eq_some_iff, Prod.exists, Prod.mk.injEq,
          List.cons.injEq, List.cons_append, List.mem_cons, not_or]
        constructor
        · intro h
          obtain ⟨_, _, hcs, ⟨rfl, rfl⟩, rfl⟩ := h
          obtain ⟨rfl, hbefore⟩ := hsplit.mp hcs
          exact ⟨⟨rfl, rfl⟩, Ne.symm hc, hbefore⟩
        · intro h
          obtain ⟨⟨rfl, hcs⟩, -, hbefore⟩ := h
          exact ⟨before, after, hsplit.mpr ⟨hcs, hbefore⟩, ⟨rfl, rfl⟩, rfl⟩

/-- A written filter is split at its first two colons. -/
theorem splitCondition?_eq_some_iff {text path op param : String} :
    splitCondition? text = some (path, op, param) ↔
      text = path ++ ":" ++ op ++ ":" ++ param ∧ ':' ∉ path.toList ∧ ':' ∉ op.toList := by
  have htext : ∀ before middle after : List Char,
      text = String.ofList before ++ ":" ++ String.ofList middle ++ ":" ++ String.ofList after ↔
        text.toList = before ++ ':' :: (middle ++ ':' :: after) := by
    intro before middle after
    rw [← String.toList_inj]
    simp
  simp only [splitCondition?, Option.bind_eq_bind, Option.bind_eq_some_iff, Prod.exists,
    splitColon?_eq_some_iff, Option.pure_def, Option.some.injEq, Prod.mk.injEq]
  constructor
  · intro h
    obtain ⟨before, _, ⟨hfirst, hbefore⟩, middle, after, ⟨rfl, hmiddle⟩, rfl, rfl, rfl⟩ := h
    exact ⟨(htext ..).mpr hfirst, by simpa using hbefore, by simpa using hmiddle⟩
  · intro h
    obtain ⟨rfl, hpath, hop⟩ := h
    refine ⟨path.toList, op.toList ++ ':' :: param.toList, ⟨by simp, hpath⟩, op.toList,
      param.toList, ⟨rfl, hop⟩, by simp, by simp, by simp⟩

/-! ## Operators -/

/-- A token is read as the word that is written by it, whatever the case. -/
theorem readToken_eq_ok_iff {α : Type} [Vocabulary α] {a : α} {s : String} :
    readToken s = .ok a ↔ sameLetters (Vocabulary.token a) s = true := by
  rw [← Vocabulary.find?_eq_some_iff, readToken]
  cases (Vocabulary.find? s : Option α) <;> simp

/-! ## What is asked for -/

theorem liftError_eq_ok_iff {α : Type} {x : Except Error α} {a : α} :
    liftError x = .ok a ↔ x = .ok a := by
  cases x with
  | error e => exact iff_of_false (fun h => by cases h) (fun h => by cases h)
  | ok b => exact Iff.intro (fun h => by cases h; rfl) (fun h => by cases h; rfl)

theorem Param.ofName_eq_ok_iff {name : String} {p : Param} :
    Param.ofName name = .ok p ↔ p.name = name := by
  unfold Param.ofName
  constructor
  · intro h
    split at h
    · cases h
      rfl
    · cases h
  · rintro rfl
    have hvalid : Identifier.fault? p.name = none := p.valid
    split
    · rfl
    · rename_i fault hfault
      cases hvalid.symm.trans hfault

/-- What a written filter asks for. -/
@[ext]
structure Asked where
  path : String
  operator : FilterOperator
  param : String

/-- The filter is the condition on the collection that is asked for. -/
def Asked.Is (a : Asked) (collection : String) (f : Filter) : Prop :=
  ∃ field value, f = .condition field a.operator value ∧ field.collection = collection ∧
    field.path = a.path ∧ value.name = a.param

/-- The text asks for a condition on a path that the catalog lists for the collection. -/
structure Catalog.Asks (c : Catalog) (collection text : String) (a : Asked) : Prop where
  written : ∃ op, text = a.path ++ ":" ++ op ++ ":" ++ a.param ∧ ':' ∉ a.path.toList ∧
    ':' ∉ op.toList ∧ sameLetters a.operator.token (operatorToken op) = true
  listed : a.path ∈ c.fieldPaths collection
  named : Identifier.Valid a.param

variable {c : Catalog} {collection text : String}

theorem splitCondition?_of_asks {a : Asked} (h : c.Asks collection text a) :
    ∃ op, splitCondition? text = some (a.path, op, a.param) ∧
      sameLetters a.operator.token (operatorToken op) = true := by
  obtain ⟨op, htext, hpath, hop, hsame⟩ := h.written
  exact ⟨op, splitCondition?_eq_some_iff.mpr ⟨htext, hpath, hop⟩, hsame⟩

/-- A text asks for at most one condition. -/
theorem Catalog.Asks.unique {a b : Asked} (ha : c.Asks collection text a)
    (hb : c.Asks collection text b) : a = b := by
  obtain ⟨op, hsplit, hsame⟩ := splitCondition?_of_asks ha
  obtain ⟨op', hsplit', hsame'⟩ := splitCondition?_of_asks hb
  obtain ⟨hpath, rfl, hparam⟩ : a.path = b.path ∧ op = op' ∧ a.param = b.param := by
    simpa using hsplit.symm.trans hsplit'
  exact Asked.ext hpath (Vocabulary.eq_of_sameLetters hsame hsame') hparam

/-- A written filter is read as the condition that it asks for. -/
theorem conditionOf_eq_ok_iff {f : Filter} : conditionOf c collection text = .ok f ↔
    collection ∈ c.collectionNames ∧ ∃ a, c.Asks collection text a ∧ a.Is collection f := by
  unfold conditionOf
  cases hsplit : splitCondition? text with
  | none =>
    refine iff_of_false (fun h => by cases h) (fun h => ?_)
    obtain ⟨-, a, hasks, -⟩ := h
    obtain ⟨op, hop, -⟩ := splitCondition?_of_asks hasks
    cases hsplit.symm.trans hop
  | some parts =>
    obtain ⟨path, op, param⟩ := parts
    simp only [bind_eq_ok_iff, liftError_eq_ok_iff, readToken_eq_ok_iff,
      Catalog.field_eq_ok_iff, Param.ofName_eq_ok_iff, pure_eq_ok_iff]
    constructor
    · intro h
      obtain ⟨operator, hoperator, field, ⟨hcollection, hpath, hmem, hlisted⟩, value, hvalue, rfl⟩ := h
      obtain ⟨htext, hpath', hop⟩ := splitCondition?_eq_some_iff.mp hsplit
      exact ⟨hmem, ⟨path, operator, param⟩, ⟨⟨op, htext, hpath', hop, hoperator⟩, hlisted,
        hvalue ▸ value.valid⟩, field, value, rfl, hcollection, hpath, hvalue⟩
    · intro h
      obtain ⟨hmem, a, hasks, field, value, rfl, hcollection, hpath, hvalue⟩ := h
      obtain ⟨op', hsplit', hsame⟩ := splitCondition?_of_asks hasks
      cases hsplit.symm.trans hsplit'
      exact ⟨a.operator, hsame, field, ⟨hcollection, hpath, hmem, hasks.listed⟩, value, hvalue, rfl⟩

/-- In the catalog of a schema there is a condition for whatever is asked for. -/
theorem Catalog.Asks.exists_filter {s : Schema} {a : Asked} (hc : Catalog.ofSchema s = .ok c)
    (hmem : collection ∈ c.collectionNames) (h : c.Asks collection text a) :
    ∃ f, a.Is collection f :=
  ⟨_, ⟨a.path, collection, Catalog.valid_of_mem_fieldPaths hc h.listed,
    Catalog.valid_of_mem_collectionNames hc hmem⟩, ⟨a.param, h.named⟩, rfl, rfl, rfl, rfl⟩

/-! ## Sorts -/

theorem splitSort_dash (path : String) : splitSort ("-" ++ path) = (path, .descending) := by
  have htext : ("-" ++ path).toList = '-' :: path.toList := by simp
  simp [splitSort, htext]

theorem splitSort_of_valid {path : String} (h : FieldPath.Valid path) :
    splitSort path = (path, .ascending) := by
  unfold splitSort
  split
  · next cs hcs => cases h.starts hcs
  · rfl

/-- The call that sorts by a clause. -/
def SortClause.call (s : SortClause) : Call := .sort s.field s.order

/-- The text is a path that the catalog lists for the collection, with or without a dash. -/
def Catalog.Sorts (c : Catalog) (collection text : String) : Prop :=
  ∃ path ∈ c.fieldPaths collection, text = path ∨ text = "-" ++ path

theorem sortOf_eq_ok_iff {call : Call} : sortOf c collection text = .ok call ↔
    collection ∈ c.collectionNames ∧ (splitSort text).1 ∈ c.fieldPaths collection ∧
      ∃ clause : SortClause, call = clause.call ∧ clause.field.collection = collection ∧
        (clause.field.path, clause.order) = splitSort text := by
  unfold sortOf
  obtain ⟨path, order⟩ := splitSort text
  simp only [bind_eq_ok_iff, liftError_eq_ok_iff, Catalog.field_eq_ok_iff, pure_eq_ok_iff,
    Prod.mk.injEq]
  constructor
  · intro h
    obtain ⟨field, ⟨hcollection, hpath, hmem, hlisted⟩, rfl⟩ := h
    exact ⟨hmem, hlisted, ⟨field, order⟩, rfl, hcollection, hpath, rfl⟩
  · intro h
    obtain ⟨hmem, hlisted, clause, rfl, hcollection, hpath, rfl⟩ := h
    exact ⟨clause.field, ⟨hcollection, hpath, hmem, hlisted⟩, rfl⟩

/-- In the catalog of a schema no listed path starts with a dash, so a written sort says whether
one is meant. -/
theorem exists_sortOf_iff {s : Schema} (hc : Catalog.ofSchema s = .ok c)
    (hmem : collection ∈ c.collectionNames) :
    (∃ call, sortOf c collection text = .ok call) ↔ c.Sorts collection text := by
  have hlisted : (∃ call, sortOf c collection text = .ok call) ↔
      (splitSort text).1 ∈ c.fieldPaths collection := by
    simp only [sortOf_eq_ok_iff]
    constructor
    · intro h
      obtain ⟨call, -, hpath, -⟩ := h
      exact hpath
    · intro hpath
      exact ⟨_, hmem, hpath, ⟨⟨(splitSort text).1, collection,
        Catalog.valid_of_mem_fieldPaths hc hpath,
        Catalog.valid_of_mem_collectionNames hc hmem⟩, (splitSort text).2⟩, rfl, rfl, rfl⟩
  rw [hlisted]
  constructor
  · intro hpath
    refine ⟨_, hpath, ?_⟩
    unfold splitSort
    split
    · next path htext =>
      refine .inr ?_
      rw [← String.toList_inj, htext]
      simp
    · exact .inl rfl
  · rintro ⟨path, hpath, rfl | rfl⟩
    · rwa [splitSort_of_valid (Catalog.valid_of_mem_fieldPaths hc hpath)]
    · rwa [splitSort_dash]

end DocumentQuery

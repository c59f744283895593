import DocumentQuery.Proofs.WrittenParts
/-!
# What firestore writes

A filter is written as clauses and an update as assignments. Their paths and
parameters are those of the query, and their signs are those of the dialect.

Results:
* `writes_parts`: what a query writes below its header.
-/
namespace DocumentQuery.Firestore

open Render (gives_map)

variable {whole : Prop} {q : Query} {v : Json} {es : Entries} {ps : List Param}

/-! ## Fixed words -/

theorem sign_mem_words {op : FilterOperator} {sign : String} (h : whereSign? op = some sign) :
    sign ∈ Dialect.firestore.words := by
  have hmem : sign ∈ (Vocabulary.all : List FilterOperator).filterMap whereSign? :=
    List.mem_filterMap.mpr ⟨op, Vocabulary.mem_all op, h⟩
  exact List.mem_append_right _ (by simp [Dialect.tokens, hmem])

theorem word_mem_words (order : SortOrder) : order.word ∈ Dialect.firestore.words := by
  cases order <;> decide +kernel

theorem token_mem_words {operation : Operation}
    (h : Dialect.firestore.supportsOperation operation = true) :
    operation.token ∈ Dialect.firestore.words := by
  have hmem : operation.token ∈ Dialect.tokensWhere Dialect.firestore.supportsOperation :=
    Dialect.token_mem_tokensWhere h
  exact List.mem_append_right _ (by simp [Dialect.tokens, hmem])

/-! ## Clauses -/

theorem writes_clause {c : Clause} {a : Atom} (h : c.Makes a) :
    Writes .firestore whole c.object [c.value] := by
  obtain ⟨op, hsign, -⟩ := h
  exact .obj_cons (.frame (by decide)) (.path c.field.path_valid) <|
    .obj_cons (.frame (by decide)) (.word (sign_mem_words hsign)) <|
    .single (.frame (by decide)) (.placeholder c.value)

theorem writes_where (f : Filter) (v : Json) (ps : List Param) (h : (renderWhere f).Gives v ps) :
    Writes .firestore whole v ps := by
  obtain ⟨cs, hcs, rfl, rfl⟩ := renderWhere_gives.mp h
  have hmakes := clauses_make f hcs
  clear h hcs
  generalize f.formula.atoms = as at hmakes
  induction hmakes with
  | nil => exact .arr_nil
  | cons hc _ ih => exact (writes_clause hc).arr_cons ih

theorem writes_whereEntries (h : (whereEntries q).Gives es ps) :
    Writes .firestore whole (.obj es) ps := by
  obtain ⟨list, hlist, rfl⟩ := whereEntries_gives.mp h
  exact .obj_optional (.frame (by decide)) writes_where hlist

/-! ## Assignments -/

theorem valid_of_assignments {cs : List (UpdateOperator × String × Option Param)}
    {list : List (String × Assignment)} (hcs : ∀ c ∈ cs, FieldPath.Valid c.2.1)
    (h : assignments [] cs = .ok list) : ∀ a ∈ list, FieldPath.Valid a.1 := by
  have hmake := assignments_make h
  clear h
  induction hmake with
  | nil => simp
  | cons ha _ ih =>
    obtain ⟨hc, hcs⟩ := List.forall_mem_cons.mp hcs
    exact List.forall_mem_cons.mpr ⟨ha.1 ▸ hc, ih hcs⟩

theorem writes_assigned (o : Option Param) :
    Writes .firestore whole ((o.map fun p => .str p.placeholder).getD (.str removal)) o.toList := by
  cases o with
  | none => exact .word (by decide +kernel)
  | some p => exact .placeholder p

theorem writes_data {ops : List UpdateOperation} (h : (renderData ops).Gives v ps) :
    Writes .firestore whole v ps := by
  obtain ⟨list, hlist, rfl, rfl⟩ := renderData_gives.mp h
  have hpaths : ∀ c ∈ changes ops, FieldPath.Valid c.2.1 := by
    intro c hc
    obtain ⟨op, -, hc⟩ := List.mem_flatMap.mp hc
    obtain ⟨e, -, rfl⟩ := List.mem_map.mp hc
    exact e.1.path_valid
  have hvalid := valid_of_assignments hpaths hlist
  exact .obj_map fun a ha => ⟨.path (hvalid a ha), writes_assigned a.2.value?⟩

/-! ## Queries -/

theorem writes_orderClause (s : SortClause) : Writes .firestore whole (orderClause s) [] :=
  .obj_cons (.frame (by decide)) (.path s.field.path_valid) <|
    .single (.frame (by decide)) (.word (word_mem_words s.order))

theorem writes_sort (sorts : List SortClause) :
    Writes .firestore whole
      (.obj (Entries.when (!sorts.isEmpty) "orderBy" (.arr (sorts.map orderClause)))) [] :=
  .obj_when (.frame (by decide)) (fun _ => .arr_plain fun s _ => writes_orderClause s) fun _ => rfl

theorem writes_find {parts : Entries} (h : (renderFind q).Gives parts ps) :
    Writes .firestore whole (.obj parts) ps := by
  obtain ⟨conditions, limit, offset, fields, qs, rs, ts, hconditions, hlimit, hoffset, hfields, rfl,
    rfl⟩ := renderFind_gives.mp h
  rw [← List.append_assoc]
  exact ((((writes_whereEntries hconditions).obj_append_plain (writes_sort q.sort)).obj_append
    (.obj_optional (.frame (by decide)) Writes.pagination hlimit)).obj_append
      (.obj_optional (.frame (by decide)) Writes.pagination hoffset)).obj_append_plain
        (writes_selection "select" (.frame (by decide)) hfields)

/-- What a query writes below its header. -/
theorem writes_parts (ht : whole → q.Tidy) {parts : Entries} (h : (renderParts q).Gives parts ps) :
    Writes .firestore whole (.obj parts) ps := by
  unfold renderParts at h
  unfold Query.Tidy at ht
  cases hop : q.operation with
  | find | findOne =>
    rw [hop] at h
    exact writes_find h
  | insert =>
    rw [hop] at h ht
    simp only [bind_pure_comp, gives_map] at h
    obtain ⟨document, hdocument, rfl⟩ := h
    exact writes_first_document (.frame (by decide)) ht hdocument
  | update =>
    rw [hop] at h
    obtain ⟨conditions, data, qs, rs, hconditions, hdata, rfl, rfl⟩ := Render.gives_two.mp h
    exact (writes_whereEntries hconditions).obj_append
      (.single (.frame (by decide)) (writes_data hdata))
  | delete =>
    rw [hop] at h
    exact writes_whereEntries h
  | _ =>
    rw [hop] at h
    exact (Render.gives_unsupported.mp h).elim

end DocumentQuery.Firestore

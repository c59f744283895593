import DocumentQuery.Proofs.Built
import DocumentQuery.Proofs.Couch.Selector
import DocumentQuery.Proofs.WrittenParts
/-!
# What couch writes

Selectors are filter objects with the operators of this dialect. An update is
one operation that sets fields.

Results:
* `writes_selector`: what a selector writes.
* `writes_parts`: what a query writes below its header.
-/
namespace DocumentQuery.Couch

open Render (gives_pure gives_map)

variable {whole : Prop} {q : Query} {v : Json} {ps : List Param}

/-! ## Fixed words -/

theorem safe_test {op : FilterOperator} (h : Dialect.couch.supportsFilter op = true) :
    Dialect.couch.Safe op.token := by
  have hmem : op.token ∈ Dialect.tokensWhere Dialect.couch.supportsFilter :=
    Dialect.token_mem_tokensWhere h
  exact .token (by simp [Dialect.tokens, hmem])

theorem safe_logic {logic : LogicOperator} (h : Dialect.couch.supportsLogic logic = true) :
    Dialect.couch.Safe logic.token := by
  have hmem : logic.token ∈ Dialect.tokensWhere Dialect.couch.supportsLogic :=
    Dialect.token_mem_tokensWhere h
  exact .token (by simp [Dialect.tokens, hmem])

theorem word_mem_words (order : SortOrder) : order.word ∈ Dialect.couch.words := by
  cases order <;> decide +kernel

/-! ## Selectors -/

theorem writes_tests {ts : List (FilterOperator × Param)}
    (h : ∀ t ∈ ts, Dialect.couch.supportsFilter t.1 = true) :
    Writes .couch whole (.obj (Mongo.tests ts)) (ts.map Prod.snd) :=
  .obj_placeholders fun t ht => safe_test (h t ht)

theorem supports_bounds (r : RangeFilter) :
    ∀ b ∈ r.bounds, Dialect.couch.supportsFilter b.1 = true := by
  obtain ⟨field, min, max, minExclusive, maxExclusive⟩ := r
  cases min <;> cases max <;> cases minExclusive <;> cases maxExclusive <;>
    simp [RangeFilter.bounds, RangeFilter.minOperator, RangeFilter.maxOperator,
      Dialect.supportsFilter, FilterOperator.isComparison]

mutual

theorem writes_selector : ∀ (f : Filter) (v : Json) (ps : List Param),
    (renderSelector f).Gives v ps → Writes .couch whole v ps
  | .condition field op value, _, _, h => by
    obtain ⟨hsupports, h⟩ := renderTest_gives.mp h
    obtain ⟨rfl, rfl⟩ := Mongo.renderTest_gives.mp h
    exact .single (.path field.path_valid) (writes_tests (List.forall_mem_singleton.mpr hsupports))
  | .group logic conditions, _, ps, h => by
    obtain ⟨hlogic, vs, hvs, rfl⟩ := renderGroup_gives.mp h
    exact .single (safe_logic hlogic) (writes_selectors conditions vs ps hvs)
  | .range r, _, _, h => by
    obtain ⟨rfl, rfl⟩ := Mongo.renderRange_gives.mp h
    exact .single (.path r.field.path_valid) (writes_tests (supports_bounds r))
  | .regex field pattern options, _, _, h => by
    obtain ⟨rfl, h⟩ := renderRegex_gives.mp h
    obtain ⟨rfl, rfl⟩ := Mongo.renderRegex_gives.mp h
    have hregex : Dialect.couch.Safe FilterOperator.regex.token := safe_test rfl
    exact .single (.path field.path_valid) (.single hregex (.placeholder pattern))
  | .presence field present, _, _, h => by
    obtain ⟨rfl, rfl⟩ := gives_pure.mp h
    exact .single (.path field.path_valid) (.single (safe_test rfl) (.plain rfl rfl))
  | .textSearch _, _, _, h | .geo _, _, _, h | .array .., _, _, h | .elemMatch .., _, _, h =>
    (Render.gives_unsupported.mp h).elim

theorem writes_selectors : ∀ (fs : List Filter) (vs : List Json) (ps : List Param),
    (renderSelectors fs).Gives vs ps → Writes .couch whole (.arr vs) ps
  | [], _, _, h => by
    obtain ⟨rfl, rfl⟩ := gives_pure.mp h
    exact .arr_nil
  | f :: fs, _, _, h => by
    obtain ⟨v, ws, qs, rs, hv, hws, rfl, rfl⟩ := renderSelectors_cons_gives.mp h
    exact (writes_selector f v qs hv).arr_cons (writes_selectors fs ws rs hws)

end

/-! ## Updates -/

theorem writes_update {op : UpdateOperation} {es : Entries} (h : (renderUpdate op).Gives es ps) :
    Writes .couch whole (.obj es) ps := by
  obtain ⟨-, rfl, rfl⟩ := renderUpdate_gives.mp h
  refine .obj_placeholders fun e he => ?_
  obtain ⟨x, -, hx⟩ := List.mem_filterMap.mp he
  obtain ⟨p, -, rfl⟩ := Option.map_eq_some_iff.mp hx
  exact .path x.1.path_valid

theorem keys_of_update {op : UpdateOperation} {es : Entries} (h : (renderUpdate op).Gives es ps) :
    (Entries.keys es).Sublist (op.fields.keys.map Field.path) := by
  obtain ⟨-, rfl, -⟩ := renderUpdate_gives.mp h
  rw [OrderedMap.keys, valued]
  induction op.fields.entries with
  | nil => exact .slnil
  | cons e es ih =>
    cases hvalue : e.2 with
    | none => simpa [hvalue, Entries.keys] using ih.cons e.1.path
    | some p => simpa [hvalue, Entries.keys] using ih

/-- Only one operator is known, so there is one operation at most. -/
theorem writes_updates {ops : List UpdateOperation}
    (hoperators : (ops.map UpdateOperation.operator).Nodup) (hops : whole → ∀ op ∈ ops, op.Tidy)
    {lists : List Entries} (h : (Render.each renderUpdate ops).Gives lists ps) :
    Writes .couch whole (.ofEntries lists.flatten) ps := by
  cases ops with
  | nil =>
    obtain ⟨rfl, rfl⟩ := Render.gives_each_nil.mp h
    exact .ofEntries_of_nil .obj_nil
  | cons op rest =>
    obtain ⟨es, ls, qs, rs, hes, hls, rfl, rfl⟩ := Render.gives_each_cons.mp h
    cases rest with
    | nil =>
      obtain ⟨rfl, rfl⟩ := Render.gives_each_nil.mp hls
      rw [List.flatten_cons, List.flatten_nil, List.append_nil, List.append_nil]
      refine (writes_update hes).ofEntries fun hwhole => ?_
      exact (hops hwhole op List.mem_cons_self).sublist (keys_of_update hes)
    | cons op' rest =>
      obtain ⟨es', _, _, _, hes', -, -, -⟩ := Render.gives_each_cons.mp hls
      have hset : op.operator = op'.operator :=
        (renderUpdate_gives.mp hes).1.trans (renderUpdate_gives.mp hes').1.symm
      simp [hset] at hoperators

/-! ## Queries -/

theorem writes_sort (sorts : List SortClause) :
    Writes .couch whole (.obj (Entries.when (!sorts.isEmpty) "sort"
      (.arr (sorts.map fun s => .single s.field.path (.str s.order.word))))) [] :=
  .obj_when (.frame (by decide))
    (fun _ => .arr_plain fun s _ =>
      .single (.path s.field.path_valid) (.word (word_mem_words s.order)))
    fun _ => rfl

theorem writes_find {parts : Entries} (h : (renderFind q).Gives parts ps) :
    Writes .couch whole (.obj parts) ps := by
  obtain ⟨selector, fields, limit, skip, qs, rs, ts, hselector, hfields, hlimit, hskip, rfl, rfl⟩ :=
    renderFind_gives.mp h
  have hselector : Writes .couch whole (selector.getD (.obj [])) qs := by
    rcases Render.gives_optional.mp hselector with ⟨-, rfl, rfl⟩ | ⟨f, v, -, rfl, hv⟩
    · exact .obj_nil
    · exact writes_selector f v qs hv
  rw [← List.append_assoc]
  have hhead : Writes .couch whole (.obj [("selector", selector.getD (.obj []))]) qs :=
    .single (.frame (by decide)) hselector
  exact (((hhead.obj_append_plain
    (writes_selection "fields" (.frame (by decide)) hfields)).obj_append_plain
      (writes_sort q.sort)).obj_append
        (.obj_optional (.frame (by decide)) Writes.pagination hlimit)).obj_append
          (.obj_optional (.frame (by decide)) Writes.pagination hskip)

/-- What a built query writes below its header. -/
theorem writes_parts (hq : q.Built) (ht : whole → q.Tidy) {parts : Entries}
    (h : (renderParts q).Gives parts ps) : Writes .couch whole (.obj parts) ps := by
  have hoperation : ∀ {name : String} {es : Entries} {qs : List Param},
      name ∈ Dialect.couch.words → Writes .couch whole (.obj es) qs →
        Writes .couch whole (.obj (("operation", .str name) :: es)) qs :=
    fun hname hes => .obj_cons (.frame (by decide)) (.word hname) hes
  unfold renderParts at h
  unfold Query.Tidy at ht
  cases hop : q.operation with
  | find | findOne =>
    rw [hop] at h
    exact writes_find h
  | insert =>
    rw [hop] at h ht
    simp only [bind_pure_comp, gives_map] at h
    obtain ⟨document, hdocument, rfl⟩ := h
    exact hoperation (by decide +kernel) (writes_first_document (.frame (by decide)) ht hdocument)
  | update =>
    rw [hop] at h ht
    obtain ⟨selector, updates, qs, rs, hselector, hupdates, rfl, rfl⟩ := Render.gives_two.mp h
    have hfilter : Writes .couch whole (.obj (Entries.optional "selector" selector)) qs :=
      .obj_optional (.frame (by decide)) writes_selector hselector
    have hwritten : Writes .couch whole (.obj [("updates", .ofEntries updates.flatten)]) rs :=
      .single (.frame (by decide)) (writes_updates hq.operators ht hupdates)
    exact hoperation (by decide +kernel) (hfilter.obj_append hwritten)
  | delete =>
    rw [hop] at h
    simp only [bind_pure_comp, gives_map] at h
    obtain ⟨selector, hselector, rfl⟩ := h
    exact hoperation (by decide +kernel)
      (.obj_optional (.frame (by decide)) writes_selector hselector)
  | _ =>
    rw [hop] at h
    exact (Render.gives_unsupported.mp h).elim

end DocumentQuery.Couch

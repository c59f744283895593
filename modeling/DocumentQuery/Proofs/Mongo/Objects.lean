import DocumentQuery.Proofs.Mongo.Merging
import DocumentQuery.Proofs.Steps
/-!
# Objects of filters

What each kind of filter becomes, and how the operators of a leaf are read back.
They stand under one path; which ones they are is said by `tests`,
`patternOperators`, `searchOperators` and `location`.

Results:
* `renderGroup_gives`, `renderElemMatch_gives`, `renderFilters_cons_gives`: the
  object of a filter with conditions, and when there is any.
* `renderTest_gives`, `renderRange_gives`, `renderRegex_gives`,
  `renderTextSearch_gives`, `renderGeo_gives`: the object and the parameters of a
  leaf, and when there are any.
* `operatorMeanings_tests`, `operatorMeanings_pattern`, `operatorMeanings_search`,
  `operatorMeaning_location`: what the operators say.
-/
namespace DocumentQuery.Mongo

open Entries (keys get?)
open Render (gives_bind gives_pure gives_placeholder gives_optional_placeholder gives_map)

/-! ## Rendering a leaf -/

/-- The operators of tests, each with the placeholder of its operand. -/
def tests (ts : List (FilterOperator × Param)) : Entries :=
  ts.map fun t => (t.1.token, .str t.2.placeholder)

theorem renderTest_gives {field : Field} {operator : FilterOperator} {value : Param} {v : Json}
    {ps : List Param} :
    (renderTest field operator value).Gives v ps ↔
      v = .single field.path (.obj (tests [(operator, value)])) ∧ ps = [value] := by
  simp [renderTest, tests, Json.single, and_comm]

theorem renderRange_gives {r : RangeFilter} {v : Json} {ps : List Param} :
    (renderRange r).Gives v ps ↔
      v = .single r.field.path (.obj (tests r.bounds)) ∧ ps = r.bounds.map Prod.snd := by
  have hbound : ∀ b : FilterOperator × Param,
      (do let v ← Render.placeholder b.2; pure (b.1.token, v) : Render (String × Json)).Gives
        (b.1.token, .str b.2.placeholder) [b.2] := by
    intro b
    simp
  have hps : r.bounds.flatMap (fun b => [b.2]) = r.bounds.map Prod.snd :=
    List.flatMap_pure_eq_map ..
  rw [renderRange, bind_pure_comp, gives_map]
  simp only [Render.gives_each_of_forall hbound, hps]
  constructor
  · intro h
    obtain ⟨_, ⟨rfl, rfl⟩, rfl⟩ := h
    exact ⟨rfl, rfl⟩
  · intro h
    obtain ⟨rfl, rfl⟩ := h
    exact ⟨_, ⟨rfl, rfl⟩, rfl⟩

/-- The operators of a pattern. -/
def patternOperators (pattern : Param) (options : Option Param) : Entries :=
  ("$regex", .str pattern.placeholder) ::
    Entries.optional "$options" (options.map fun p => .str p.placeholder)

theorem renderRegex_gives {field : Field} {pattern : Param} {options : Option Param} {v : Json}
    {ps : List Param} :
    (renderRegex field pattern options).Gives v ps ↔
      v = .single field.path (.obj (patternOperators pattern options)) ∧
      ps = pattern :: options.toList := by
  simp [renderRegex, patternOperators]

/-- The operators of a search in the text index. -/
def searchOperators (t : TextSearch) : Entries :=
  ("$search", .str t.search.placeholder) ::
    Entries.optional "$language" (t.language.map fun p => .str p.placeholder)
    ++ Entries.when t.caseSensitive "$caseSensitive" (.bool true)
    ++ Entries.when t.diacriticSensitive "$diacriticSensitive" (.bool true)

theorem renderTextSearch_gives {t : TextSearch} {v : Json} {ps : List Param} :
    (renderTextSearch t).Gives v ps ↔
      v = .single "$text" (.obj (searchOperators t)) ∧ ps = t.search :: t.language.toList := by
  simp [renderTextSearch, searchOperators]

/-- The operand of a test of location. -/
def location (g : GeoFilter) (greatest : Option Param) : Entries :=
  ("$geometry", .obj [("type", .str "Point"),
      ("coordinates", .arr [.str g.lon.placeholder, .str g.lat.placeholder])]) ::
    Entries.optional "$maxDistance" (greatest.map fun p => .str p.placeholder)
    ++ Entries.optional "$minDistance" (g.minDistance.map fun p => .str p.placeholder)

theorem greatestDistance_eq_ok_iff {g : GeoFilter} {greatest : Option Param} :
    greatestDistance g = .ok greatest ↔
      (g.radius = none ∨ g.maxDistance = none) ∧ greatest = (g.radius <|> g.maxDistance) := by
  unfold greatestDistance
  cases g.radius <;> cases g.maxDistance <;> simp [eq_comm]

theorem renderGeo_gives {g : GeoFilter} {v : Json} {ps : List Param} :
    (renderGeo g).Gives v ps ↔
      (g.radius = none ∨ g.maxDistance = none) ∧
      v = .single g.field.path
        (.single g.operator.token (.obj (location g (g.radius <|> g.maxDistance)))) ∧
      ps = g.lon :: g.lat :: ((g.radius <|> g.maxDistance).toList ++ g.minDistance.toList) := by
  simp only [renderGeo, gives_bind, gives_pure, gives_placeholder, Render.gives_ofExcept,
    greatestDistance_eq_ok_iff, gives_optional_placeholder]
  constructor
  · rintro ⟨_, _, _, ⟨rfl, rfl⟩, ⟨_, _, _, ⟨rfl, rfl⟩, ⟨_, _, _, ⟨⟨hone, rfl⟩, rfl⟩,
      ⟨_, _, _, ⟨rfl, rfl⟩, ⟨_, _, _, ⟨rfl, rfl⟩, ⟨rfl, rfl⟩, rfl⟩, rfl⟩, rfl⟩, rfl⟩, rfl⟩
    exact ⟨hone, rfl, by simp⟩
  · intro h
    obtain ⟨hone, rfl, rfl⟩ := h
    exact ⟨_, _, _, ⟨rfl, rfl⟩, ⟨_, _, _, ⟨rfl, rfl⟩, ⟨_, _, _, ⟨⟨hone, rfl⟩, rfl⟩,
      ⟨_, _, _, ⟨rfl, rfl⟩, ⟨_, _, _, ⟨rfl, rfl⟩, ⟨rfl, rfl⟩, rfl⟩, rfl⟩, rfl⟩, rfl⟩, by simp⟩

/-! ## Rendering a tree -/

theorem renderGroup_gives {logic : LogicOperator} {conditions : List Filter} {v : Json}
    {ps : List Param} :
    (renderFilter (.group logic conditions)).Gives v ps ↔
      Dialect.mongo.supportsLogic logic = true ∧
      ∃ vs, (renderFilters conditions).Gives vs ps ∧ v = .single logic.token (.arr vs) := by
  rw [renderFilter]
  split
  · rename_i h
    simp [h]
  · rename_i h
    simp [h]

theorem renderElemMatch_gives {field : Field} {conditions : List Filter} {v : Json}
    {ps : List Param} :
    (renderFilter (.elemMatch field conditions)).Gives v ps ↔
      ∃ vs, (renderFilters conditions).Gives vs ps ∧
        v = .single field.path (.single "$elemMatch" (mergeAll vs)) := by
  simp [renderFilter]

theorem renderFilters_cons_gives {f : Filter} {fs : List Filter} {vs : List Json}
    {ps : List Param} :
    (renderFilters (f :: fs)).Gives vs ps ↔
      ∃ v ws qs rs, (renderFilter f).Gives v qs ∧ (renderFilters fs).Gives ws rs ∧
        vs = v :: ws ∧ ps = qs ++ rs := by
  simp only [renderFilters, gives_bind, gives_pure]
  constructor
  · intro h
    obtain ⟨v, qs, _, hv, ⟨ws, rs, _, hws, ⟨rfl, rfl⟩, rfl⟩, rfl⟩ := h
    exact ⟨v, ws, qs, rs, hv, hws, rfl, by rw [List.append_nil]⟩
  · intro h
    obtain ⟨v, ws, qs, rs, hv, hws, rfl, rfl⟩ := h
    exact ⟨v, qs, rs, hv, ⟨ws, rs, [], hws, ⟨rfl, rfl⟩, (List.append_nil rs).symm⟩, rfl⟩

/-! ## Reading one operator -/

theorem operatorMeaning_str (path : String) (whole : Entries) (op s : String) :
    operatorMeaning path whole op (.str s) =
      ((operatorAtom? path whole op (.str s)).map Formula.atom).toList := rfl

theorem token_ne_search (op : FilterOperator) : op.token ≠ "$search" := by
  cases op <;> decide

theorem operatorMeaning_test (path : String) (whole : Entries) (op : FilterOperator) (p : Param) :
    operatorMeaning path whole op.token (.str p.placeholder) =
      [.atom (.test path op p (if op = .regex then paramAt? "$options" whole else none))] := by
  rw [operatorMeaning_str]
  simp [operatorAtom?, token_ne_search]

theorem operatorMeaning_search (path : String) (whole : Entries) (p : Param) :
    operatorMeaning path whole "$search" (.str p.placeholder) =
      [.atom (.words (searchWords p whole))] := by
  rw [operatorMeaning_str]
  simp [operatorAtom?]

/-- A companion is read with its operator and is no test of its own. -/
theorem operatorMeaning_companion (path : String) (whole : Entries) {c : String × String}
    (hc : c ∈ companions) {v : Json} (hv : ∀ es, v ≠ .obj es) :
    operatorMeaning path whole c.1 v = [] := by
  have hfacts : c.1 ≠ "$search" ∧ c.1 ≠ "$exists" ∧ FilterOperator.ofToken? c.1 = none := by
    revert c
    decide
  obtain ⟨hs, he, ho⟩ := hfacts
  cases v with
  | obj es => exact absurd rfl (hv es)
  | str s =>
    rw [operatorMeaning_str, operatorAtom?]
    cases Param.ofPlaceholder? s <;> simp [hs, ho]
  | bool b => simp [operatorMeaning, operatorAtom?, he]
  | _ => rfl

theorem point?_location (g : GeoFilter) (greatest : Option Param) :
    point? (location g greatest) = some (g.lon, g.lat) := by
  simp [location, point?, get?]

theorem paramAt?_maxDistance_location (g : GeoFilter) (greatest : Option Param) :
    paramAt? "$maxDistance" (location g greatest) = greatest := by
  cases greatest <;> cases h : g.minDistance <;>
    simp [location, paramAt?, get?, Entries.optional, h]

theorem paramAt?_minDistance_location (g : GeoFilter) (greatest : Option Param) :
    paramAt? "$minDistance" (location g greatest) = g.minDistance := by
  cases greatest <;> cases h : g.minDistance <;>
    simp [location, paramAt?, get?, Entries.optional, h]

theorem operatorMeaning_location (whole : Entries) (g : GeoFilter) (greatest : Option Param) :
    operatorMeaning g.field.path whole g.operator.token (.obj (location g greatest)) =
      [.atom (.place g.field.path g.operator g.lon g.lat greatest g.minDistance)] := by
  have hplace : place? g.field.path g.operator.token (location g greatest) =
      some (.place g.field.path g.operator g.lon g.lat greatest g.minDistance) := by
    simp [place?, point?_location, paramAt?_maxDistance_location, paramAt?_minDistance_location]
  simp only [operatorMeaning, operatorAtom?, hplace]

/-! ## Reading the operators of leaves -/

theorem keys_tests (ts : List (FilterOperator × Param)) :
    keys (tests ts) = ts.map fun t => t.1.token := by
  rw [keys, tests, List.map_map]
  rfl

theorem token_not_companion (op : FilterOperator) : ∀ c ∈ companions, c.1 ≠ op.token := by
  cases op <;> decide

theorem companion_not_mem_tests (ts : List (FilterOperator × Param)) {c : String × String}
    (hc : c ∈ companions) : c.1 ∉ keys (tests ts) := by
  intro h
  rw [keys_tests, List.mem_map] at h
  obtain ⟨t, -, ht⟩ := h
  exact token_not_companion t.1 c hc ht.symm

theorem isOperatorKey_token (op : FilterOperator) : isOperatorKey op.token = true := by
  cases op <;> decide

theorem sound_tests (ts : List (FilterOperator × Param)) : Sound (.obj (tests ts)) := by
  refine ⟨?_, ?_⟩
  · rw [operatorsOnly, keys_tests, List.all_map, List.all_eq_true]
    intro t _
    exact isOperatorKey_token t.1
  · intro c hc hmem
    exact absurd hmem (companion_not_mem_tests ts hc)

theorem sound_location (g : GeoFilter) (greatest : Option Param) :
    Sound (.obj [(g.operator.token, .obj (location g greatest))]) := by
  refine ⟨?_, ?_⟩
  · simp [operatorsOnly, keys, isOperatorKey_token]
  · intro c hc hmem
    exact absurd (List.mem_singleton.mp hmem) (token_not_companion g.operator c hc)

theorem sound_presence (present : Bool) : Sound (.obj [("$exists", .bool present)]) := by
  simp [Sound, operatorsOnly, isOperatorKey, Attached, companions, keys]

theorem paramAt?_options_tests (ts : List (FilterOperator × Param)) :
    paramAt? "$options" (tests ts) = none := by
  have hnot := companion_not_mem_tests ts (c := ("$options", "$regex")) (by decide)
  rw [paramAt?, Entries.get?_eq_none_iff.mpr hnot]

/-- Tests without companions are read one by one. -/
theorem operatorMeanings_tests (path : String) {whole : Entries}
    (hopt : paramAt? "$options" whole = none) (ts : List (FilterOperator × Param)) :
    operatorMeanings path whole (tests ts) = ts.map fun t => .atom (.test path t.1 t.2 none) := by
  induction ts with
  | nil => rfl
  | cons t ts ih =>
    have hcons : tests (t :: ts) = (t.1.token, .str t.2.placeholder) :: tests ts := rfl
    rw [hcons, operatorMeanings, operatorMeaning_test, hopt, ite_self, ih]
    rfl

/-- Companions by themselves say nothing. -/
theorem operatorMeanings_companions (path : String) (whole : Entries) {ops : Entries}
    (h : ∀ e ∈ ops, (∃ c ∈ companions, e.1 = c.1) ∧ ∀ es, e.2 ≠ .obj es) :
    operatorMeanings path whole ops = [] := by
  induction ops with
  | nil => rfl
  | cons e ops ih =>
    obtain ⟨key, v⟩ := e
    rw [List.forall_mem_cons] at h
    obtain ⟨⟨⟨c, hc, rfl⟩, hv⟩, hops⟩ := h
    rw [operatorMeanings, operatorMeaning_companion path whole hc hv, ih hops, List.nil_append]

theorem sound_pattern (pattern : Param) (options : Option Param) :
    Sound (.obj (patternOperators pattern options)) := by
  cases options <;>
    simp [Sound, operatorsOnly, isOperatorKey, Attached, companions, keys, patternOperators,
      Entries.optional]

theorem paramAt?_options_pattern (pattern : Param) (options : Option Param) :
    paramAt? "$options" (patternOperators pattern options) = options := by
  cases options <;> simp [paramAt?, patternOperators, Entries.optional, get?]

/-- A pattern is read together with its options. -/
theorem operatorMeanings_pattern (path : String) {whole : Entries} {options : Option Param}
    (hopt : paramAt? "$options" whole = options) (pattern : Param) :
    operatorMeanings path whole (patternOperators pattern options) =
      [.atom (.test path .regex pattern options)] := by
  have hrest : operatorMeanings path whole
      (Entries.optional "$options" (options.map fun p => .str p.placeholder)) = [] := by
    apply operatorMeanings_companions
    cases options <;> simp [Entries.optional, companions]
  have htest := operatorMeaning_test path whole .regex pattern
  rw [hopt, if_pos rfl] at htest
  have htoken : FilterOperator.regex.token = "$regex" := rfl
  rw [htoken] at htest
  rw [patternOperators, operatorMeanings, htest, hrest, List.append_nil]

theorem sound_search (t : TextSearch) : Sound (.obj (searchOperators t)) := by
  cases h : t.language <;> cases h' : t.caseSensitive <;> cases h'' : t.diacriticSensitive <;>
    simp [Sound, operatorsOnly, isOperatorKey, Attached, companions, keys, searchOperators,
      Entries.optional, Entries.when, h, h', h'']

theorem searchWords_search (t : TextSearch) : searchWords t.search (searchOperators t) = t := by
  obtain ⟨search, language, caseSensitive, diacriticSensitive⟩ := t
  cases language <;> cases caseSensitive <;> cases diacriticSensitive <;>
    simp [searchWords, paramAt?, flagAt, searchOperators, Entries.optional, Entries.when, get?]

/-- A search in the text index is read as one test. -/
theorem operatorMeanings_search (path : String) {whole : Entries} {t : TextSearch}
    (hwords : searchWords t.search whole = t) :
    operatorMeanings path whole (searchOperators t) = [.atom (.words t)] := by
  have hrest : operatorMeanings path whole
      (Entries.optional "$language" (t.language.map fun p => .str p.placeholder)
      ++ Entries.when t.caseSensitive "$caseSensitive" (.bool true)
      ++ Entries.when t.diacriticSensitive "$diacriticSensitive" (.bool true)) = [] := by
    apply operatorMeanings_companions
    cases t.language <;> cases t.caseSensitive <;> cases t.diacriticSensitive <;>
      simp [Entries.optional, Entries.when, companions]
  have htest := operatorMeaning_search path whole t.search
  rw [hwords] at htest
  rw [searchOperators, List.cons_append, List.cons_append, operatorMeanings, htest, hrest,
    List.append_nil]

end DocumentQuery.Mongo

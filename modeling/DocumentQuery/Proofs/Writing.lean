import DocumentQuery.Dialect.Capability
import DocumentQuery.Dialect.Dynamo.Condition
import DocumentQuery.Dialect.Firestore
import DocumentQuery.Proofs.Steps
import DocumentQuery.Proofs.Texts
/-!
# What a rendered query is written with

Every string of a rendered query is a fixed word of its dialect or made of names
that were checked, and every string value that stands for a parameter is owed to
a parameter that was bound. Both are facts about the ways to put an object
together, so they are carried along in one relation, `Writes`.

Main definitions:
* `Dialect.words`, `Dialect.Safe`: the fixed words of a dialect, and the strings
  it may write.
* `Writes`: a value has safe strings only, and placeholders for parameters that
  were bound; for all of them as far as the value is whole.

Results:
* `Writes.arr_cons`, `Writes.obj_cons`, `Writes.obj_append`,
  `Writes.ofEntries`, …: one rule for each way to put a value together.
-/
namespace DocumentQuery

/-! ## Safe strings -/

namespace Dynamo

/-- The signs and words of expressions. -/
def expressionWords : List String :=
  [" ", "=", "<>", ">", ">=", "<", "<=", "+", ",", "(", ")", "AND", "OR", "SET", "REMOVE",
    "attribute_exists", "attribute_not_exists"]

/-- The pieces that expressions are made of. -/
inductive Piece : String → Prop where
  | word {s : String} (h : s ∈ expressionWords) : Piece s
  | nameAlias (i : Nat) : Piece (nameAlias i)
  | valueAlias (i : Nat) : Piece (valueAlias i)

/-- The text is made of pieces. -/
def Composed (s : String) : Prop :=
  ∃ pieces : List String, (∀ p ∈ pieces, Piece p) ∧ s = String.join pieces

end Dynamo

namespace Dialect

/-- The keys of a rendered query and the fixed values in it, apart from tokens. -/
def frame : Dialect → List String
  | .mongo =>
    ["collection", "operation", "filter", "projection", "sort", "skip", "limit", "document",
      "documents", "update", "upsert", "pipeline", "field", "$options", "$search", "$language",
      "$caseSensitive", "$diacriticSensitive", "$geometry", "$maxDistance", "$minDistance", "type",
      "Point", "coordinates", "$slice", "$cond", "if", "then", "else", "_id", "from", "localField",
      "foreignField", "let", "as", "path", "includeArrayIndex", "preserveNullAndEmptyArrays",
      "newRoot", "groupBy", "boundaries", "default", "output", ""]
  | .dynamo =>
    ["TableName", "Item", "FilterExpression", "ConditionExpression", "UpdateExpression",
      "ProjectionExpression", "ExpressionAttributeNames", "ExpressionAttributeValues", "Limit"]
  | .firestore =>
    ["collection", "operation", "where", "field", "operator", "value", "orderBy", "direction",
      "limit", "offset", "select", "data", Firestore.removal]
  | .couch =>
    ["database", "operation", "selector", "fields", "sort", "limit", "skip", "doc", "updates",
      "insert", "update", "delete"]

/-- The tokens of the operations, operators, stages and directions that a dialect writes. -/
def tokens : Dialect → List String
  | .mongo =>
    tokensWhere Dialect.mongo.supportsOperation ++ tokensWhere Dialect.mongo.supportsFilter
      ++ tokensWhere Dialect.mongo.supportsLogic ++ tokensWhere Dialect.mongo.supportsUpdate
      ++ tokensWhere Dialect.mongo.supportsStage
      ++ (Vocabulary.all : List AccumulatorOperator).map Vocabulary.token
  | .dynamo => []
  | .firestore =>
    tokensWhere Dialect.firestore.supportsOperation
      ++ (Vocabulary.all : List FilterOperator).filterMap Firestore.whereSign?
      ++ [SortOrder.ascending.word, SortOrder.descending.word]
  | .couch =>
    tokensWhere Dialect.couch.supportsFilter ++ tokensWhere Dialect.couch.supportsLogic
      ++ [SortOrder.ascending.word, SortOrder.descending.word]

/-- The fixed words of a dialect. -/
def words (dialect : Dialect) : List String := dialect.frame ++ dialect.tokens

/-- The strings that a dialect may write, whatever the names in a query are. -/
inductive Safe (dialect : Dialect) : String → Prop where
  | word {s : String} (h : s ∈ dialect.words) : Safe dialect s
  | identifier {s : String} (h : Identifier.Valid s) : Safe dialect s
  | path {s : String} (h : FieldPath.Valid s) : Safe dialect s
  /-- A reference to a path, or the operator of an expression. -/
  | reference {s : String} (h : FieldPath.Valid s ∨ Identifier.Valid s) : Safe dialect ("$" ++ s)
  | placeholder {s : String} (h : Identifier.Valid s) : Safe dialect (":" ++ s)
  | nameAlias (hd : dialect = .dynamo) (i : Nat) : Safe dialect (Dynamo.nameAlias i)
  | valueAlias (hd : dialect = .dynamo) (i : Nat) : Safe dialect (Dynamo.valueAlias i)
  | expression (hd : dialect = .dynamo) {s : String} (h : Dynamo.Composed s) : Safe dialect s

theorem not_marked_of_mem_words {dialect : Dialect} {s : String} (h : s ∈ dialect.words) :
    isMarked s = false := by
  have hall : (dialect.words.all fun s => !isMarked s) = true := by
    cases dialect <;> decide +kernel
  simpa using List.all_eq_true.mp hall s h

theorem token_mem_tokensWhere {α : Type} [Vocabulary α] {supported : α → Bool} {a : α}
    (h : supported a = true) : Vocabulary.token a ∈ tokensWhere supported :=
  List.mem_map_of_mem (List.mem_filter.mpr ⟨Vocabulary.mem_all a, h⟩)

theorem Safe.frame {dialect : Dialect} {s : String} (h : s ∈ dialect.frame) : dialect.Safe s :=
  .word (List.mem_append_left _ h)

theorem Safe.token {dialect : Dialect} {s : String} (h : s ∈ dialect.tokens) : dialect.Safe s :=
  .word (List.mem_append_right _ h)

end Dialect

/-! ## Values put together -/

/-- The value, written by a step that binds `ps`, has safe strings only. Its placeholders stand for
some of the parameters, each for its own, and for all of them if the value is whole. -/
structure Writes (dialect : Dialect) (whole : Prop) (v : Json) (ps : List Param) : Prop where
  keys : ∀ s ∈ v.allKeys, dialect.Safe s
  texts : ∀ s ∈ v.texts, dialect.Safe s
  among : v.placeholders.Subperm (ps.map Param.placeholder)
  all : whole → v.placeholders.Perm (ps.map Param.placeholder)

namespace Writes

variable {dialect : Dialect} {whole : Prop} {v : Json} {vs : List Json} {es fs : Entries}
  {ps qs : List Param} {key : String}

/-! ### Values without parts -/

/-- A value with the placeholders of all parameters is whole. -/
theorem of_perm (hkeys : ∀ s ∈ v.allKeys, dialect.Safe s) (htexts : ∀ s ∈ v.texts, dialect.Safe s)
    (h : v.placeholders.Perm (ps.map Param.placeholder)) : Writes dialect whole v ps :=
  ⟨hkeys, htexts, h.subperm, fun _ => h⟩

theorem placeholder (p : Param) : Writes dialect whole (.str p.placeholder) [p] := by
  refine of_perm (by simp [Json.allKeys]) ?_ ?_
  · intro s hs
    obtain rfl : s = p.placeholder := by simpa [Json.texts] using hs
    exact .placeholder p.valid
  · simp [Json.placeholders, Json.texts]

/-- A value without strings. -/
theorem plain (hkeys : v.allKeys = []) (htexts : v.texts = []) : Writes dialect whole v [] := by
  refine of_perm (by simp [hkeys]) (by simp [htexts]) ?_
  rw [Json.placeholders, htexts]
  exact .refl _

theorem text {s : String} (hs : dialect.Safe s) (hmarked : isMarked s = false) :
    Writes dialect whole (.str s) [] := by
  refine of_perm (by simp [Json.allKeys]) (by simpa [Json.texts] using hs) ?_
  simp [Json.placeholders, Json.texts, hmarked]

theorem word {s : String} (h : s ∈ dialect.words) : Writes dialect whole (.str s) [] :=
  text (.word h) (Dialect.not_marked_of_mem_words h)

theorem identifier {s : String} (h : Identifier.Valid s) : Writes dialect whole (.str s) [] :=
  text (.identifier h) h.not_marked

theorem path {s : String} (h : FieldPath.Valid s) : Writes dialect whole (.str s) [] :=
  text (.path h) h.not_marked

/-! ### Arrays and objects -/

theorem arr_nil : Writes dialect whole (.arr []) [] := plain rfl rfl

theorem obj_nil : Writes dialect whole (.obj []) [] := plain rfl rfl

theorem arr_cons (hv : Writes dialect whole v ps) (hvs : Writes dialect whole (.arr vs) qs) :
    Writes dialect whole (.arr (v :: vs)) (ps ++ qs) := by
  have hplaceholders : (Json.arr (v :: vs)).placeholders =
      v.placeholders ++ (Json.arr vs).placeholders := by
    simp [Json.placeholders]
  refine ⟨?_, ?_, ?_, fun h => ?_⟩
  · have hkeys := hvs.keys
    simp only [Json.allKeys_arr, List.flatMap_cons, List.forall_mem_append] at hkeys ⊢
    exact ⟨hv.keys, hkeys⟩
  · have htexts := hvs.texts
    simp only [Json.texts_arr, List.flatMap_cons, List.forall_mem_append] at htexts ⊢
    exact ⟨hv.texts, htexts⟩
  · rw [hplaceholders, List.map_append]
    exact hv.among.append hvs.among
  · rw [hplaceholders, List.map_append]
    exact (hv.all h).append (hvs.all h)

theorem obj_append (hes : Writes dialect whole (.obj es) ps)
    (hfs : Writes dialect whole (.obj fs) qs) :
    Writes dialect whole (.obj (es ++ fs)) (ps ++ qs) := by
  have hplaceholders : (Json.obj (es ++ fs)).placeholders =
      (Json.obj es).placeholders ++ (Json.obj fs).placeholders := by
    simp [Json.placeholders]
  refine ⟨?_, ?_, ?_, fun h => ?_⟩
  · have hkeys := hes.keys
    have hkeys' := hfs.keys
    simp only [Json.allKeys_obj, List.flatMap_append, List.forall_mem_append] at hkeys hkeys' ⊢
    exact ⟨hkeys, hkeys'⟩
  · have htexts := hes.texts
    have htexts' := hfs.texts
    simp only [Json.texts_obj, List.flatMap_append, List.forall_mem_append] at htexts htexts' ⊢
    exact ⟨htexts, htexts'⟩
  · rw [hplaceholders, List.map_append]
    exact hes.among.append hfs.among
  · rw [hplaceholders, List.map_append]
    exact (hes.all h).append (hfs.all h)

theorem single (hkey : dialect.Safe key) (hv : Writes dialect whole v ps) :
    Writes dialect whole (.obj [(key, v)]) ps := by
  have hplaceholders : (Json.obj [(key, v)]).placeholders = v.placeholders := by
    simp [Json.placeholders]
  refine ⟨?_, ?_, hplaceholders ▸ hv.among, fun h => hplaceholders ▸ hv.all h⟩
  · have hkeys := hv.keys
    simpa using ⟨hkey, hkeys⟩
  · simpa using hv.texts

theorem obj_cons (hkey : dialect.Safe key) (hv : Writes dialect whole v ps)
    (hes : Writes dialect whole (.obj es) qs) :
    Writes dialect whole (.obj ((key, v) :: es)) (ps ++ qs) :=
  (single hkey hv).obj_append hes

/-- Inserted entries overwrite each other unless their keys are distinct. -/
theorem ofEntries (hes : Writes dialect whole (.obj es) ps)
    (hkeys : whole → (Entries.keys es).Nodup) : Writes dialect whole (.ofEntries es) ps := by
  have hsub := Entries.ofPairs_subperm es
  have htexts := subperm_flatMap (fun e : String × Json => e.2.texts) hsub
  refine ⟨fun s hs => hes.keys s ?_, fun s hs => hes.texts s ?_, ?_, fun h => ?_⟩
  · rw [Json.ofEntries, Json.allKeys_obj] at hs
    rw [Json.allKeys_obj]
    exact (subperm_flatMap _ hsub).subset hs
  · rw [Json.ofEntries, Json.texts_obj] at hs
    rw [Json.texts_obj]
    exact htexts.subset hs
  · refine List.Subperm.trans ?_ hes.among
    simp only [Json.placeholders, Json.ofEntries, Json.texts_obj]
    exact htexts.filter isMarked
  · rw [Json.ofEntries, Entries.ofPairs_eq_of_nodup (hkeys h)]
    exact hes.all h

/-- Where nothing is bound, nothing can be lost. -/
theorem ofEntries_of_nil (hes : Writes dialect whole (.obj es) []) :
    Writes dialect whole (.ofEntries es) [] := by
  have hpart : Writes dialect False (.ofEntries es) [] :=
    ofEntries ⟨hes.keys, hes.texts, hes.among, False.elim⟩ False.elim
  have hnone : (Json.ofEntries es).placeholders = [] := List.subperm_nil.mp hpart.among
  exact of_perm hpart.keys hpart.texts (by rw [hnone]; exact .refl _)

theorem obj_append_plain (hes : Writes dialect whole (.obj es) ps)
    (hfs : Writes dialect whole (.obj fs) []) : Writes dialect whole (.obj (es ++ fs)) ps := by
  have hall := hes.obj_append hfs
  rwa [List.append_nil] at hall

/-- The order of the parameters does not count. -/
theorem perm (h : Writes dialect whole v ps) (hps : ps.Perm qs) : Writes dialect whole v qs :=
  ⟨h.keys, h.texts, h.among.trans (hps.map _).subperm,
    fun hwhole => (h.all hwhole).trans (hps.map _)⟩

/-! ### Several parts of one kind -/

section Parts

variable {α : Type}

theorem arr_map {as : List α} {f : α → Json} {p : α → List Param}
    (h : ∀ a ∈ as, Writes dialect whole (f a) (p a)) :
    Writes dialect whole (.arr (as.map f)) (as.flatMap p) := by
  induction as with
  | nil => exact arr_nil
  | cons a as ih =>
    obtain ⟨ha, has⟩ := List.forall_mem_cons.mp h
    exact ha.arr_cons (ih has)

theorem arr_plain {as : List α} {f : α → Json} (h : ∀ a ∈ as, Writes dialect whole (f a) []) :
    Writes dialect whole (.arr (as.map f)) [] := by
  have hnone : as.flatMap (fun _ => ([] : List Param)) = [] := by simp
  rw [← hnone]
  exact arr_map h

theorem obj_map {as : List α} {f : α → String × Json} {p : α → List Param}
    (h : ∀ a ∈ as, dialect.Safe (f a).1 ∧ Writes dialect whole (f a).2 (p a)) :
    Writes dialect whole (.obj (as.map f)) (as.flatMap p) := by
  induction as with
  | nil => exact obj_nil
  | cons a as ih =>
    obtain ⟨⟨hkey, ha⟩, has⟩ := List.forall_mem_cons.mp h
    exact obj_cons hkey ha (ih has)

/-- An entry for each of some parameters. -/
theorem obj_placeholders {as : List α} {k : α → String} {p : α → Param}
    (h : ∀ a ∈ as, dialect.Safe (k a)) :
    Writes dialect whole (.obj (as.map fun a => (k a, .str (p a).placeholder))) (as.map p) := by
  have hps : as.flatMap (fun a => [p a]) = as.map p := List.flatMap_pure_eq_map ..
  rw [← hps]
  exact obj_map fun a ha => ⟨h a ha, placeholder (p a)⟩

theorem arr_of_each {f : α → Render Json} {as : List α}
    (hf : ∀ a ∈ as, ∀ v qs, (f a).Gives v qs → Writes dialect whole v qs)
    (h : (Render.each f as).Gives vs ps) : Writes dialect whole (.arr vs) ps := by
  induction as generalizing vs ps with
  | nil =>
    obtain ⟨rfl, rfl⟩ := Render.gives_each_nil.mp h
    exact arr_nil
  | cons a as ih =>
    obtain ⟨hfirst, hrest⟩ := List.forall_mem_cons.mp hf
    obtain ⟨v, ws, qs, rs, hv, hws, rfl, rfl⟩ := Render.gives_each_cons.mp h
    exact (hfirst v qs hv).arr_cons (ih hrest hws)

theorem obj_of_each {f : α → Render (String × Json)} {as : List α}
    (hf : ∀ a ∈ as, ∀ e qs, (f a).Gives e qs → dialect.Safe e.1 ∧ Writes dialect whole e.2 qs)
    (h : (Render.each f as).Gives es ps) : Writes dialect whole (.obj es) ps := by
  induction as generalizing es ps with
  | nil =>
    obtain ⟨rfl, rfl⟩ := Render.gives_each_nil.mp h
    exact obj_nil
  | cons a as ih =>
    obtain ⟨hfirst, hrest⟩ := List.forall_mem_cons.mp hf
    obtain ⟨e, fs, qs, rs, he, hfs, rfl, rfl⟩ := Render.gives_each_cons.mp h
    obtain ⟨hkey, he⟩ := hfirst e qs he
    exact obj_cons hkey he (ih hrest hfs)

theorem obj_of_entriesBy {κ : Type} [LT κ] {k : κ → String} {f : α → Render Json}
    {m : OrderedMap κ α} (hk : ∀ a ∈ m.keys, dialect.Safe (k a))
    (hf : ∀ a v qs, (f a).Gives v qs → Writes dialect whole v qs)
    (h : (Render.entriesBy k f m).Gives es ps) : Writes dialect whole (.obj es) ps := by
  refine obj_of_each (fun e he e' qs hgives => ?_) h
  obtain ⟨v, hv, rfl⟩ := Render.gives_entry.mp hgives
  exact ⟨hk e.1 (List.mem_map_of_mem he), hf e.2 v qs hv⟩

theorem keys_of_each {f : α → Render (String × Json)} {k : α → String} {as : List α}
    (hf : ∀ a e qs, (f a).Gives e qs → e.1 = k a) (h : (Render.each f as).Gives es ps) :
    Entries.keys es = as.map k := by
  induction as generalizing es ps with
  | nil =>
    obtain ⟨rfl, -⟩ := Render.gives_each_nil.mp h
    rfl
  | cons a as ih =>
    obtain ⟨e, fs, qs, rs, he, hfs, rfl, -⟩ := Render.gives_each_cons.mp h
    rw [Entries.keys, List.map_cons, List.map_cons, hf a e qs he]
    exact congrArg _ (ih hfs)

theorem keys_of_entriesBy {κ : Type} [LT κ] {k : κ → String} {f : α → Render Json}
    {m : OrderedMap κ α} (h : (Render.entriesBy k f m).Gives es ps) :
    Entries.keys es = m.keys.map k := by
  rw [OrderedMap.keys, List.map_map]
  refine keys_of_each (fun e e' qs he => ?_) h
  obtain ⟨v, -, rfl⟩ := Render.gives_entry.mp he
  rfl

theorem params_of_isEmpty {κ : Type} [LT κ] {k : κ → String} {f : α → Render Json}
    {m : OrderedMap κ α} (hm : m.isEmpty = true) (h : (Render.entriesBy k f m).Gives es ps) :
    ps = [] := by
  rw [Render.entriesBy, List.isEmpty_iff.mp hm] at h
  exact (Render.gives_each_nil.mp h).2

end Parts

/-! ### Parts that may be missing -/

theorem obj_optional {α : Type} {f : α → Render Json} {o : Option α} {r : Option Json}
    (hkey : dialect.Safe key) (hf : ∀ a v qs, (f a).Gives v qs → Writes dialect whole v qs)
    (h : (Render.optional f o).Gives r ps) :
    Writes dialect whole (.obj (Entries.optional key r)) ps := by
  rcases Render.gives_optional.mp h with ⟨-, rfl, rfl⟩ | ⟨a, v, -, rfl, hv⟩
  · exact obj_nil
  · exact single hkey (hf a v ps hv)

theorem obj_optional_placeholder (hkey : dialect.Safe key) (o : Option Param) :
    Writes dialect whole (.obj (Entries.optional key (o.map fun p => .str p.placeholder)))
      o.toList := by
  cases o with
  | none => exact obj_nil
  | some p => exact single hkey (placeholder p)

theorem obj_when {cond : Bool} (hkey : dialect.Safe key)
    (hv : cond = true → Writes dialect whole v ps) (hps : cond = false → ps = []) :
    Writes dialect whole (.obj (Entries.when cond key v)) ps := by
  cases cond with
  | true => exact single hkey (hv rfl)
  | false =>
    rw [hps rfl]
    exact obj_nil

theorem obj_optional_unless {cond : Bool} (hkey : dialect.Safe key)
    (hv : cond = false → Writes dialect whole v ps) (hps : cond = true → ps = []) :
    Writes dialect whole (.obj (Entries.optional key (if cond then none else some v))) ps := by
  cases cond with
  | true =>
    rw [hps rfl]
    exact obj_nil
  | false => exact single hkey (hv rfl)

theorem pagination (value : Pagination) (v : Json) (ps : List Param)
    (h : (Render.pagination value).Gives v ps) : Writes dialect whole v ps := by
  cases value with
  | fixed n =>
    obtain ⟨rfl, rfl⟩ := Render.gives_pure.mp h
    exact plain rfl rfl
  | bound p =>
    obtain ⟨rfl, rfl⟩ := Render.gives_placeholder.mp h
    exact placeholder p

end Writes

end DocumentQuery

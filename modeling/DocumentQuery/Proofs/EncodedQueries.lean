import Mathlib.Data.List.Nodup
import DocumentQuery.Builder
import DocumentQuery.Query.Encoding
import DocumentQuery.Proofs.FilterFormula
/-!
# Encoded queries are told apart

Everything that a query holds goes into its encoding, but for one thing: a map keyed by
fields is written with the paths alone. Where the collections of such fields are known, the
encoding determines the query. Alternatives have tags of their own, what is absent is
written as `null` and nothing else is, and lists and maps are written entry by entry, so
it is enough to compare the encodings part by part.

Main definitions:
* `FilterKind.tag`, `StageKind.tag`: the tags of the alternatives.
* `Query.KeyedInTarget`: the fields that are keys belong to the target.

Results:
* `Filter.toJson_inj`, `Expression.toJson_inj`, `Stage.toJson_inj`: trees of any
  depth are determined by what is written for them.
* `pathEntries_inj`: so are maps keyed by fields of one collection.
* `Query.encoding_determines`: so are queries whose keys belong to the target.
-/
namespace DocumentQuery

open Function (Injective)

/-! ## Lists, options and tags -/

section Encoders

variable {α β : Type}

/-- A function is injective if it has distinct values along a list of everything. -/
theorem injective_of_nodup_map {f : α → β} (all : List α) (hall : ∀ a, a ∈ all)
    (h : (all.map f).Nodup) : Injective f :=
  fun a b heq => List.inj_on_of_nodup_map h (hall a) (hall b) heq

/-- Lists are determined by their images if their elements are. -/
theorem map_inj_of_forall {f : α → β} {P : α → Prop}
    (hf : ∀ a b, P a → P b → f a = f b → a = b) :
    ∀ {l m : List α}, (∀ a ∈ l, P a) → (∀ a ∈ m, P a) → l.map f = m.map f → l = m
  | [], [], _, _, _ => rfl
  | [], b :: m, _, _, h => by simp at h
  | a :: l, [], _, _, h => by simp at h
  | a :: l, b :: m, hl, hm, h => by
    obtain ⟨ha, hl⟩ := List.forall_mem_cons.mp hl
    obtain ⟨hb, hm⟩ := List.forall_mem_cons.mp hm
    obtain ⟨hhead, htail⟩ := List.cons.inj h
    rw [hf a b ha hb hhead, map_inj_of_forall hf hl hm htail]

/-- What is absent is told from what is there, if nothing else is written as `null`. -/
theorem Json.ofOption_map_inj {f : α → Json} (hf : Injective f) (hnull : ∀ a, f a ≠ .null)
    {o o' : Option α} : Json.ofOption (o.map f) = Json.ofOption (o'.map f) ↔ o = o' := by
  refine ⟨fun h => ?_, fun h => h ▸ rfl⟩
  cases o with
  | none =>
    cases o' with
    | none => rfl
    | some b => exact absurd h.symm (hnull b)
  | some a =>
    cases o' with
    | none => exact absurd h (hnull a)
    | some b => exact congrArg some (hf h)

end Encoders

/-! ## Names of alternatives -/

@[simp] theorem SortOrder.encodedName_inj {a b : SortOrder} :
    a.encodedName = b.encodedName ↔ a = b :=
  (injective_of_nodup_map [.ascending, .descending] (by intro order; cases order <;> decide)
    (by decide)).eq_iff

/-- The tag of a filter of each shape. -/
def FilterKind.tag : FilterKind → String
  | .condition => "condition"
  | .group => "group"
  | .range => "range"
  | .regex => "regex"
  | .textSearch => "text_search"
  | .geo => "geo"
  | .array => "array"
  | .elemMatch => "elem_match"
  | .presence => "exists"

theorem FilterKind.tag_inj {a b : FilterKind} : a.tag = b.tag ↔ a = b :=
  (injective_of_nodup_map [.condition, .group, .range, .regex, .textSearch, .geo, .array,
    .elemMatch, .presence] (by intro kind; cases kind <;> decide) (by decide)).eq_iff

/-- The tag of a stage of each kind. -/
def StageKind.tag : StageKind → String
  | .match => "match"
  | .project => "project"
  | .group => "group"
  | .sort => "sort"
  | .limit => "limit"
  | .skip => "skip"
  | .unwind => "unwind"
  | .lookup => "lookup"
  | .addFields => "add_fields"
  | .replaceRoot => "replace_root"
  | .count => "count"
  | .facet => "facet"
  | .bucket => "bucket"

theorem StageKind.tag_inj {a b : StageKind} : a.tag = b.tag ↔ a = b :=
  (injective_of_nodup_map Vocabulary.all Vocabulary.mem_all (by decide)).eq_iff

/-! ## References -/

@[simp] theorem Collection.toJson_inj {c d : Collection} : c.toJson = d.toJson ↔ c = d := by
  cases c; cases d; simp [toJson]

@[simp] theorem Field.toJson_inj {f g : Field} : f.toJson = g.toJson ↔ f = g := by
  cases f; cases g; simp [toJson]

@[simp] theorem Param.toJson_inj {p p' : Param} : p.toJson = p'.toJson ↔ p = p' := by
  cases p; cases p'; simp [toJson]

@[simp] theorem Param.optionToJson_inj {o o' : Option Param} :
    Param.optionToJson o = Param.optionToJson o' ↔ o = o' :=
  Json.ofOption_map_inj (fun _ _ => Param.toJson_inj.mp) fun p h => by cases h

/-! ## Filters -/

theorem RangeFilter.entries_inj {r r' : RangeFilter} : r.entries = r'.entries ↔ r = r' := by
  cases r; cases r'; simp [entries]

theorem TextSearch.entries_inj {t t' : TextSearch} : t.entries = t'.entries ↔ t = t' := by
  cases t; cases t'; simp [entries]

theorem GeoFilter.entries_inj {g g' : GeoFilter} : g.entries = g'.entries ↔ g = g' := by
  cases g; cases g'; simp [entries, and_assoc]

namespace Filter

@[simp] theorem tagged_inj {kind kind' : String} {parts parts' : Entries} :
    tagged kind parts = tagged kind' parts' ↔ kind = kind' ∧ parts = parts' := by
  simp [tagged]

theorem exists_tagged (f : Filter) : ∃ parts, f.toJson = tagged f.kind.tag parts := by
  cases f <;> exact ⟨_, by rw [toJson]; rfl⟩

/-- The tag tells the shape. -/
theorem kind_eq_of_toJson_eq {f g : Filter} (h : f.toJson = g.toJson) : f.kind = g.kind := by
  obtain ⟨parts, hf⟩ := exists_tagged f
  obtain ⟨parts', hg⟩ := exists_tagged g
  rw [hf, hg, tagged_inj] at h
  exact FilterKind.tag_inj.mp h.1

mutual

theorem eq_of_toJson_eq : ∀ {f g : Filter}, f.toJson = g.toJson → f = g
  | .condition field operator value, g, h => by
    cases g with
    | condition field' operator' value' => simpa [toJson, testEntries] using h
    | _ => cases kind_eq_of_toJson_eq h
  | .group logic conditions, g, h => by
    cases g with
    | group logic' conditions' =>
      obtain ⟨hlogic, hconditions⟩ : logic = logic' ∧
          listToJson conditions = listToJson conditions' := by simpa [toJson] using h
      rw [hlogic, eq_of_listToJson_eq hconditions]
    | _ => cases kind_eq_of_toJson_eq h
  | .range r, g, h => by
    cases g with
    | range r' => simpa [toJson, RangeFilter.entries_inj] using h
    | _ => cases kind_eq_of_toJson_eq h
  | .regex field pattern options, g, h => by
    cases g with
    | regex field' pattern' options' => simpa [toJson] using h
    | _ => cases kind_eq_of_toJson_eq h
  | .textSearch t, g, h => by
    cases g with
    | textSearch t' => simpa [toJson, TextSearch.entries_inj] using h
    | _ => cases kind_eq_of_toJson_eq h
  | .geo l, g, h => by
    cases g with
    | geo l' => simpa [toJson, GeoFilter.entries_inj] using h
    | _ => cases kind_eq_of_toJson_eq h
  | .array field operator value, g, h => by
    cases g with
    | array field' operator' value' => simpa [toJson, testEntries] using h
    | _ => cases kind_eq_of_toJson_eq h
  | .elemMatch field conditions, g, h => by
    cases g with
    | elemMatch field' conditions' =>
      obtain ⟨hfield, hconditions⟩ : field = field' ∧
          listToJson conditions = listToJson conditions' := by simpa [toJson] using h
      rw [hfield, eq_of_listToJson_eq hconditions]
    | _ => cases kind_eq_of_toJson_eq h
  | .presence field present, g, h => by
    cases g with
    | presence field' present' => simpa [toJson] using h
    | _ => cases kind_eq_of_toJson_eq h

theorem eq_of_listToJson_eq : ∀ {fs gs : List Filter}, listToJson fs = listToJson gs → fs = gs
  | [], [], _ => rfl
  | [], _ :: _, h => by simp [listToJson] at h
  | _ :: _, [], h => by simp [listToJson] at h
  | f :: fs, g :: gs, h => by
    rw [listToJson, listToJson] at h
    obtain ⟨hf, hfs⟩ := List.cons.inj h
    rw [eq_of_toJson_eq hf, eq_of_listToJson_eq hfs]

end

@[simp] theorem toJson_inj {f g : Filter} : f.toJson = g.toJson ↔ f = g :=
  ⟨eq_of_toJson_eq, fun h => h ▸ rfl⟩

theorem toJson_ne_null (f : Filter) : f.toJson ≠ .null := by
  obtain ⟨parts, hparts⟩ := exists_tagged f
  rw [hparts]
  exact fun h => by cases h

end Filter

/-! ## Expressions -/

namespace Expression

mutual

theorem eq_of_toJson_eq : ∀ {e e' : Expression}, e.toJson = e'.toJson → e = e'
  | .field f, e', h => by
    cases e' with
    | field f' => simpa [toJson] using h
    | _ => simp [toJson] at h
  | .literal p, e', h => by
    cases e' with
    | literal p' => simpa [toJson] using h
    | _ => simp [toJson] at h
  | .operator op args, e', h => by
    cases e' with
    | operator op' args' =>
      obtain ⟨hop, hargs⟩ : op = op' ∧ listToJson args = listToJson args' := by
        simpa [toJson] using h
      rw [hop, eq_of_listToJson_eq hargs]
    | _ => simp [toJson] at h
  | .conditional condition consequence alternative, e', h => by
    cases e' with
    | conditional condition' consequence' alternative' =>
      obtain ⟨hif, hthen, helse⟩ : condition.toJson = condition'.toJson ∧
          consequence.toJson = consequence'.toJson ∧ alternative.toJson = alternative'.toJson := by
        simpa [toJson] using h
      rw [eq_of_toJson_eq hif, eq_of_toJson_eq hthen, eq_of_toJson_eq helse]
    | _ => simp [toJson] at h

theorem eq_of_listToJson_eq : ∀ {es es' : List Expression},
    listToJson es = listToJson es' → es = es'
  | [], [], _ => rfl
  | [], _ :: _, h => by simp [listToJson] at h
  | _ :: _, [], h => by simp [listToJson] at h
  | e :: es, e' :: es', h => by
    rw [listToJson, listToJson] at h
    obtain ⟨he, hes⟩ := List.cons.inj h
    rw [eq_of_toJson_eq he, eq_of_listToJson_eq hes]

end

@[simp] theorem toJson_inj {e e' : Expression} : e.toJson = e'.toJson ↔ e = e' :=
  ⟨eq_of_toJson_eq, fun h => h ▸ rfl⟩

@[simp] theorem ofOption_inj {o o' : Option Expression} :
    Json.ofOption (o.map toJson) = Json.ofOption (o'.map toJson) ↔ o = o' :=
  Json.ofOption_map_inj (fun _ _ => eq_of_toJson_eq) fun e => by
    cases e <;> simp [toJson, Filter.tagged]

end Expression

@[simp] theorem Accumulator.toJson_inj {a a' : Accumulator} : a.toJson = a'.toJson ↔ a = a' := by
  cases a; cases a'; simp [toJson]

/-! ## Selections -/

@[simp] theorem Slice.toJson_inj {s s' : Slice} : s.toJson = s'.toJson ↔ s = s' := by
  cases s; cases s'; simp [toJson]

@[simp] theorem ProjectionField.toJson_inj {p p' : ProjectionField} :
    p.toJson = p'.toJson ↔ p = p' := by
  have hslice : ∀ {o o' : Option Slice},
      Json.ofOption (o.map Slice.toJson) = Json.ofOption (o'.map Slice.toJson) ↔ o = o' :=
    Json.ofOption_map_inj (fun _ _ => Slice.toJson_inj.mp) fun s h => by cases h
  have hmatch : ∀ {o o' : Option (List Filter)},
      Json.ofOption (o.map fun fs => .arr (Filter.listToJson fs)) =
        Json.ofOption (o'.map fun fs => .arr (Filter.listToJson fs)) ↔ o = o' :=
    Json.ofOption_map_inj (fun _ _ h => Filter.eq_of_listToJson_eq (Json.arr.inj h))
      fun fs h => by cases h
  cases p; cases p'; simp [toJson, hslice, hmatch]

@[simp] theorem Projection.toJson_inj {p p' : Projection} : p.toJson = p'.toJson ↔ p = p' := by
  have hfields : Injective (List.map ProjectionField.toJson) :=
    List.map_injective_iff.mpr fun _ _ => ProjectionField.toJson_inj.mp
  cases p; cases p'; simp [toJson, hfields.eq_iff]

@[simp] theorem SortClause.toJson_inj {s s' : SortClause} : s.toJson = s'.toJson ↔ s = s' := by
  cases s; cases s'; simp [toJson]

@[simp] theorem SortClause.map_toJson_inj {l l' : List SortClause} :
    l.map SortClause.toJson = l'.map SortClause.toJson ↔ l = l' :=
  (List.map_injective_iff.mpr fun _ _ => SortClause.toJson_inj.mp).eq_iff

theorem Json.nat_inj {m n : Nat} : Json.nat m = Json.nat n ↔ m = n := by
  rw [Json.nat, Json.nat, Json.int.injEq, Int.natCast_inj]

@[simp] theorem Pagination.toJson_inj {p p' : Pagination} : p.toJson = p'.toJson ↔ p = p' := by
  cases p <;> cases p' <;> simp [toJson, Json.nat_inj]

/-! ## Maps -/

/-- A map keyed by names is written entry by entry. -/
theorem Stage.namedToJson_inj {α : Type} {value : α → Json} (hvalue : Injective value)
    {m m' : Named α} : namedToJson value m = namedToJson value m' ↔ m = m' := by
  refine ⟨fun h => OrderedMap.ext ?_, fun h => h ▸ rfl⟩
  have hentry : Injective fun e : String × α => (e.1, value e.2) := by
    intro e e' h
    obtain ⟨hname, ha⟩ := Prod.mk.inj h
    exact Prod.ext hname (hvalue ha)
  exact List.map_injective_iff.mpr hentry (Json.obj.inj h)

/-- A map keyed by fields is written with their paths, which tell the fields of one collection. -/
theorem pathEntries_inj {α : Type} {value : α → Json} (hvalue : Injective value)
    {collection : String} {m m' : OrderedMap Field α}
    (hm : ∀ f ∈ m.keys, f.collection = collection)
    (hm' : ∀ f ∈ m'.keys, f.collection = collection)
    (h : pathEntries value m = pathEntries value m') : m = m' := by
  have hentry : ∀ e e' : Field × α, e.1.collection = collection → e'.1.collection = collection →
      (e.1.path, value e.2) = (e'.1.path, value e'.2) → e = e' := by
    intro e e' he he' h
    obtain ⟨hpath, ha⟩ := Prod.mk.inj h
    exact Prod.ext (Field.ext hpath (he.trans he'.symm)) (hvalue ha)
  exact OrderedMap.ext (map_inj_of_forall hentry (List.forall_mem_map.mp hm)
    (List.forall_mem_map.mp hm') h)

/-! ## Stages -/

namespace Stage

@[simp] theorem tagged_inj {kind kind' : String} {parts parts' : Entries} :
    tagged kind parts = tagged kind' parts' ↔ kind = kind' ∧ parts = parts' := by
  simp [tagged]

theorem exists_tagged (s : Stage) : ∃ parts, s.toJson = tagged s.kind.tag parts := by
  cases s <;> exact ⟨_, by rw [toJson]; rfl⟩

/-- The tag tells the kind. -/
theorem kind_eq_of_toJson_eq {s t : Stage} (h : s.toJson = t.toJson) : s.kind = t.kind := by
  obtain ⟨parts, hs⟩ := exists_tagged s
  obtain ⟨parts', ht⟩ := exists_tagged t
  rw [hs, ht, tagged_inj] at h
  exact StageKind.tag_inj.mp h.1

@[simp] theorem named_expressions_inj {m m' : Named Expression} :
    namedToJson Expression.toJson m = namedToJson Expression.toJson m' ↔ m = m' :=
  namedToJson_inj fun _ _ => Expression.toJson_inj.mp

@[simp] theorem named_accumulators_inj {m m' : Named Accumulator} :
    namedToJson Accumulator.toJson m = namedToJson Accumulator.toJson m' ↔ m = m' :=
  namedToJson_inj fun _ _ => Accumulator.toJson_inj.mp

mutual

theorem eq_of_toJson_eq : ∀ {s t : Stage}, s.toJson = t.toJson → s = t
  | .filter f, t, h => by
    cases t with
    | filter f' => simpa [toJson] using h
    | _ => cases kind_eq_of_toJson_eq h
  | .project projection computed, t, h => by
    cases t with
    | project projection' computed' => simpa [toJson] using h
    | _ => cases kind_eq_of_toJson_eq h
  | .group id accumulators, t, h => by
    cases t with
    | group id' accumulators' => simpa [toJson] using h
    | _ => cases kind_eq_of_toJson_eq h
  | .sort sorts, t, h => by
    cases t with
    | sort sorts' => simpa [toJson] using h
    | _ => cases kind_eq_of_toJson_eq h
  | .limit value, t, h => by
    cases t with
    | limit value' => simpa [toJson] using h
    | _ => cases kind_eq_of_toJson_eq h
  | .skip value, t, h => by
    cases t with
    | skip value' => simpa [toJson] using h
    | _ => cases kind_eq_of_toJson_eq h
  | .unwind path includeArrayIndex preserve, t, h => by
    cases t with
    | unwind path' includeArrayIndex' preserve' =>
      have hname : ∀ {o o' : Option String},
          Json.ofOption (o.map .str) = Json.ofOption (o'.map .str) ↔ o = o' :=
        Json.ofOption_map_inj (fun _ _ => Json.str.inj) fun s h => by cases h
      simpa [toJson, hname] using h
    | _ => cases kind_eq_of_toJson_eq h
  | .lookup source localField foreignField output pipeline bindings, t, h => by
    cases t with
    | lookup source' localField' foreignField' output' pipeline' bindings' =>
      obtain ⟨hsource, hlocal, hforeign, houtput, hpipeline, hbindings⟩ : source = source' ∧
          localField = localField' ∧ foreignField = foreignField' ∧ output = output' ∧
          listToJson pipeline = listToJson pipeline' ∧ bindings = bindings' := by
        simpa [toJson] using h
      rw [hsource, hlocal, hforeign, houtput, hbindings, eq_of_listToJson_eq hpipeline]
    | _ => cases kind_eq_of_toJson_eq h
  | .addFields fields, t, h => by
    cases t with
    | addFields fields' => simpa [toJson] using h
    | _ => cases kind_eq_of_toJson_eq h
  | .replaceRoot newRoot, t, h => by
    cases t with
    | replaceRoot newRoot' => simpa [toJson] using h
    | _ => cases kind_eq_of_toJson_eq h
  | .count name, t, h => by
    cases t with
    | count name' => simpa [toJson] using h
    | _ => cases kind_eq_of_toJson_eq h
  | .facet facets, t, h => by
    cases t with
    | facet facets' =>
      have hfacets : facetsToJson facets = facetsToJson facets' := by
        simpa [toJson] using h
      rw [eq_of_facetsToJson_eq hfacets]
    | _ => cases kind_eq_of_toJson_eq h
  | .bucket groupBy boundaries fallback output, t, h => by
    cases t with
    | bucket groupBy' boundaries' fallback' output' =>
      have hboundaries : Injective (List.map Param.toJson) :=
        List.map_injective_iff.mpr fun _ _ => Param.toJson_inj.mp
      simpa [toJson, hboundaries.eq_iff] using h
    | _ => cases kind_eq_of_toJson_eq h

theorem eq_of_listToJson_eq : ∀ {ss ts : List Stage}, listToJson ss = listToJson ts → ss = ts
  | [], [], _ => rfl
  | [], _ :: _, h => by simp [listToJson] at h
  | _ :: _, [], h => by simp [listToJson] at h
  | s :: ss, t :: ts, h => by
    rw [listToJson, listToJson] at h
    obtain ⟨hs, hss⟩ := List.cons.inj h
    rw [eq_of_toJson_eq hs, eq_of_listToJson_eq hss]

theorem eq_of_facetsToJson_eq : ∀ {facets facets' : List (String × List Stage)},
    facetsToJson facets = facetsToJson facets' → facets = facets'
  | [], [], _ => rfl
  | [], _ :: _, h => by simp [facetsToJson] at h
  | _ :: _, [], h => by simp [facetsToJson] at h
  | (name, stages) :: rest, (name', stages') :: rest', h => by
    obtain ⟨hname, hstages, hrest⟩ : name = name' ∧ listToJson stages = listToJson stages' ∧
        facetsToJson rest = facetsToJson rest' := by simpa [facetsToJson, and_assoc] using h
    rw [hname, eq_of_listToJson_eq hstages, eq_of_facetsToJson_eq hrest]

end

theorem toJson_inj {s t : Stage} : s.toJson = t.toJson ↔ s = t :=
  ⟨eq_of_toJson_eq, fun h => h ▸ rfl⟩

end Stage

/-! ## Queries -/

/-- The fields of the document belong to the collection. -/
def Document.KeyedIn (collection : String) (d : Document) : Prop :=
  ∀ f ∈ d.fields.keys, f.collection = collection

/-- The fields of the operation belong to the collection. -/
def UpdateOperation.KeyedIn (collection : String) (op : UpdateOperation) : Prop :=
  ∀ f ∈ op.fields.keys, f.collection = collection

theorem Document.eq_of_toJson_eq {collection : String} (d d' : Document)
    (hd : d.KeyedIn collection) (hd' : d'.KeyedIn collection) (h : d.toJson = d'.toJson) :
    d = d' := by
  have hfields : pathEntries Param.toJson d.fields = pathEntries Param.toJson d'.fields := by
    simpa [toJson] using h
  have hmap := pathEntries_inj (fun _ _ => Param.toJson_inj.mp) hd hd' hfields
  cases d
  cases d'
  exact congrArg Document.mk hmap

theorem UpdateOperation.eq_of_toJson_eq {collection : String} (op op' : UpdateOperation)
    (hop : op.KeyedIn collection) (hop' : op'.KeyedIn collection) (h : op.toJson = op'.toJson) :
    op = op' := by
  obtain ⟨hoperator, hfields⟩ : op.operator = op'.operator ∧
      pathEntries Param.optionToJson op.fields = pathEntries Param.optionToJson op'.fields := by
    simpa [toJson] using h
  have hmap := pathEntries_inj (fun _ _ => Param.optionToJson_inj.mp) hop hop' hfields
  cases op
  cases op'
  exact congr (congrArg UpdateOperation.mk hoperator) hmap

namespace Query

/-- Every field that is a key of a document or of an update operation belongs to the target. -/
structure KeyedInTarget (q : Query) : Prop where
  documents : ∀ d ∈ q.documents, d.KeyedIn q.target.name
  updates : ∀ op ∈ q.updates, op.KeyedIn q.target.name

/-- The encoding of a query whose keys belong to the target determines the query. -/
theorem encoding_determines {q q' : Query} (hq : q.KeyedInTarget) (hq' : q'.KeyedInTarget)
    (h : q.toJson = q'.toJson) : q = q' := by
  have hprojection : ∀ {o o' : Option Projection},
      Json.ofOption (o.map Projection.toJson) = Json.ofOption (o'.map Projection.toJson) ↔ o = o' :=
    Json.ofOption_map_inj (fun _ _ => Projection.toJson_inj.mp) fun p h => by cases h
  have hcount : ∀ {o o' : Option Pagination},
      Json.ofOption (o.map Pagination.toJson) = Json.ofOption (o'.map Pagination.toJson) ↔ o = o' :=
    Json.ofOption_map_inj (fun _ _ => Pagination.toJson_inj.mp) fun p h => by cases p <;> cases h
  have hfilter : ∀ {o o' : Option Filter},
      Json.ofOption (o.map Filter.toJson) = Json.ofOption (o'.map Filter.toJson) ↔ o = o' :=
    Json.ofOption_map_inj (fun _ _ => Filter.toJson_inj.mp) Filter.toJson_ne_null
  have hfield : ∀ {o o' : Option Field},
      Json.ofOption (o.map Field.toJson) = Json.ofOption (o'.map Field.toJson) ↔ o = o' :=
    Json.ofOption_map_inj (fun _ _ => Field.toJson_inj.mp) fun f h => by cases h
  obtain ⟨operation, target, filter, projection, sort, skip, limit, documents, updates, upsert,
    pipeline, distinctField⟩ := q
  obtain ⟨operation', target', filter', projection', sort', skip', limit', documents', updates',
    upsert', pipeline', distinctField'⟩ := q'
  simp only [toJson, Json.obj.injEq, Json.str.injEq, Json.arr.injEq, Json.bool.injEq,
    List.cons.injEq, Prod.mk.injEq, EncodedVocabulary.encodedName_inj, Collection.toJson_inj,
    hfilter, hprojection, SortClause.map_toJson_inj, hcount, hfield, true_and, and_true] at h
  obtain ⟨rfl, rfl, rfl, rfl, rfl, rfl, rfl, hdocuments, hupdates, rfl, hpipeline, rfl⟩ := h
  have hdocuments : documents = documents' :=
    map_inj_of_forall Document.eq_of_toJson_eq hq.documents hq'.documents hdocuments
  have hupdates : updates = updates' :=
    map_inj_of_forall UpdateOperation.eq_of_toJson_eq hq.updates hq'.updates hupdates
  rw [hdocuments, hupdates, Stage.eq_of_listToJson_eq hpipeline]

end Query

/-- An update that changes one name. -/
def renamedOnce : List Call := [.change .set Users.name Users.label]

/-- The same update, with the name that is given at first changed again. -/
def renamedAgain : List Call :=
  [.change .set Users.name Users.given, .change .set Users.name Users.label]

theorem encoding_determines_renamed :
    ∃ q q', ((Builder.start .update Users.collection).run renamedOnce).build = .ok q ∧
      ((Builder.start .update Users.collection).run renamedAgain).build = .ok q' ∧
      q.KeyedInTarget ∧ q'.KeyedInTarget ∧ q.toJson = q'.toJson ∧ q = q' := by
  obtain ⟨q, hq⟩ : ∃ q,
      ((Builder.start .update Users.collection).run renamedOnce).build = .ok q := ⟨_, rfl⟩
  obtain ⟨q', hq'⟩ : ∃ q',
      ((Builder.start .update Users.collection).run renamedAgain).build = .ok q' := ⟨_, rfl⟩
  obtain ⟨hkeyed, hkeyed', heq⟩ : q.KeyedInTarget ∧ q'.KeyedInTarget ∧ q.toJson = q'.toJson := by
    cases hq
    cases hq'
    refine ⟨⟨(fun d hd => by cases hd), fun op hop f hf => ?_⟩,
      ⟨(fun d hd => by cases hd), fun op hop f hf => ?_⟩, rfl⟩
    · obtain rfl := List.mem_singleton.mp hop
      obtain rfl := List.mem_singleton.mp hf
      rfl
    · obtain rfl := List.mem_singleton.mp hop
      obtain rfl := List.mem_singleton.mp hf
      rfl
  exact ⟨q, q', hq, hq', hkeyed, hkeyed', heq, Query.encoding_determines hkeyed hkeyed' heq⟩

end DocumentQuery

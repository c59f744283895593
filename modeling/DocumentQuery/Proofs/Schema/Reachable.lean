import Mathlib.Data.List.Nodup
import DocumentQuery.Proofs.Names
import DocumentQuery.Schema.Catalog
/-!
# Reachable definitions

A definition is reachable if it stands in a list of definitions, or among the
children of one that is reachable. The names on the way to it, with dots between
them, are its full path. Identifiers have no dots, so the path gives the names
back, and the names give the definition back as long as siblings have different
names.

Main definitions:
* `FieldDefinition.Reaches`: the names lead from a list to a definition.
* `FieldDefinition.listing`: the reachable definitions with their names, parents
  before children.
* `FieldDefinition.fullPath`: the names with dots between them.
* `FieldDefinition.Distinct`: no two siblings have the same name.
* `FieldDefinition.trimmed`: a definition without those inside it that do not count.

Results:
* `induction_on_children`: induction over a list, by the children of its first
  definition and by its rest.
* `mem_listingOfAll_iff`: the listing has the reachable definitions.
* `fullPath_injective`: the path of identifiers gives them back.
* `nodup_namesOfAll_iff`: names lead to different definitions exactly if siblings
  are distinct.
-/
namespace DocumentQuery

namespace FieldDefinition

/-! ## Lists of definitions -/

/-- Induction over a list of definitions goes to the children of the first one and to the rest. -/
theorem induction_on_children {P : List FieldDefinition → Prop} (nil : P [])
    (cons : ∀ d ds, P d.children → P ds → P (d :: ds)) : ∀ ds, P ds := by
  -- a definition holds its children in one of two lists, so both are covered by the recursor
  refine @FieldDefinition.rec_1 (fun d => P d.children) P
    (fun o => ∀ e, o = some e → P e.fields) (fun e => P e.fields) ?_ nil cons ?_ ?_ ?_
  · intro name type required fields items hfields hitems
    unfold children
    split
    · rename_i heq
      cases heq
      exact hfields
    · rename_i heq
      cases heq
      exact hitems _ rfl
    · exact nil
  · intro e he
    cases he
  · intro e he e' heq
    cases heq
    exact he
  · intro type fields hfields
    exact hfields

/-- The names lead from the list to the definition, by way of children that count. -/
inductive Reaches : List FieldDefinition → List String → FieldDefinition → Prop
  | here {ds : List FieldDefinition} {d : FieldDefinition} (h : d ∈ ds) : Reaches ds [d.name] d
  | child {ds : List FieldDefinition} {d e : FieldDefinition} {names : List String} (h : d ∈ ds)
      (hchild : Reaches d.children names e) : Reaches ds (d.name :: names) e

mutual

/-- A definition and those below it that count, each with the names that lead there. -/
def listing : FieldDefinition → List (List String × FieldDefinition)
  | .mk name type required fields items =>
    let below := match type, items with
      | .object, _ => listingOfAll fields
      | .array, some ⟨.object, fields⟩ => listingOfAll fields
      | _, _ => []
    ([name], .mk name type required fields items) :: below.map fun e => (name :: e.1, e.2)

/-- The listings of several definitions. -/
def listingOfAll : List FieldDefinition → List (List String × FieldDefinition)
  | [] => []
  | d :: ds => listing d ++ listingOfAll ds

end

theorem listing_eq (d : FieldDefinition) :
    d.listing = ([d.name], d) :: (listingOfAll d.children).map fun e => (d.name :: e.1, e.2) := by
  obtain ⟨name, type, required, fields, items⟩ := d
  cases type with
  | array =>
    rcases items with _ | ⟨type, fields⟩
    · rfl
    · cases type <;> rfl
  | _ => rfl

theorem listingOfAll_cons (d : FieldDefinition) (ds : List FieldDefinition) :
    listingOfAll (d :: ds) =
      ([d.name], d) :: (listingOfAll d.children).map (fun e => (d.name :: e.1, e.2)) ++
        listingOfAll ds := by
  rw [listingOfAll, listing_eq]

/-! ## What is listed -/

section Reaches

variable {d e : FieldDefinition} {ds : List FieldDefinition} {names : List String}

theorem reaches_cons_iff :
    Reaches (d :: ds) names e ↔
      (names = [d.name] ∧ e = d) ∨ (∃ ns, names = d.name :: ns ∧ Reaches d.children ns e) ∨
        Reaches ds names e := by
  constructor
  · intro h
    cases h with
    | here h =>
      rcases List.mem_cons.mp h with rfl | h
      · exact .inl ⟨rfl, rfl⟩
      · exact .inr (.inr (.here h))
    | child h hchild =>
      rcases List.mem_cons.mp h with rfl | h
      · exact .inr (.inl ⟨_, rfl, hchild⟩)
      · exact .inr (.inr (.child h hchild))
  · rintro (⟨rfl, rfl⟩ | ⟨ns, rfl, h⟩ | h)
    · exact .here List.mem_cons_self
    · exact .child List.mem_cons_self h
    · cases h with
      | here h => exact .here (List.mem_cons_of_mem d h)
      | child h hchild => exact .child (List.mem_cons_of_mem d h) hchild

/-- The listing has the reachable definitions with their names, and nothing else. -/
theorem mem_listingOfAll_iff : (names, e) ∈ listingOfAll ds ↔ Reaches ds names e := by
  induction ds using induction_on_children generalizing names with
  | nil =>
    constructor
    · intro h
      cases h
    · intro h
      cases h with
      | here h => cases h
      | child h _ => cases h
  | cons d ds ihchildren ihrest =>
    rw [listingOfAll_cons, reaches_cons_iff, List.cons_append, List.mem_cons, List.mem_append,
      List.mem_map, ihrest]
    refine or_congr (by rw [Prod.mk.injEq]) (or_congr ?_ Iff.rfl)
    constructor
    · intro h
      obtain ⟨⟨ns, e'⟩, hmem, heq⟩ := h
      cases heq
      exact ⟨ns, rfl, ihchildren.mp hmem⟩
    · intro h
      obtain ⟨ns, rfl, hreach⟩ := h
      exact ⟨(ns, e), ihchildren.mpr hreach, rfl⟩

theorem Reaches.ne_nil (h : Reaches ds names e) : names ≠ [] := by
  cases h <;> exact List.cons_ne_nil _ _

theorem Reaches.head (h : Reaches ds names e) : ∃ d ∈ ds, ∃ ns, names = d.name :: ns := by
  cases h with
  | here h => exact ⟨_, h, _, rfl⟩
  | child h _ => exact ⟨_, h, _, rfl⟩

/-- Each of the names is the name of a definition on the way. -/
theorem Reaches.name_of_mem (h : Reaches ds names e) :
    ∀ n ∈ names, ∃ ns d, Reaches ds ns d ∧ d.name = n := by
  induction h with
  | here h =>
    intro n hn
    obtain rfl := List.mem_singleton.mp hn
    exact ⟨_, _, .here h, rfl⟩
  | child h _ ih =>
    intro n hn
    rcases List.mem_cons.mp hn with rfl | hn
    · exact ⟨_, _, .here h, rfl⟩
    · obtain ⟨ns, d, hd, hname⟩ := ih n hn
      exact ⟨_, d, .child h hd, hname⟩

theorem Reaches.valid_names (hvalid : ∀ names d, Reaches ds names d → Identifier.Valid d.name)
    (h : Reaches ds names e) : ∀ n ∈ names, Identifier.Valid n := by
  intro n hn
  obtain ⟨ns, d, hd, rfl⟩ := h.name_of_mem n hn
  exact hvalid ns d hd

end Reaches

/-! ## Paths -/

/-- The names with dots between them. -/
def fullPath (names : List String) : String := ".".intercalate names

theorem splitOn_fullPath {names : List String} (hne : names ≠ [])
    (hvalid : ∀ n ∈ names, Identifier.Valid n) :
    (fullPath names).toList.splitOn '.' = names.map String.toList := by
  have hdots : ∀ cs ∈ names.map String.toList, '.' ∉ cs := by
    intro cs hcs
    obtain ⟨n, hn, rfl⟩ := List.mem_map.mp hcs
    exact (hvalid n hn).no_dot
  rw [fullPath, String.toList_intercalate]
  exact List.splitOn_intercalate '.' hdots (by simpa using hne)

/-- The path of identifiers gives them back. -/
theorem fullPath_injective {names names' : List String} (hne : names ≠ []) (hne' : names' ≠ [])
    (hvalid : ∀ n ∈ names, Identifier.Valid n) (hvalid' : ∀ n ∈ names', Identifier.Valid n)
    (h : fullPath names = fullPath names') : names = names' := by
  have hsplit := splitOn_fullPath hne hvalid
  rw [h, splitOn_fullPath hne' hvalid'] at hsplit
  exact (List.map_injective_iff.mpr fun _ _ => String.toList_inj.mp) hsplit.symm

/-! ## Distinct siblings -/

/-- No two siblings have the same name, neither in the list nor among the children of a definition
that is reachable from it. -/
structure Distinct (ds : List FieldDefinition) : Prop where
  siblings : (ds.map name).Nodup
  children : ∀ {names d}, Reaches ds names d → (d.children.map name).Nodup

theorem distinct_cons_iff {d : FieldDefinition} {ds : List FieldDefinition} :
    Distinct (d :: ds) ↔ d.name ∉ ds.map name ∧ Distinct d.children ∧ Distinct ds := by
  constructor
  · intro h
    obtain ⟨hfirst, hrest⟩ := List.nodup_cons.mp h.siblings
    refine ⟨hfirst, ⟨h.children (.here List.mem_cons_self), fun hreach => ?_⟩,
      ⟨hrest, fun hreach => ?_⟩⟩
    · exact h.children (.child List.mem_cons_self hreach)
    · exact h.children (reaches_cons_iff.mpr (.inr (.inr hreach)))
  · rintro ⟨hfirst, hchildren, hrest⟩
    refine ⟨List.nodup_cons.mpr ⟨hfirst, hrest.siblings⟩, fun hreach => ?_⟩
    rcases reaches_cons_iff.mp hreach with ⟨-, rfl⟩ | ⟨_, -, hreach⟩ | hreach
    · exact hchildren.siblings
    · exact hchildren.children hreach
    · exact hrest.children hreach

/-- The names that lead to the reachable definitions. -/
def namesOfAll (ds : List FieldDefinition) : List (List String) := (listingOfAll ds).map Prod.fst

theorem mem_namesOfAll_iff {ds : List FieldDefinition} {names : List String} :
    names ∈ namesOfAll ds ↔ ∃ e, Reaches ds names e := by
  simp only [namesOfAll, List.mem_map, Prod.exists, mem_listingOfAll_iff]
  constructor
  · intro h
    obtain ⟨_, e, hreach, rfl⟩ := h
    exact ⟨e, hreach⟩
  · intro h
    obtain ⟨e, hreach⟩ := h
    exact ⟨names, e, hreach, rfl⟩

theorem namesOfAll_cons (d : FieldDefinition) (ds : List FieldDefinition) :
    namesOfAll (d :: ds) =
      [d.name] :: (namesOfAll d.children).map (d.name :: ·) ++ namesOfAll ds := by
  simp [namesOfAll, listingOfAll_cons]

/-- Whatever starts at the first definition differs from whatever starts at the others exactly if
its name does. -/
theorem disjoint_namesOfAll_iff {d : FieldDefinition} {ds : List FieldDefinition} :
    (∀ ns ∈ [d.name] :: (namesOfAll d.children).map (d.name :: ·), ∀ ms ∈ namesOfAll ds, ns ≠ ms) ↔
      d.name ∉ ds.map name := by
  constructor
  · intro h hmem
    obtain ⟨e, he, hname⟩ := List.mem_map.mp hmem
    have hfirst : [e.name] ∈ namesOfAll ds := mem_namesOfAll_iff.mpr ⟨e, .here he⟩
    exact h [d.name] List.mem_cons_self [e.name] hfirst (by rw [hname])
  · intro h ns hns ms hms heq
    obtain ⟨tail, rfl⟩ : ∃ tail, ns = d.name :: tail := by
      rcases List.mem_cons.mp hns with rfl | hns
      · exact ⟨[], rfl⟩
      · obtain ⟨tail, -, rfl⟩ := List.mem_map.mp hns
        exact ⟨tail, rfl⟩
    obtain ⟨_, hreach⟩ := mem_namesOfAll_iff.mp hms
    obtain ⟨e, he, _, rfl⟩ := hreach.head
    exact h (List.mem_map.mpr ⟨e, he, (List.cons.inj heq).1.symm⟩)

/-- The names lead to different definitions exactly if siblings are distinct. -/
theorem nodup_namesOfAll_iff (ds : List FieldDefinition) : (namesOfAll ds).Nodup ↔ Distinct ds := by
  induction ds using induction_on_children with
  | nil =>
    refine ⟨fun _ => ⟨List.nodup_nil, fun hreach => ?_⟩, fun _ => List.nodup_nil⟩
    cases mem_listingOfAll_iff.mpr hreach
  | cons d ds ihchildren ihrest =>
    -- the first definition and those below it start alike, and only the latter have more names
    have hchildren : (([d.name] :: (namesOfAll d.children).map (d.name :: ·)).Nodup ↔
        (namesOfAll d.children).Nodup) := by
      rw [List.nodup_cons, List.nodup_map_iff (List.cons_injective)]
      refine and_iff_right fun hmem => ?_
      obtain ⟨ns, hns, heq⟩ := List.mem_map.mp hmem
      obtain ⟨_, hreach⟩ := mem_namesOfAll_iff.mp hns
      cases heq
      exact hreach.ne_nil rfl
    rw [distinct_cons_iff, ← ihchildren, ← ihrest, ← disjoint_namesOfAll_iff, namesOfAll_cons,
      List.nodup_append, hchildren]
    exact and_rotate.symm

theorem Distinct.reaches_unique {ds : List FieldDefinition} (h : Distinct ds) {names : List String}
    {d e : FieldDefinition} (hd : Reaches ds names d) (he : Reaches ds names e) : d = e := by
  have hnodup : (namesOfAll ds).Nodup := (nodup_namesOfAll_iff ds).mpr h
  have heq := List.inj_on_of_nodup_map hnodup (mem_listingOfAll_iff.mpr hd)
    (mem_listingOfAll_iff.mpr he) rfl
  exact (Prod.mk.inj heq).2

/-! ## Without what is not reachable -/

mutual

/-- The definition without the definitions inside it that do not count. -/
def trimmed : FieldDefinition → FieldDefinition
  | .mk name type required fields items =>
    match type, items with
    | .object, _ => .mk name .object required (trimmedAll fields) none
    | .array, some ⟨.object, fields⟩ =>
      .mk name .array required [] (some ⟨.object, trimmedAll fields⟩)
    | type, _ => .mk name type required [] none

/-- The definitions of a list without what does not count inside them. -/
def trimmedAll : List FieldDefinition → List FieldDefinition
  | [] => []
  | d :: ds => trimmed d :: trimmedAll ds

end

/-- A definition keeps all of its own when it is trimmed, and its children are trimmed in turn. -/
theorem trimmed_eq (d : FieldDefinition) : d.trimmed.name = d.name ∧ d.trimmed.type = d.type ∧
    d.trimmed.required = d.required ∧ d.trimmed.children = trimmedAll d.children := by
  obtain ⟨name, type, required, fields, items⟩ := d
  cases type with
  | array =>
    rcases items with _ | ⟨type, fields⟩
    · exact ⟨rfl, rfl, rfl, rfl⟩
    · cases type <;> exact ⟨rfl, rfl, rfl, rfl⟩
  | _ => exact ⟨rfl, rfl, rfl, rfl⟩

end FieldDefinition

end DocumentQuery

import DocumentQuery.Proofs.NameGrammar
import DocumentQuery.Proofs.Schema.EditDistance
import DocumentQuery.Proofs.Schema.References
import Mathlib.Data.List.Induction
import Mathlib.Data.String.Basic
/-!
# Suggestions of a catalog

For a name that is not listed a catalog offers the first of the nearest names that are,
unless all of them are too far. The search goes through the candidates once and keeps the
best one so far with its distance, which is what `exists_offers` says of any beginning of
the list. A catalog lists only names that it hands out, and a name that it does not find is
not one of them, so what it offers can be used and is never the name itself.

Main definitions:
* `Limit`: how far a candidate may be, by the length of the name.
* `FirstNearest`: the candidate is the first of the nearest.
* `Offers`: what is offered, of all candidates within the limit.
* `Suggests`: what is suggested for a name that is none of the candidates.

Results:
* `suggest_offers`: the search offers the first of the nearest.
* `Catalog.collection_error_cases`, `Catalog.field_error_cases`: why a catalog hands out
  nothing.
* `suggestions_usable`: its suggestions are the nearest listed names and can be used.
-/
namespace DocumentQuery

/-! ## The nearest candidate -/

/-- The greatest distance at which a candidate is offered for a name of so many characters. -/
inductive Limit : Nat → Nat → Prop
  | short {length : Nat} (h : length ≤ 2) : Limit length 0
  | middle {length : Nat} (h : 3 ≤ length) (h' : length ≤ 5) : Limit length 2
  | long {length : Nat} (h : 6 ≤ length) : Limit length 3

theorem limit_suggestionThreshold (length : Nat) : Limit length (suggestionThreshold length) := by
  unfold suggestionThreshold
  split
  · exact .short ‹_›
  · split
    · exact .middle (by omega) ‹_›
    · exact .long (by omega)

/-- The candidate is the first of those that are nearest to the name. -/
def FirstNearest (name : String) (candidates : List String) (x : String) : Prop :=
  ∃ front back, candidates = front ++ x :: back ∧
    (∀ y ∈ front, editDistance name x < editDistance name y) ∧
    ∀ y ∈ back, editDistance name x ≤ editDistance name y

namespace FirstNearest

variable {name x : String} {candidates : List String}

theorem mem (h : FirstNearest name candidates x) : x ∈ candidates := by
  obtain ⟨front, back, rfl, -, -⟩ := h
  exact List.mem_append_right front List.mem_cons_self

theorem le (h : FirstNearest name candidates x) {y : String} (hy : y ∈ candidates) :
    editDistance name x ≤ editDistance name y := by
  obtain ⟨front, back, rfl, hfront, hback⟩ := h
  rcases List.mem_append.mp hy with hy | hy
  · exact (hfront y hy).le
  · rcases List.mem_cons.mp hy with rfl | hy
    · exact le_rfl
    · exact hback y hy

/-- A candidate nearer than all before it is the first of the nearest so far. -/
theorem of_lt (h : ∀ y ∈ candidates, editDistance name x < editDistance name y) :
    FirstNearest name (candidates ++ [x]) x :=
  ⟨candidates, [], rfl, h, fun _ hy => absurd hy List.not_mem_nil⟩

/-- A candidate that is no nearer changes nothing. -/
theorem concat (h : FirstNearest name candidates x) {y : String}
    (hy : editDistance name x ≤ editDistance name y) :
    FirstNearest name (candidates ++ [y]) x := by
  obtain ⟨front, back, rfl, hfront, hback⟩ := h
  refine ⟨front, back ++ [y], by simp, hfront, ?_⟩
  exact List.forall_mem_append.mpr ⟨hback, List.forall_mem_singleton.mpr hy⟩

end FirstNearest

/-- What is offered for a name: the first of the nearest candidates if it is within the limit, and
nothing if all candidates are farther. -/
inductive Offers (name : String) (limit : Nat) (candidates : List String) : Option String → Prop
  | nearest (x : String) (hfirst : FirstNearest name candidates x)
      (hlimit : editDistance name x ≤ limit) : Offers name limit candidates (some x)
  | nothing (h : ∀ y ∈ candidates, limit < editDistance name y) : Offers name limit candidates none

/-- A candidate with its distance to the name, as the search keeps it. -/
def measured (name x : String) : String × Nat := (x, editDistance name x)

/-- The next candidate takes the place of the best one so far if it is nearer and near enough. -/
theorem nearer_measured (name : String) (limit : Nat) (o : Option String) (y : String) :
    nearer name limit (o.map (measured name)) y =
      if editDistance name y ≤ limit ∧ ∀ x ∈ o, editDistance name y < editDistance name x then
        some (measured name y)
      else o.map (measured name) := by
  cases o <;> simp [nearer, measured]

theorem Offers.nearer {name : String} {limit : Nat} {candidates : List String} {o : Option String}
    (h : Offers name limit candidates o) (y : String) :
    ∃ o', Offers name limit (candidates ++ [y]) o' ∧
      nearer name limit (o.map (measured name)) y = o'.map (measured name) := by
  rw [nearer_measured]
  split
  · -- the candidate is nearer than every other so far, since it is nearer than the best
    rename_i hy
    obtain ⟨hlimit, hbest⟩ := hy
    refine ⟨some y, .nearest y (.of_lt fun z hz => ?_) hlimit, rfl⟩
    cases h with
    | nearest x hfirst _ => exact (hbest x rfl).trans_le (hfirst.le hz)
    | nothing hfar => exact hlimit.trans_lt (hfar z hz)
  · rename_i hy
    refine ⟨o, ?_, rfl⟩
    cases h with
    | nearest x hfirst hlimit =>
      have hnext : editDistance name x ≤ editDistance name y := by
        by_contra hlt
        refine hy ⟨by omega, fun z hz => ?_⟩
        cases hz
        omega
      exact .nearest x (hfirst.concat hnext) hlimit
    | nothing hfar =>
      have hnext : limit < editDistance name y := by
        by_contra hle
        exact hy ⟨by omega, fun x hx => by cases hx⟩
      exact .nothing (List.forall_mem_append.mpr ⟨hfar, List.forall_mem_singleton.mpr hnext⟩)

/-- The search has kept what is offered of the candidates so far. -/
theorem exists_offers (name : String) (limit : Nat) (candidates : List String) :
    ∃ o, Offers name limit candidates o ∧
      candidates.foldl (nearer name limit) none = o.map (measured name) := by
  induction candidates using List.reverseRecOn with
  | nil => exact ⟨none, .nothing fun _ hy => absurd hy List.not_mem_nil, rfl⟩
  | append_singleton candidates y ih =>
    obtain ⟨o, ho, hfold⟩ := ih
    obtain ⟨o', ho', hnext⟩ := ho.nearer y
    refine ⟨o', ho', ?_⟩
    rw [List.foldl_append, List.foldl_cons, List.foldl_nil, hfold, hnext]

theorem suggest_offers (name : String) (candidates : List String) :
    Offers name (suggestionThreshold name.length) candidates (suggest name candidates) := by
  obtain ⟨o, ho, hfold⟩ := exists_offers name (suggestionThreshold name.length) candidates
  have hfirst : Prod.fst ∘ measured name = id := rfl
  rw [suggest, hfold, Option.map_map, hfirst, Option.map_id]
  exact ho

theorem nearest_of_suggest {name x : String} {candidates : List String}
    (hx : x ∈ suggest name candidates) : FirstNearest name candidates x ∧
      editDistance name x ≤ suggestionThreshold name.length := by
  have hoffers := suggest_offers name candidates
  rw [Option.mem_def.mp hx] at hoffers
  cases hoffers with
  | nearest _ hfirst hlimit => exact ⟨hfirst, hlimit⟩

theorem mem_of_suggest {name x : String} {candidates : List String}
    (hx : x ∈ suggest name candidates) : x ∈ candidates := (nearest_of_suggest hx).1.mem

/-! ## Lengths of names -/

theorem IsPathChar.utf8Size {c : Char} (h : IsPathChar c) : c.utf8Size = 1 := by
  rw [Char.utf8Size_eq_one_iff, UInt32.le_iff_toNat_le]
  show c.toNat ≤ 127
  rcases h with (h | h | rfl) | rfl | rfl
  · rw [isLetter_iff] at h
    omega
  · rw [isDigit_iff_toNat] at h
    omega
  all_goals decide

/-- A field path has one byte for each character. -/
theorem FieldPath.Valid.utf8ByteSize_eq {path : String} (h : FieldPath.Valid path) :
    path.utf8ByteSize = path.length := by
  have hlen : ∀ cs : List Char, (∀ c ∈ cs, IsPathChar c) → String.utf8Len cs = cs.length := by
    intro cs hcs
    induction cs with
    | nil => rfl
    | cons c cs ih =>
      obtain ⟨hc, hcs⟩ := List.forall_mem_cons.mp hcs
      rw [String.utf8Len_cons, ih hcs, hc.utf8Size, List.length_cons]
  rw [← String.utf8Len_toList, hlen _ h.isPathChar, String.length_toList]

/-- What is suggested for a name that is none of the candidates: one that is nearest, at a distance
between one and the limit for the length of the name, which counts its bytes as well as its
characters. -/
structure Suggests (name : String) (candidates : List String) (o : Option String) : Prop where
  offers : ∃ limit, Limit name.length limit ∧ Offers name limit candidates o
  other : ∀ x ∈ o, 1 ≤ editDistance name x
  short : name.length ≤ 2 → o = none
  bytes : name.utf8ByteSize = name.length

theorem FieldPath.Valid.suggests {name : String} (h : FieldPath.Valid name)
    {candidates : List String} (hmem : name ∉ candidates) :
    Suggests name candidates (suggest name candidates) := by
  have hother : ∀ x ∈ suggest name candidates, 1 ≤ editDistance name x := by
    intro x hx
    rw [Nat.one_le_iff_ne_zero, ne_eq, editDistance_eq_zero_iff]
    rintro rfl
    exact hmem (mem_of_suggest hx)
  have hshort : name.length ≤ 2 → suggest name candidates = none := by
    intro hlength
    rw [Option.eq_none_iff_forall_not_mem]
    intro x hx
    have hlimit := (nearest_of_suggest hx).2
    rw [suggestionThreshold, if_pos hlength] at hlimit
    have hpos := hother x hx
    omega
  exact ⟨⟨_, limit_suggestionThreshold _, suggest_offers name candidates⟩, hother, hshort,
    h.utf8ByteSize_eq⟩

/-! ## What a catalog does not find -/

theorem Collection.fault_of_ofName {name : String} {e : Error}
    (h : Collection.ofName name = .error e) : ∃ fault, e = .invalidName .collection name fault := by
  unfold Collection.ofName at h
  split at h
  · cases h
  · cases h
    exact ⟨_, rfl⟩

theorem Field.fault_of_ofPath {collection path : String} {e : Error}
    (h : Field.ofPath collection path = .error e) :
    ∃ kind text fault, e = .invalidName kind text fault := by
  unfold Field.ofPath at h
  split at h
  · cases h
    exact ⟨_, _, _, rfl⟩
  · split at h
    · cases h
      exact ⟨_, _, _, rfl⟩
    · cases h

namespace Catalog

variable {c : Catalog} {name path : String} {e : Error}

/-- A name for which there is no collection is not valid or not listed. -/
theorem collection_error_cases (h : c.collection name = .error e) :
    (∃ fault, e = .invalidName .collection name fault) ∨
    Identifier.Valid name ∧ name ∉ c.collectionNames ∧
      e = .unknownCollection name (suggest name c.collectionNames) := by
  rw [collection, bind_eq_error_iff] at h
  rcases h with hname | ⟨k, hk, hmiss⟩
  · exact .inl (Collection.fault_of_ofName hname)
  · have hvalid : Identifier.Valid name := Collection.ofName_eq_ok_iff.mp hk ▸ k.valid
    split at hmiss
    · cases hmiss
    · rename_i hnot
      cases hmiss
      exact .inr ⟨hvalid, fun hmem => hnot (hasCollection_iff.mpr hmem), rfl⟩

/-- A path for which there is no field is not valid, or its collection is not found, or it is not
listed there. -/
theorem field_error_cases (h : c.field name path = .error e) :
    (∃ kind text fault, e = .invalidName kind text fault) ∨ c.collection name = .error e ∨
    name ∈ c.collectionNames ∧ FieldPath.Valid path ∧ path ∉ c.fieldPaths name ∧
      e = .unknownField name path (suggest path (c.fieldPaths name)) := by
  rw [field, bind_eq_error_iff] at h
  rcases h with hpath | ⟨f, hf, h⟩
  · exact .inl (Field.fault_of_ofPath hpath)
  · rw [bind_eq_error_iff] at h
    rcases h with hcollection | ⟨k, hk, hmiss⟩
    · exact .inr (.inl hcollection)
    · have hvalid : FieldPath.Valid path := (Field.ofPath_eq_ok_iff.mp hf).2 ▸ f.path_valid
      split at hmiss
      · cases hmiss
      · rename_i hnot
        cases hmiss
        exact .inr (.inr ⟨(collection_eq_ok_iff.mp hk).2, hvalid,
          fun hmem => hnot (hasField_iff_mem_fieldPaths.mpr hmem), rfl⟩)

theorem collection_of_not_mem (hvalid : Identifier.Valid name) (hmem : name ∉ c.collectionNames) :
    c.collection name = .error (.unknownCollection name (suggest name c.collectionNames)) := by
  have hname : Collection.ofName name = .ok ⟨name, hvalid⟩ := Collection.ofName_eq_ok_iff.mpr rfl
  have hmiss : ¬ c.hasCollection name = true := fun h => hmem (hasCollection_iff.mp h)
  rw [collection, hname]
  exact if_neg hmiss

theorem field_of_not_mem (hname : name ∈ c.collectionNames) (hcollection : Identifier.Valid name)
    (hvalid : FieldPath.Valid path) (hmem : path ∉ c.fieldPaths name) :
    c.field name path = .error (.unknownField name path (suggest path (c.fieldPaths name))) := by
  have hpath : Field.ofPath name path = .ok ⟨path, name, hvalid, hcollection⟩ :=
    Field.ofPath_eq_ok_iff.mpr ⟨rfl, rfl⟩
  have hk : c.collection name = .ok ⟨name, hcollection⟩ := collection_eq_ok_iff.mpr ⟨rfl, hname⟩
  have hmiss : ¬ c.hasField name path = true := fun h => hmem (hasField_iff_mem_fieldPaths.mp h)
  rw [field, hpath, hk]
  exact if_neg hmiss

end Catalog

/-- What a catalog suggests for a collection or a field that it does not find is the first of the
listed names, or of the paths in increasing order, at the least distance, which is at least one and
within the limit for the length of the name; and it hands out what it suggests. Without a suggestion
all are beyond the limit. A field of a collection that is not found is reported as the collection
is. Here the distance of two texts is the least number of edits that lead from one to the other. -/
theorem suggestions_usable {s : Schema} {c : Catalog} (h : Catalog.ofSchema s = .ok c) :
    (∀ x n o, c.collection x = .error (.unknownCollection n o) →
      n = x ∧ Suggests x (s.collections.map CollectionDefinition.name) o ∧
      ∀ y ∈ o, ∃ k, c.collection y = .ok k ∧ k.name = y) ∧
    (∀ name x n p o, c.field name x = .error (.unknownField n p o) →
      n = name ∧ p = x ∧ Suggests x (c.fieldPaths name) o ∧
      ∀ y ∈ o, ∃ f, c.field name y = .ok f ∧ f.collection = name ∧ f.path = y) ∧
    (∀ name x n o, c.field name x = .error (.unknownCollection n o) →
      c.collection name = .error (.unknownCollection n o)) ∧
    (∀ name, (c.fieldPaths name).Pairwise (· < ·)) ∧
    ∀ a b, IsLeast {n | Edits n a.toList b.toList} (editDistance a b) := by
  refine ⟨?_, ?_, ?_, fun name => Catalog.fieldPaths_pairwise, isLeast_editDistance⟩
  · intro x n o hx
    obtain ⟨fault, hfault⟩ | ⟨hvalid, hmem, hunknown⟩ := Catalog.collection_error_cases hx
    · cases hfault
    · cases hunknown
      refine ⟨rfl, ?_, fun y hy => ?_⟩
      · rw [← Catalog.collectionNames_of_ofSchema h]
        exact (FieldPath.valid_of_identifier hvalid).suggests hmem
      · have hlisted := mem_of_suggest hy
        exact ⟨⟨y, Catalog.valid_of_mem_collectionNames h hlisted⟩,
          Catalog.collection_eq_ok_iff.mpr ⟨rfl, hlisted⟩, rfl⟩
  · intro name x n p o hx
    obtain ⟨_, _, _, hfault⟩ | hcollection | ⟨hname, hvalid, hmem, hunknown⟩ :=
      Catalog.field_error_cases hx
    · cases hfault
    · obtain ⟨fault, hfault⟩ | ⟨-, -, hunknown⟩ := Catalog.collection_error_cases hcollection
      · cases hfault
      · cases hunknown
    · cases hunknown
      refine ⟨rfl, rfl, hvalid.suggests hmem, fun y hy => ?_⟩
      have hlisted := mem_of_suggest hy
      exact ⟨⟨y, name, Catalog.valid_of_mem_fieldPaths h hlisted,
          Catalog.valid_of_mem_collectionNames h hname⟩,
        Catalog.field_eq_ok_iff.mpr ⟨rfl, rfl, hname, hlisted⟩, rfl, rfl⟩
  · intro name x n o hx
    obtain ⟨_, _, _, hfault⟩ | hcollection | ⟨-, -, -, hunknown⟩ := Catalog.field_error_cases hx
    · cases hfault
    · exact hcollection
    · cases hunknown

theorem suggestions_usable_orders : ∃ c, Catalog.ofSchema Schema.orders = .ok c ∧
    c.collection "oders" = .error (.unknownCollection "oders" (some "orders")) ∧
    (∃ k, c.collection "orders" = .ok k) ∧
    c.field "orders" "line" = .error (.unknownField "orders" "line" (some "lines")) ∧
    Suggests "line" (c.fieldPaths "orders") (some "lines") ∧
    ∃ f, c.field "orders" "lines" = .ok f ∧ f.path = "lines" := by
  obtain ⟨c, hc⟩ : ∃ c, Catalog.ofSchema Schema.orders = .ok c := ⟨_, rfl⟩
  have hnames : c.collectionNames = ["orders"] := Catalog.collectionNames_of_ofSchema hc
  have hpaths : c.fieldPaths "orders" =
      ["lines", "lines.article", "lines.article.name", "note"] := by
    have hmap : (Catalog.ofSchema Schema.orders).map (fun c => c.fieldPaths "orders") =
        .ok ["lines", "lines.article", "lines.article.name", "note"] := rfl
    rw [hc] at hmap
    exact Except.ok.inj hmap
  obtain ⟨hcollections, hfields, -⟩ := suggestions_usable hc
  have hoders : c.collection "oders" = .error (.unknownCollection "oders" (some "orders")) := by
    have hsuggest : suggest "oders" ["orders"] = some "orders" := by decide +kernel
    rw [Catalog.collection_of_not_mem (by decide +kernel) (by simp [hnames]), hnames, hsuggest]
  have hline : c.field "orders" "line" =
      .error (.unknownField "orders" "line" (some "lines")) := by
    have hsuggest : suggest "line" ["lines", "lines.article", "lines.article.name", "note"] =
        some "lines" := by decide +kernel
    rw [Catalog.field_of_not_mem (by simp [hnames]) (by decide +kernel) (by decide +kernel)
      (by simp [hpaths]), hpaths, hsuggest]
  obtain ⟨-, -, hcollection⟩ := hcollections _ _ _ hoders
  obtain ⟨-, -, hsuggests, hfield⟩ := hfields _ _ _ _ _ hline
  obtain ⟨k, hk, -⟩ := hcollection "orders" rfl
  obtain ⟨f, hf, -, hpath⟩ := hfield "lines" rfl
  exact ⟨c, hc, hoders, ⟨k, hk⟩, hline, hsuggests, f, hf, hpath⟩

end DocumentQuery

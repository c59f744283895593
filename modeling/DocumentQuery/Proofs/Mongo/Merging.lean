import DocumentQuery.Proofs.Entries
import DocumentQuery.Proofs.Mongo.Reading
/-!
# Putting filter objects together

Putting objects together loses nothing: the object says what all of them say
(`mergeObjects?_same`), also where they had to stay apart (`mergeAll_same`).

Two objects of operators stand together under one path because they have no key
in common. That alone would not be enough: an operator is read with its
companions, so a companion must not come to stand beside an operator of the
other object. What keeps it away is that every companion has its operator with
it (`Attached`).
-/
namespace DocumentQuery

namespace Mongo

open Entries (keys get?)
open Formula (Same)

/-! ## Companions -/

/-- The value of an entry of a rendered object: if it holds operators, they are operators only, and
companions are attached. -/
def Sound : Json → Prop
  | .obj ops => operatorsOnly ops = true ∧ Attached ops
  | _ => True

theorem disjoint_iff {es fs : Entries} :
    disjoint es fs = true ↔ ∀ key ∈ keys fs, key ∉ keys es := by
  simp [disjoint, Entries.get?_eq_none_iff]

theorem attached_append {es fs : Entries} (h : Attached es) (h' : Attached fs) :
    Attached (es ++ fs) := by
  intro c hc hmem
  rw [Entries.keys_append, List.mem_append] at hmem ⊢
  rcases hmem with hmem | hmem
  · exact .inl (h c hc hmem)
  · exact .inr (h' c hc hmem)

/-- An operator finds its companions in its own part of a joined object. -/
theorem get?_companion_left {es fs : Entries} (hfs : Attached fs) (hd : disjoint es fs = true)
    {c : String × String} (hc : c ∈ companions) (hop : c.2 ∈ keys es) :
    get? c.1 (es ++ fs) = get? c.1 es := by
  have hnot : c.1 ∉ keys fs := fun hmem => disjoint_iff.mp hd c.2 (hfs c hc hmem) hop
  rw [Entries.get?_append, Entries.get?_eq_none_iff.mpr hnot, Option.or_none]

theorem get?_companion_right {es fs : Entries} (hes : Attached es) (hd : disjoint es fs = true)
    {c : String × String} (hc : c ∈ companions) (hop : c.2 ∈ keys fs) :
    get? c.1 (es ++ fs) = get? c.1 fs := by
  have hnot : c.1 ∉ keys es := fun hmem => disjoint_iff.mp hd c.2 hop (hes c hc hmem)
  rw [Entries.get?_append, Entries.get?_eq_none_iff.mpr hnot, Option.none_or]

/-! ## Operators are read by themselves -/

theorem paramAt?_congr {key : String} {es fs : Entries} (h : get? key es = get? key fs) :
    paramAt? key es = paramAt? key fs := by
  rw [paramAt?, paramAt?, h]

theorem flagAt_congr {key : String} {es fs : Entries} (h : get? key es = get? key fs) :
    flagAt key es = flagAt key fs := by
  rw [flagAt, flagAt, h]

/-- Of the whole object, only the companions of an operator count. -/
theorem operatorAtom?_congr {path op : String} {whole whole' : Entries}
    (h : ∀ c ∈ companions, c.2 = op → get? c.1 whole = get? c.1 whole') (v : Json) :
    operatorAtom? path whole op v = operatorAtom? path whole' op v := by
  cases v with
  | str s =>
    by_cases hs : op = "$search"
    · have hw : ∀ p, searchWords p whole = searchWords p whole' := by
        intro p
        rw [searchWords, searchWords,
          paramAt?_congr (h ("$language", "$search") (by decide) hs.symm),
          flagAt_congr (h ("$caseSensitive", "$search") (by decide) hs.symm),
          flagAt_congr (h ("$diacriticSensitive", "$search") (by decide) hs.symm)]
      simp only [operatorAtom?, hs, if_true, hw]
    · have hr : ∀ o, FilterOperator.ofToken? op = some o → o = .regex →
          paramAt? "$options" whole = paramAt? "$options" whole' := by
        intro o ho he
        have ht : "$regex" = op := by rw [← FilterOperator.token_of_ofToken? ho, he]; rfl
        exact paramAt?_congr (h ("$options", "$regex") (by decide) ht)
      simp only [operatorAtom?, hs, if_false]
      cases ho : FilterOperator.ofToken? op with
      | none => rfl
      | some o =>
        simp only [Option.bind_eq_bind, Option.bind_some]
        by_cases he : o = .regex
        · simp only [if_pos he, hr o ho he]
        · simp only [if_neg he]
  | _ => rfl

theorem operatorMeaning_congr {path op : String} {whole whole' : Entries}
    (h : ∀ c ∈ companions, c.2 = op → get? c.1 whole = get? c.1 whole') (v : Json) :
    operatorMeaning path whole op v = operatorMeaning path whole' op v := by
  have ha : operatorAtom? path whole op v = operatorAtom? path whole' op v :=
    operatorAtom?_congr h v
  cases v <;> simp only [operatorMeaning, ha]

theorem operatorMeanings_congr {path : String} {whole whole' ops : Entries}
    (h : ∀ c ∈ companions, c.2 ∈ keys ops → get? c.1 whole = get? c.1 whole') :
    operatorMeanings path whole ops = operatorMeanings path whole' ops := by
  induction ops with
  | nil => rfl
  | cons e ops ih =>
    obtain ⟨op, v⟩ := e
    have hop : operatorMeaning path whole op v = operatorMeaning path whole' op v :=
      operatorMeaning_congr (fun c hc ho => h c hc (by simp [keys, ho])) v
    have hops := ih fun c hc hmem => h c hc (List.mem_cons_of_mem _ hmem)
    rw [operatorMeanings, operatorMeanings, hop, hops]

theorem operatorMeanings_append (path : String) (whole es fs : Entries) :
    operatorMeanings path whole (es ++ fs) =
      operatorMeanings path whole es ++ operatorMeanings path whole fs := by
  induction es with
  | nil => rfl
  | cons e es ih =>
    obtain ⟨op, v⟩ := e
    rw [List.cons_append, operatorMeanings, operatorMeanings, ih, List.append_assoc]

/-- Joined operators say what the two objects say. -/
theorem operatorMeanings_join (path : String) {es fs : Entries} (hes : Attached es)
    (hfs : Attached fs) (hd : disjoint es fs = true) :
    operatorMeanings path (es ++ fs) (es ++ fs) =
      operatorMeanings path es es ++ operatorMeanings path fs fs := by
  rw [operatorMeanings_append,
    operatorMeanings_congr fun c hc hop => get?_companion_left hfs hd hc hop,
    operatorMeanings_congr fun c hc hop => get?_companion_right hes hd hc hop]

theorem entryMeanings_append (es fs : Entries) :
    entryMeanings (es ++ fs) = entryMeanings es ++ entryMeanings fs := by
  induction es with
  | nil => rfl
  | cons e es ih =>
    obtain ⟨key, v⟩ := e
    rw [List.cons_append, entryMeanings, entryMeanings, ih, List.cons_append]

/-! ## Merging -/

theorem joinOperators?_same {key : String} {w v u : Json} (hw : Sound w) (hv : Sound v)
    (h : joinOperators? w v = some u) :
    Sound u ∧ Same (entryMeaning key u) (.all [entryMeaning key w, entryMeaning key v]) := by
  unfold joinOperators? at h
  split at h
  · rename_i es fs
    split at h
    · rename_i hcond
      simp only [Bool.and_eq_true] at hcond
      obtain ⟨⟨hes, hfs⟩, hd⟩ := hcond
      simp only [Option.some.injEq] at h; subst h
      refine ⟨⟨?_, attached_append hw.2 hv.2⟩, ?_⟩
      · simpa [operatorsOnly] using ⟨by simpa [operatorsOnly] using hes,
          by simpa [operatorsOnly] using hfs⟩
      · rw [entryMeaning, entryMeaning, entryMeaning, operatorMeanings_join key hw.2 hv.2 hd]
        exact Same.all_append _ _
    · cases h
  · cases h

/-- An entry that takes a new value says what it said before and what came in. -/
theorem entryMeanings_insert {key : String} {w v u : Json} {es : Entries}
    (hget : get? key es = some w)
    (hu : Same (entryMeaning key u) (.all [entryMeaning key w, entryMeaning key v])) :
    Same (.all (entryMeanings (Entries.insert key u es)))
      (.all (entryMeanings es ++ [entryMeaning key v])) := by
  induction es with
  | nil => cases hget
  | cons e es ih =>
    obtain ⟨k, x⟩ := e
    by_cases hk : k = key
    · subst hk
      simp only [get?, if_true, Option.some.injEq] at hget; subst hget
      simp only [Entries.insert, if_true, entryMeanings, List.cons_append]
      have hsplit : Same (.all [entryMeaning k u]) (.all [entryMeaning k x, entryMeaning k v]) :=
        (Same.all_singleton _).trans hu
      refine (Same.all_append_congr hsplit (Same.refl (.all (entryMeanings es)))).trans
        (Same.all_perm ?_)
      exact List.Perm.cons _ (List.perm_append_singleton _ _).symm
    · simp only [get?, hk, if_false] at hget
      simp only [Entries.insert, hk, if_false, entryMeanings, List.cons_append]
      exact Same.all_cons_congr (Same.refl _) (ih hget)

theorem sound_insert {key : String} {u : Json} {es : Entries} (hes : ∀ e ∈ es, Sound e.2)
    (hu : Sound u) : ∀ e ∈ Entries.insert key u es, Sound e.2 := by
  induction es with
  | nil => simpa [Entries.insert] using hu
  | cons e es ih =>
    obtain ⟨k, x⟩ := e
    simp only [List.forall_mem_cons] at hes
    by_cases hk : k = key
    · simp only [Entries.insert, hk, if_true, List.forall_mem_cons]
      exact ⟨hu, hes.2⟩
    · simp only [Entries.insert, hk, if_false, List.forall_mem_cons]
      exact ⟨hes.1, ih hes.2⟩

theorem mergeAt?_same {key : String} {v : Json} {es es' : Entries} (hes : ∀ e ∈ es, Sound e.2)
    (hv : Sound v) (h : mergeAt? es key v = some es') :
    (∀ e ∈ es', Sound e.2) ∧
      Same (.all (entryMeanings es')) (.all (entryMeanings es ++ [entryMeaning key v])) := by
  unfold mergeAt? at h
  cases hget : get? key es with
  | none =>
    simp only [hget, Option.some.injEq] at h; subst h
    refine ⟨?_, ?_⟩
    · simp only [List.forall_mem_append, List.forall_mem_singleton]
      exact ⟨hes, hv⟩
    · rw [entryMeanings_append]
      exact Same.refl _
  | some w =>
    simp only [hget, Option.map_eq_some_iff] at h
    obtain ⟨u, hu, rfl⟩ := h
    have hw : Sound w := hes _ (Entries.mem_of_get? hget)
    obtain ⟨hus, hsame⟩ : _ ∧
        Same (entryMeaning key u) (.all [entryMeaning key w, entryMeaning key v]) :=
      joinOperators?_same hw hv hu
    exact ⟨sound_insert hes hus, entryMeanings_insert hget hsame⟩

theorem mergeInto?_same {fs : Entries} : ∀ {es es' : Entries}, (∀ e ∈ es, Sound e.2) →
    (∀ f ∈ fs, Sound f.2) → mergeInto? es fs = some es' →
    (∀ e ∈ es', Sound e.2) ∧
      Same (.all (entryMeanings es')) (.all (entryMeanings es ++ entryMeanings fs)) := by
  induction fs with
  | nil =>
    intro es es' hes _ h
    simp only [mergeInto?, Option.some.injEq] at h; subst h
    exact ⟨hes, by rw [entryMeanings, List.append_nil]; exact Same.refl _⟩
  | cons f fs ih =>
    intro es es' hes hfs h
    obtain ⟨key, v⟩ := f
    simp only [List.forall_mem_cons] at hfs
    simp only [mergeInto?, Option.bind_eq_some_iff] at h
    obtain ⟨mid, hmid, hrest⟩ := h
    obtain ⟨hs, hsame⟩ := mergeAt?_same hes hfs.1 hmid
    obtain ⟨hs', hsame'⟩ := ih hs hfs.2 hrest
    refine ⟨hs', hsame'.trans ?_⟩
    have := Same.all_append_congr hsame (Same.refl (.all (entryMeanings fs)))
    rw [List.append_assoc] at this
    exact this

/-- The object of rendered filters, each with sound entries. -/
def SoundObject : Json → Prop
  | .obj es => ∀ e ∈ es, Sound e.2
  | _ => False

theorem mergeObjects?_same {vs : List Json} : ∀ {es es' : Entries}, (∀ e ∈ es, Sound e.2) →
    (∀ v ∈ vs, SoundObject v) → mergeObjects? es vs = some es' →
    (∀ e ∈ es', Sound e.2) ∧
      Same (.all (entryMeanings es')) (.all (entryMeanings es ++ vs.map meaning)) := by
  induction vs with
  | nil =>
    intro es es' hes _ h
    simp only [mergeObjects?, Option.some.injEq] at h; subst h
    exact ⟨hes, by rw [List.map_nil, List.append_nil]; exact Same.refl _⟩
  | cons v vs ih =>
    intro es es' hes hvs h
    simp only [List.forall_mem_cons] at hvs
    obtain ⟨hv, hvs⟩ := hvs
    cases v with
    | obj fs =>
      simp only [mergeObjects?, Option.bind_eq_some_iff] at h
      obtain ⟨mid, hmid, hrest⟩ := h
      obtain ⟨hs, hsame⟩ := mergeInto?_same hes hv hmid
      obtain ⟨hs', hsame'⟩ := ih hs hvs hrest
      refine ⟨hs', hsame'.trans ?_⟩
      have hfs : Same (.all (entryMeanings fs)) (.all [meaning (.obj fs)]) := by
        rw [meaning]
        exact (Same.all_singleton _).symm
      have hes' := Same.all_append_congr (Same.refl (.all (entryMeanings es))) hfs
      have := Same.all_append_congr (hsame.trans hes') (Same.refl (.all (vs.map meaning)))
      rw [List.append_assoc] at this
      exact this
    | _ => exact hv.elim

theorem meanings_eq (vs : List Json) : meanings vs = vs.map meaning := by
  induction vs with
  | nil => rfl
  | cons v vs ih => rw [meanings, ih, List.map_cons]

/-- One object for all says what they say, and so does their conjunction. -/
theorem mergeAll_same {vs : List Json} (hvs : ∀ v ∈ vs, SoundObject v) :
    SoundObject (mergeAll vs) ∧ Same (meaning (mergeAll vs)) (.all (vs.map meaning)) := by
  unfold mergeAll
  cases h : mergeObjects? [] vs with
  | none =>
    refine ⟨?_, ?_⟩
    · simp [Json.single, SoundObject, Sound]
    · simp only [Json.single, meaning, entryMeanings, entryMeaning, meanings_eq]
      exact Same.all_singleton _
  | some es =>
    have hnil : ∀ e ∈ ([] : Entries), Sound e.2 := by simp
    obtain ⟨hs, hsame⟩ := mergeObjects?_same hnil hvs h
    exact ⟨hs, by simpa only [meaning, entryMeanings, List.nil_append] using hsame⟩

end Mongo

end DocumentQuery

import DocumentQuery.Proofs.Dynamo.Grammar
import DocumentQuery.Proofs.Steps
/-!
# Aliases find what they stand for

The aliases of a query are numbered, and no two numbers give the same alias
(`aliasWith_inj`). So each alias finds its own entry in the map beside the
expression, wherever the numbering of an expression starts.

Main definitions:
* `nameMap`, `valueMap`: the two maps.
* `Aliases.HasPaths`, `Aliases.HasParams`: the aliases from a number on stand
  for the given paths or parameters.

Results:
* `hasPaths_of`, `hasParams_of`: the maps of a rendered query resolve all its
  aliases.
-/
namespace DocumentQuery.Dynamo

open Entries (get?)

/-! ## Numbering -/

/-- A number is read back from its digits. -/
theorem toString_inj {i j : Nat} : toString i = toString j ↔ i = j := by
  refine ⟨fun h => ?_, fun h => h ▸ rfl⟩
  have hdigits : Nat.toDigits 10 i = Nat.toDigits 10 j := by
    rw [← Nat.toList_repr, ← Nat.toList_repr, ← Nat.toString_eq_repr, ← Nat.toString_eq_repr, h]
  rw [← Nat.ofDigitChars_ten_toDigits (n := i), hdigits, Nat.ofDigitChars_ten_toDigits]

theorem aliasWith_inj {mark : Mark} {i j : Nat} : aliasWith mark i = aliasWith mark j ↔ i = j := by
  rw [aliasWith, aliasWith, String.append_right_inj, toString_inj]

theorem isWordChar_digit {i : Nat} {c : Char} (h : c ∈ (toString i).toList) :
    isWordChar c = true := by
  rw [Nat.toString_eq_repr, Nat.toList_repr] at h
  have hdigit := Nat.isDigit_of_mem_toDigits (by decide) (by decide) h
  simp [isWordChar, Char.isAlphanum, hdigit]

theorem isWord_aliasWith (mark : Mark) (i : Nat) : IsWord (aliasWith mark i) := by
  have hmark : IsWord mark.text := by cases mark <;> decide
  exact hmark.append fun c hc => isWordChar_digit hc

/-- In a map of numbered entries, each alias finds its own entry. -/
theorem get?_numbered {α : Type} (mark : Mark) (f : α → Json) {as : List α} {x : α} :
    ∀ {i n : Nat}, as[i]? = some x → get? (aliasWith mark (n + i))
      ((as.zipIdx n).map fun p => (aliasWith mark p.2, f p.1)) = some (f x) := by
  induction as with
  | nil => intro i n h; cases h
  | cons a as ih =>
    intro i n h
    rw [List.zipIdx_cons, List.map_cons, get?]
    cases i with
    | zero =>
      simp only [List.getElem?_cons_zero, Option.some.injEq] at h
      rw [Nat.add_zero, if_pos rfl, h]
    | succ i =>
      have hne : ¬ aliasWith mark n = aliasWith mark (n + (i + 1)) := fun he => by
        have := aliasWith_inj.mp he
        omega
      rw [if_neg hne, ← Nat.add_assoc, Nat.add_right_comm]
      exact ih (by simpa using h)

/-! ## Resolving -/

/-- The keys from number `n` on find the given things, one after the other. -/
def Numbered {α : Type} (find : String → Option α) (key : Nat → String) (n : Nat)
    (as : List α) : Prop :=
  ∀ i x, as[i]? = some x → find (key (n + i)) = some x

namespace Numbered

variable {α : Type} {find : String → Option α} {key : Nat → String} {n : Nat} {as bs : List α}

theorem head {x : α} (h : Numbered find key n (x :: as)) : find (key n) = some x := h 0 x rfl

theorem left (h : Numbered find key n (as ++ bs)) : Numbered find key n as := by
  intro i x hi
  obtain ⟨hlt, -⟩ := List.getElem?_eq_some_iff.mp hi
  exact h i x (by rw [List.getElem?_append_left hlt, hi])

theorem right (h : Numbered find key n (as ++ bs)) : Numbered find key (n + as.length) bs := by
  intro i x hi
  rw [Nat.add_assoc]
  exact h _ x (by rw [List.getElem?_append_right (by omega), Nat.add_sub_cancel_left, hi])

theorem tail {x : α} (h : Numbered find key n (x :: as)) : Numbered find key (n + 1) as := by
  have hsplit : Numbered find key n ([x] ++ as) := h
  exact hsplit.right

end Numbered

/-- The aliases of paths from number `n` on stand for the given paths. -/
def Aliases.HasPaths (a : Aliases) (n : Nat) (paths : List String) : Prop :=
  Numbered a.path? nameAlias n paths

/-- The aliases of values from number `v` on stand for the given parameters. -/
def Aliases.HasParams (a : Aliases) (v : Nat) (values : List Param) : Prop :=
  Numbered a.param? valueAlias v values

/-- The map of path aliases. -/
def nameMap (paths : List String) : Entries := paths.zipIdx.map fun p => (nameAlias p.2, .str p.1)

/-- The map of value aliases. -/
def valueMap (values : List Param) : Entries :=
  values.zipIdx.map fun p => (valueAlias p.2, .str p.1.placeholder)

theorem nameEntries_eq (paths : List String) :
    nameEntries paths =
      Entries.when (!paths.isEmpty) "ExpressionAttributeNames" (.obj (nameMap paths)) := rfl

theorem valueEntries_gives {values : List Param} {es : Entries} {ps : List Param} :
    (valueEntries values).Gives es ps ↔
      es = Entries.when (!values.isEmpty) "ExpressionAttributeValues" (.obj (valueMap values)) ∧
      ps = values := by
  have hmap : ((values.map fun p => Json.str p.placeholder).zipIdx.map fun p =>
      (valueAlias p.2, p.1)) = valueMap values := by
    rw [valueMap, List.zipIdx_map, List.map_map]
    rfl
  rw [valueEntries, bind_pure_comp, Render.gives_map]
  simp only [Render.gives_each_placeholder]
  constructor
  · intro h
    obtain ⟨_, ⟨rfl, rfl⟩, rfl⟩ := h
    rw [hmap, List.isEmpty_map]
    exact ⟨rfl, rfl⟩
  · intro h
    obtain ⟨rfl, rfl⟩ := h
    refine ⟨_, ⟨rfl, rfl⟩, ?_⟩
    rw [hmap, List.isEmpty_map]

/-- The map of paths of a rendered query resolves its aliases. -/
theorem hasPaths_of {es : Entries} {paths : List String}
    (h : paths ≠ [] → get? "ExpressionAttributeNames" es = some (.obj (nameMap paths))) :
    (Aliases.of es).HasPaths 0 paths := by
  intro i path hi
  have hne : paths ≠ [] := by
    intro heq
    subst heq
    cases hi
  have hmap : (Aliases.of es).names = nameMap paths := by
    simp only [Aliases.of, Aliases.mapAt, h hne]
  have hget : get? (nameAlias (0 + i)) (nameMap paths) = some (.str path) :=
    get?_numbered .name Json.str hi
  simp only [Aliases.path?, hmap, hget]

/-- The map of values of a rendered query resolves its aliases. -/
theorem hasParams_of {es : Entries} {values : List Param}
    (h : values ≠ [] → get? "ExpressionAttributeValues" es = some (.obj (valueMap values))) :
    (Aliases.of es).HasParams 0 values := by
  intro i p hi
  have hne : values ≠ [] := by
    intro heq
    subst heq
    cases hi
  have hmap : (Aliases.of es).values = valueMap values := by
    simp only [Aliases.of, Aliases.mapAt, h hne]
  have hget : get? (valueAlias (0 + i)) (valueMap values) = some (.str p.placeholder) :=
    get?_numbered .value (fun p : Param => Json.str p.placeholder) hi
  simp only [Aliases.param?, hmap, hget, Param.ofPlaceholder?_placeholder]

end DocumentQuery.Dynamo

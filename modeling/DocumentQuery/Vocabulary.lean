/-!
# Vocabularies

A vocabulary is a closed list of words, each with the token it is written by.
Tokens are read without regard to the case of ASCII letters, and the first
word with a matching token is meant. Nothing is missing from the list, and no
two words have tokens that are equal up to case, so every text is read as at
most one word.

Results:
* `Vocabulary.eq_of_pairwise`: what tells any two words of the list apart tells
  all words apart.
* `Vocabulary.find?_eq_some_iff`: a text is read as a word exactly if it is the
  word's token up to case.
-/
namespace DocumentQuery

/-- Equality up to the case of ASCII letters. -/
def sameLetters (s t : String) : Bool :=
  s.toList.map Char.toLower == t.toList.map Char.toLower

/-- A closed list of words with their tokens. -/
class Vocabulary (α : Type) where
  /-- The words, in their listed order. -/
  all : List α
  /-- The token a word is written by. -/
  token : α → String
  /-- Every word is listed. -/
  mem_all : ∀ a, a ∈ all
  /-- No two words have tokens that are equal up to case. -/
  distinct : all.Pairwise fun a b => ¬ sameLetters (token a) (token b) = true

theorem sameLetters_iff {s t : String} :
    sameLetters s t = true ↔ s.toList.map Char.toLower = t.toList.map Char.toLower :=
  beq_iff_eq

namespace Vocabulary

variable {α : Type} [Vocabulary α]

/-- The first word whose token is `s` up to letter case. -/
def find? (s : String) : Option α := (all : List α).find? fun a => sameLetters (token a) s

/-- A symmetric relation that holds of no two words of the list holds of no two words. -/
theorem eq_of_pairwise {R : α → α → Prop} (hsymm : ∀ {a b}, R a b → R b a)
    (hall : (all : List α).Pairwise fun a b => ¬ R a b) {a b : α} (h : R a b) : a = b := by
  have hleft : (all : List α).Pairwise fun a b => R a b → a = b :=
    hall.imp fun hne hab => absurd hab hne
  have hright : (all : List α).Pairwise (flip fun a b => R a b → a = b) :=
    hall.imp fun hne hba => absurd (hsymm hba) hne
  exact List.Pairwise.forall_of_forall_of_flip (fun _ _ _ => rfl) hleft hright
    (mem_all a) (mem_all b) h

/-- A text is the token of at most one word, whatever the case. -/
theorem eq_of_sameLetters {a b : α} {s : String} (ha : sameLetters (token a) s = true)
    (hb : sameLetters (token b) s = true) : a = b := by
  have hsymm : ∀ {a b : α}, sameLetters (token a) (token b) = true →
      sameLetters (token b) (token a) = true := by
    intro a b h
    rw [sameLetters_iff] at h ⊢
    exact h.symm
  refine eq_of_pairwise hsymm distinct ?_
  rw [sameLetters_iff] at ha hb ⊢
  exact ha.trans hb.symm

theorem token_injective : Function.Injective (token : α → String) := by
  intro a b h
  exact eq_of_sameLetters (sameLetters_iff.mpr (by rw [h])) (sameLetters_iff.mpr rfl)

/-- The first word with exactly the token of a word is that word. -/
theorem all_find?_token (a : α) :
    ((all : List α).find? fun b => token b == token a) = some a := by
  cases h : (all : List α).find? fun b => token b == token a with
  | none => exact absurd (beq_self_eq_true (token a)) (List.find?_eq_none.mp h a (mem_all a))
  | some b =>
    have hb := List.find?_some h
    rw [token_injective (beq_iff_eq.mp hb)]

/-- A text is read as the word that is written by it, whatever the case. -/
theorem find?_eq_some_iff {a : α} {s : String} :
    find? s = some a ↔ sameLetters (token a) s = true := by
  unfold find?
  constructor
  · intro h
    have hsame := List.find?_some h
    exact hsame
  · intro ha
    cases h : (all : List α).find? fun b => sameLetters (token b) s with
    | none => exact absurd ha (List.find?_eq_none.mp h a (mem_all a))
    | some b =>
      have hb := List.find?_some h
      rw [eq_of_sameLetters ha hb]

end Vocabulary

end DocumentQuery

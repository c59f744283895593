import DocumentQuery.Schema.Suggestion
import Mathlib.Data.List.Basic
import Mathlib.Order.Bounds.Basic
/-!
# Edit distance

The distance of two texts is meant as the least number of edits that lead from the one
to the other, each of a single character anywhere in the text. The program computes it
row by row, a character of the first text at a time, and keeps the distances to all
beginnings of the second. In between stands the recursion on both texts: a row holds its
values, where the texts are taken from their ends (`distanceRow_eq`), and its value is the
least number of edits (`isLeast_distance`).

Main definitions:
* `Edit`, `Edits`: one edit, and so many in a row.
* `distance`: the recursion.

Results:
* `isLeast_editDistance`: the computed distance is the least number of edits.
-/
namespace DocumentQuery

/-- One character is inserted, removed or replaced. -/
inductive Edit : List Char → List Char → Prop
  | insert (c : Char) (a : List Char) : Edit a (c :: a)
  | remove (c : Char) (a : List Char) : Edit (c :: a) a
  | replace (c d : Char) (a : List Char) : Edit (c :: a) (d :: a)
  | later (c : Char) {a b : List Char} (h : Edit a b) : Edit (c :: a) (c :: b)

/-- So many edits, one after the other, lead from the first text to the second. -/
inductive Edits : Nat → List Char → List Char → Prop
  | done (a : List Char) : Edits 0 a a
  | next {n : Nat} {a b t : List Char} (h : Edit a b) (hs : Edits n b t) : Edits (n + 1) a t

namespace Edit

variable {a b : List Char}

theorem append_left (h : Edit a b) : ∀ front, Edit (front ++ a) (front ++ b)
  | [] => h
  | c :: front => (h.append_left front).later c

theorem append_right (h : Edit a b) (back : List Char) : Edit (a ++ back) (b ++ back) := by
  induction h with
  | insert c a => exact .insert c (a ++ back)
  | remove c a => exact .remove c (a ++ back)
  | replace c d a => exact .replace c d (a ++ back)
  | later c _ ih => exact ih.later c

theorem reverse (h : Edit a b) : Edit a.reverse b.reverse := by
  induction h with
  | insert c a =>
    rw [List.reverse_cons]
    simpa using (Edit.insert c []).append_left a.reverse
  | remove c a =>
    rw [List.reverse_cons]
    simpa using (Edit.remove c []).append_left a.reverse
  | replace c d a =>
    rw [List.reverse_cons, List.reverse_cons]
    exact (Edit.replace c d []).append_left a.reverse
  | later c _ ih =>
    rw [List.reverse_cons, List.reverse_cons]
    exact ih.append_right [c]

end Edit

namespace Edits

variable {n : Nat} {a b : List Char}

theorem later (h : Edits n a b) (c : Char) : Edits n (c :: a) (c :: b) := by
  induction h with
  | done a => exact .done (c :: a)
  | next h _ ih => exact .next (h.later c) ih

theorem reverse (h : Edits n a b) : Edits n a.reverse b.reverse := by
  induction h with
  | done a => exact .done a.reverse
  | next h _ ih => exact .next h.reverse ih

theorem reverse_iff : Edits n a.reverse b.reverse ↔ Edits n a b := by
  constructor
  · intro h
    simpa using h.reverse
  · exact reverse

theorem zero_iff : Edits 0 a b ↔ a = b := by
  constructor
  · rintro ⟨⟩
    rfl
  · rintro rfl
    exact .done a

/-- A character of the result is inserted first. -/
theorem insert (h : Edits n a b) (c : Char) : Edits (n + 1) a (c :: b) :=
  .next (.insert c a) (h.later c)

theorem remove (h : Edits n a b) (c : Char) : Edits (n + 1) (c :: a) b :=
  .next (.remove c a) h

theorem replace (h : Edits n a b) (c d : Char) : Edits (n + 1) (c :: a) (d :: b) :=
  .next (.replace c d a) (h.later d)

end Edits

/-! ## The recursion on both texts -/

/-- The distance of two texts from those of shorter ones: the first character of one of them is left
out, or of both. -/
def distance : List Char → List Char → Nat
  | [], b => b.length
  | c :: a, [] => (c :: a).length
  | c :: a, d :: b =>
    min (min (distance (c :: a) b + 1) (distance a (d :: b) + 1))
      (if c = d then distance a b else distance a b + 1)
termination_by a b => a.length + b.length

section Distance

variable (a b : List Char) (c d : Char)

theorem distance_nil_left : distance [] b = b.length := by rw [distance]

theorem distance_nil_right : distance a [] = a.length := by
  cases a <;> rw [distance]

theorem distance_cons_cons : distance (c :: a) (d :: b) =
    min (min (distance (c :: a) b + 1) (distance a (d :: b) + 1))
      (if c = d then distance a b else distance a b + 1) := by rw [distance]

/-- One of the three choices is the least. -/
theorem distance_cons_cases :
    distance (c :: a) (d :: b) = distance (c :: a) b + 1 ∨
    distance (c :: a) (d :: b) = distance a (d :: b) + 1 ∨
    (c = d ∧ distance (c :: a) (d :: b) = distance a b) ∨
    distance (c :: a) (d :: b) = distance a b + 1 := by
  rw [distance_cons_cons]
  split
  · rename_i h
    simp only [h, true_and]
    omega
  · omega

theorem distance_cons_left_le : distance (c :: a) b ≤ distance a b + 1 := by
  cases b with
  | nil => rw [distance_nil_right, distance_nil_right, List.length_cons]
  | cons d b =>
    rw [distance_cons_cons]
    omega

theorem distance_cons_right_le : distance a (d :: b) ≤ distance a b + 1 := by
  cases a with
  | nil => rw [distance_nil_left, distance_nil_left, List.length_cons]
  | cons c a =>
    rw [distance_cons_cons]
    omega

theorem distance_cons_cons_le : distance (c :: a) (d :: b) ≤ distance a b + 1 := by
  rw [distance_cons_cons]
  split <;> omega

theorem distance_cons_same_le : distance (c :: a) (c :: b) ≤ distance a b := by
  rw [distance_cons_cons, if_pos rfl]
  omega

end Distance

theorem edits_distance (a b : List Char) : Edits (distance a b) a b := by
  induction a, b using distance.induct with
  | case1 b =>
    rw [distance_nil_left]
    induction b with
    | nil => exact .done []
    | cons d b ih => exact ih.insert d
  | case2 c a =>
    rw [distance_nil_right]
    generalize c :: a = text
    induction text with
    | nil => exact .done []
    | cons c a ih => exact ih.remove c
  | case3 c a d b hinsert hremove hboth =>
    rcases distance_cons_cases a b c d with h | h | ⟨rfl, h⟩ | h
    · exact h ▸ hinsert.insert d
    · exact h ▸ hremove.remove c
    · exact h ▸ hboth.later c
    · exact h ▸ hboth.replace c d

/-- One edit of the first text changes the distance by one at most. -/
theorem Edit.distance_le {a b : List Char} (h : Edit a b) (t : List Char) :
    distance a t ≤ distance b t + 1 := by
  induction h generalizing t with
  | insert c a =>
    induction t with
    | nil =>
      rw [distance_nil_right, distance_nil_right, List.length_cons]
      omega
    | cons d t ih =>
      have hinsert := distance_cons_right_le a t d
      rcases distance_cons_cases a t c d with h | h | ⟨-, h⟩ | h <;> omega
  | remove c a => exact distance_cons_left_le a t c
  | replace c d a =>
    induction t with
    | nil =>
      rw [distance_nil_right, distance_nil_right, List.length_cons, List.length_cons]
      omega
    | cons e t ih =>
      have hinsert := distance_cons_right_le (c :: a) t e
      have hremove := distance_cons_left_le a (e :: t) c
      have hboth := distance_cons_cons_le a t c e
      rcases distance_cons_cases a t d e with h | h | ⟨-, h⟩ | h <;> omega
  | @later c a b _ hrest =>
    induction t with
    | nil =>
      have hlength := hrest []
      simp only [distance_nil_right, List.length_cons] at hlength ⊢
      omega
    | cons e t ih =>
      have hinsert := distance_cons_right_le (c :: a) t e
      have hremove := distance_cons_left_le a (e :: t) c
      have hboth := distance_cons_cons_le a t c e
      have hlater := hrest t
      have hmore := hrest (e :: t)
      rcases distance_cons_cases b t c e with h | h | ⟨rfl, h⟩ | h
      · omega
      · omega
      · have hsame := distance_cons_same_le a t c
        omega
      · omega

theorem distance_self (a : List Char) : distance a a = 0 := by
  induction a with
  | nil => exact distance_nil_left []
  | cons c a ih =>
    have hsame := distance_cons_same_le a a c
    omega

theorem Edits.distance_le {n : Nat} {a b : List Char} (h : Edits n a b) : distance a b ≤ n := by
  induction h with
  | done a => exact (distance_self a).le
  | next h _ ih => exact (h.distance_le _).trans (Nat.succ_le_succ ih)

/-- The recursion gives the least number of edits. -/
theorem isLeast_distance (a b : List Char) : IsLeast {n | Edits n a b} (distance a b) :=
  ⟨edits_distance a b, fun _ h => h.distance_le⟩

theorem distance_reverse (a b : List Char) : distance a.reverse b.reverse = distance a b := by
  refine (isLeast_distance a.reverse b.reverse).unique ?_
  simpa only [Edits.reverse_iff] using isLeast_distance a b

/-! ## Row by row -/

/-- The beginnings of a text that are longer than `start`, shortest first, where `start` and each of
them has its last character first. -/
def beginnings (start : List Char) : List Char → List (List Char)
  | [] => []
  | d :: b => (d :: start) :: beginnings (d :: start) b

theorem beginnings_map_length (start b : List Char) :
    (beginnings start b).map List.length = List.range' (start.length + 1) b.length := by
  induction b generalizing start with
  | nil => rfl
  | cons d b ih =>
    rw [beginnings, List.map_cons, ih, List.length_cons, List.length_cons, List.range'_succ]

theorem getLast?_beginnings (start b : List Char) :
    (start :: beginnings start b).getLast? = some (b.reverse ++ start) := by
  induction b generalizing start with
  | nil => rfl
  | cons d b ih =>
    rw [beginnings, List.getLast?_cons_cons, ih, List.reverse_cons, List.append_assoc,
      List.singleton_append]

/-- The distances of a text to `start` and the longer beginnings of `b`. -/
def rowFrom (a start b : List Char) : List Nat := (start :: beginnings start b).map (distance a)

theorem extendRow_eq (c : Char) (a start b : List Char) :
    extendRow c (distance (c :: a) start) b (rowFrom a start b) =
      (beginnings start b).map (distance (c :: a)) := by
  induction b generalizing start with
  | nil => rfl
  | cons d b ih =>
    have hhere : min (min (distance (c :: a) start + 1) (distance a (d :: start) + 1))
        (if c = d then distance a start else distance a start + 1) =
          distance (c :: a) (d :: start) := (distance_cons_cons a start c d).symm
    simp only [rowFrom, beginnings, List.map_cons, extendRow, hhere] at ih ⊢
    rw [ih]

theorem nextRow_eq (c : Char) (a b : List Char) :
    nextRow b (rowFrom a [] b) c = rowFrom (c :: a) [] b := by
  have hfirst : distance a [] + 1 = distance (c :: a) [] := by
    rw [distance_nil_right, distance_nil_right, List.length_cons]
  show (distance a [] + 1) :: extendRow c (distance a [] + 1) b (rowFrom a [] b) = _
  rw [hfirst, extendRow_eq]
  rfl

theorem foldl_nextRow_eq (a taken b : List Char) :
    a.foldl (nextRow b) (rowFrom taken [] b) = rowFrom (a.reverse ++ taken) [] b := by
  induction a generalizing taken with
  | nil => rfl
  | cons c a ih =>
    rw [List.foldl_cons, nextRow_eq, ih, List.reverse_cons, List.append_assoc,
      List.singleton_append]

/-- The row of a text holds its distances to all beginnings of the other, from their ends. -/
theorem distanceRow_eq (a b : List Char) : distanceRow a b = rowFrom a.reverse [] b := by
  have hstart : List.range (b.length + 1) = rowFrom [] [] b := by
    have hlength : distance [] = List.length := funext distance_nil_left
    rw [rowFrom, hlength, List.map_cons, beginnings_map_length, List.range_eq_range',
      List.range'_succ]
    rfl
  rw [distanceRow, hstart, foldl_nextRow_eq, List.append_nil]

theorem editDistance_eq (s t : String) : editDistance s t = distance s.toList t.toList := by
  rw [editDistance, distanceRow_eq, rowFrom, List.getLast?_map, getLast?_beginnings,
    Option.map_some, Option.getD_some, List.append_nil, distance_reverse]

/-- The computed distance is the least number of edits. -/
theorem isLeast_editDistance (s t : String) :
    IsLeast {n | Edits n s.toList t.toList} (editDistance s t) :=
  editDistance_eq s t ▸ isLeast_distance s.toList t.toList

theorem editDistance_eq_zero_iff {s t : String} : editDistance s t = 0 ↔ s = t := by
  constructor
  · intro h
    have hedits := (isLeast_editDistance s t).1
    rw [h] at hedits
    exact String.toList_injective (Edits.zero_iff.mp hedits)
  · rintro rfl
    rw [editDistance_eq, distance_self]

end DocumentQuery

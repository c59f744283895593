import Mathlib.Data.List.Forall2
import DocumentQuery.Filter.Basic
/-!
# Statements about documents

A `Formula` is a statement about a document, built from `Atom`s, the single
tests that a database makes. It is the common ground of filters and of what is
rendered from them: both are read as formulas, and the readings are compared.

Main definitions:
* `Formula.holds`: the truth value of a formula, given what its atoms mean.
* `Formula.atoms`: the atoms of a formula, from left to right.
* `Formula.Same`: two formulas agree on every document whatever their atoms
  mean, and have the same atoms.

Results:
* `Same.all_congr`, `Same.any_congr`: `Same` goes through connectives.
* `Same.all_append`: a conjunction may be split.
-/
namespace DocumentQuery

/-! ## Operands -/

namespace Param

/-- The parameter that a placeholder stands for. -/
def ofPlaceholder? (s : String) : Option Param :=
  match s.toList with
  | ':' :: cs =>
    if h : Identifier.Valid (String.ofList cs) then some ⟨String.ofList cs, h⟩ else none
  | _ => none

@[simp] theorem ofPlaceholder?_placeholder (p : Param) : ofPlaceholder? p.placeholder = some p := by
  obtain ⟨name, valid⟩ := p
  have h : (":" ++ name).toList = ':' :: name.toList := by simp
  simp only [ofPlaceholder?, placeholder, h, String.ofList_toList, dif_pos valid]

end Param

/-! ## Formulas -/

/-- A single test of a document; its operands are bound when the query is run. -/
inductive Atom where
  /-- The value at the path passes the test; a pattern may come with options. -/
  | test (path : String) (operator : FilterOperator) (value : Param) (options : Option Param)
  /-- There is a value at the path, or there is none. -/
  | presence (path : String) (present : Bool)
  /-- The text index of the collection has the words. -/
  | words (t : TextSearch)
  /-- The location at the path passes the test against a point. -/
  | place (path : String) (operator : FilterOperator) (lon lat : Param)
      (greatest least : Option Param)

/-- A statement about a document. -/
inductive Formula where
  | atom (a : Atom)
  | all (φs : List Formula)
  | any (φs : List Formula)
  | not (φ : Formula)
  /-- Some element of the array at the path has the property. -/
  | element (path : String) (φ : Formula)

/-- What atoms mean on documents of type `δ`; the elements of arrays are documents too. -/
structure Interpretation (δ : Type) where
  /-- Whether a document passes an atom. -/
  passes : Atom → δ → Bool
  /-- The elements of the array at a path. -/
  elements : String → δ → List δ

namespace Formula

/-! ## Truth -/

section Truth

variable {δ : Type} (I : Interpretation δ)

mutual

/-- Whether the document has the property that the formula states. -/
def holds : Formula → δ → Bool
  | .atom a, d => I.passes a d
  | .all φs, d => allHold φs d
  | .any φs, d => anyHolds φs d
  | .not φ, d => !holds φ d
  | .element path φ, d => (I.elements path d).any fun e => holds φ e

/-- Whether all the formulas hold. -/
def allHold : List Formula → δ → Bool
  | [], _ => true
  | φ :: φs, d => holds φ d && allHold φs d

/-- Whether one of the formulas holds. -/
def anyHolds : List Formula → δ → Bool
  | [], _ => false
  | φ :: φs, d => holds φ d || anyHolds φs d

end

@[simp] theorem holds_atom (a : Atom) (d : δ) : (atom a).holds I d = I.passes a d := rfl

@[simp] theorem holds_not (φ : Formula) (d : δ) : (Formula.not φ).holds I d = !φ.holds I d := rfl

@[simp] theorem holds_element (path : String) (φ : Formula) (d : δ) :
    (element path φ).holds I d = (I.elements path d).any fun e => φ.holds I e := rfl

@[simp] theorem holds_all (φs : List Formula) (d : δ) :
    (all φs).holds I d = φs.all fun φ => φ.holds I d := by
  show allHold I φs d = _
  induction φs with
  | nil => rfl
  | cons φ φs ih => rw [allHold, ih, List.all_cons]

@[simp] theorem holds_any (φs : List Formula) (d : δ) :
    (any φs).holds I d = φs.any fun φ => φ.holds I d := by
  show anyHolds I φs d = _
  induction φs with
  | nil => rfl
  | cons φ φs ih => rw [anyHolds, ih, List.any_cons]

end Truth

/-! ## Atoms -/

mutual

/-- The atoms of a formula, from left to right. -/
def atoms : Formula → List Atom
  | .atom a => [a]
  | .all φs => atomsOfAll φs
  | .any φs => atomsOfAll φs
  | .not φ => atoms φ
  | .element _ φ => atoms φ

/-- The atoms of several formulas. -/
def atomsOfAll : List Formula → List Atom
  | [] => []
  | φ :: φs => atoms φ ++ atomsOfAll φs

end

theorem atomsOfAll_eq (φs : List Formula) : atomsOfAll φs = φs.flatMap atoms := by
  induction φs with
  | nil => rfl
  | cons φ φs ih => rw [atomsOfAll, ih, List.flatMap_cons]

@[simp] theorem atoms_atom (a : Atom) : (atom a).atoms = [a] := rfl

@[simp] theorem atoms_not (φ : Formula) : (Formula.not φ).atoms = φ.atoms := rfl

@[simp] theorem atoms_element (path : String) (φ : Formula) :
    (element path φ).atoms = φ.atoms := rfl

@[simp] theorem atoms_all (φs : List Formula) : (all φs).atoms = φs.flatMap atoms :=
  atomsOfAll_eq φs

@[simp] theorem atoms_any (φs : List Formula) : (any φs).atoms = φs.flatMap atoms :=
  atomsOfAll_eq φs

/-! ## Formulas that say the same -/

/-- The formulas agree on every document under every interpretation, and the same atoms occur in
both equally often. -/
structure Same (φ ψ : Formula) : Prop where
  holds : ∀ {δ : Type} (I : Interpretation δ) (d : δ), φ.holds I d = ψ.holds I d
  atoms : φ.atoms.Perm ψ.atoms

namespace Same

variable {φ ψ χ : Formula} {φs ψs : List Formula}

theorem refl (φ : Formula) : Same φ φ := ⟨fun _ _ => rfl, .refl _⟩

theorem symm (h : Same φ ψ) : Same ψ φ := ⟨fun I d => (h.holds I d).symm, h.atoms.symm⟩

theorem trans (h : Same φ ψ) (h' : Same ψ χ) : Same φ χ :=
  ⟨fun I d => (h.holds I d).trans (h'.holds I d), h.atoms.trans h'.atoms⟩

theorem not_congr (h : Same φ ψ) : Same (.not φ) (.not ψ) :=
  ⟨fun I d => by rw [holds_not, holds_not, h.holds I d], h.atoms⟩

theorem element_congr (path : String) (h : Same φ ψ) : Same (.element path φ) (.element path ψ) :=
  ⟨fun I d => by simp only [holds_element, h.holds I], h.atoms⟩

theorem atoms_flatMap (h : List.Forall₂ Same φs ψs) :
    (φs.flatMap Formula.atoms).Perm (ψs.flatMap Formula.atoms) := by
  induction h with
  | nil => exact .refl _
  | cons h _ ih => simpa only [List.flatMap_cons] using h.atoms.append ih

theorem all_congr (h : List.Forall₂ Same φs ψs) : Same (.all φs) (.all ψs) := by
  refine ⟨fun I d => ?_, by simpa using atoms_flatMap h⟩
  simp only [holds_all]
  induction h with
  | nil => rfl
  | cons h _ ih => rw [List.all_cons, List.all_cons, h.holds I d, ih]

theorem any_congr (h : List.Forall₂ Same φs ψs) : Same (.any φs) (.any ψs) := by
  refine ⟨fun I d => ?_, by simpa using atoms_flatMap h⟩
  simp only [holds_any]
  induction h with
  | nil => rfl
  | cons h _ ih => rw [List.any_cons, List.any_cons, h.holds I d, ih]

theorem all_singleton (φ : Formula) : Same (.all [φ]) φ :=
  ⟨fun I d => by simp, by simp⟩

theorem any_singleton (φ : Formula) : Same (.any [φ]) φ :=
  ⟨fun I d => by simp, by simp⟩

/-- A conjunction is the conjunction of two parts of it. -/
theorem all_append (φs ψs : List Formula) : Same (.all (φs ++ ψs)) (.all [.all φs, .all ψs]) :=
  ⟨fun I d => by simp, by simp⟩

theorem all_append_congr {φs' ψs' : List Formula} (h : Same (.all φs) (.all φs'))
    (h' : Same (.all ψs) (.all ψs')) : Same (.all (φs ++ ψs)) (.all (φs' ++ ψs')) := by
  refine ⟨fun I d => ?_, ?_⟩
  · have ht := h.holds I d
    have ht' := h'.holds I d
    simp only [holds_all, List.all_append] at ht ht' ⊢
    rw [ht, ht']
  · have ha := h.atoms
    have ha' := h'.atoms
    simp only [atoms_all, List.flatMap_append] at ha ha' ⊢
    exact ha.append ha'

theorem all_cons_congr (h : Same φ ψ) (h' : Same (.all φs) (.all ψs)) :
    Same (.all (φ :: φs)) (.all (ψ :: ψs)) :=
  all_append_congr (all_congr (.cons h .nil)) h'

theorem any_cons_congr (h : Same φ ψ) (h' : Same (.any φs) (.any ψs)) :
    Same (.any (φ :: φs)) (.any (ψ :: ψs)) := by
  refine ⟨fun I d => ?_, ?_⟩
  · have ht := h'.holds I d
    simp only [holds_any, List.any_cons] at ht ⊢
    rw [h.holds I d, ht]
  · have ha := h'.atoms
    simp only [atoms_any, List.flatMap_cons] at ha ⊢
    exact h.atoms.append ha

/-- The order of a conjunction is of no account. -/
theorem all_perm (h : φs.Perm ψs) : Same (.all φs) (.all ψs) := by
  refine ⟨fun I d => ?_, ?_⟩
  · rw [holds_all, holds_all, h.all_eq]
  · rw [atoms_all, atoms_all]
    exact h.flatMap_right _

end Same

end Formula

end DocumentQuery

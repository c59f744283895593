import Mathlib.Data.List.Infix
import DocumentQuery.Identifier
/-!
# Identifiers and paths

An identifier has no dot, and no pattern that is looked for in a name has one.
So the dots of a path are where its segments meet, and a pattern that occurs in a
path occurs inside one of the segments.

Results:
* `Identifier.Valid.no_dot`: identifiers have no dots.
* `occursIn_iff`: a pattern occurs in a text if it is a part of it.
* `FieldPath.valid_of_identifier`, `FieldPath.valid_append_dot`: an identifier is
  a path, and so is an identifier in front of a path.
* `FieldPath.Valid.starts`: how a path starts.
-/
namespace DocumentQuery

/-- What is in a list joined from pieces is a separator or in one of the pieces. -/
theorem mem_of_mem_intercalate {α : Type} {a c : α} {pieces : List (List α)}
    (h : c ∈ [a].intercalate pieces) : c = a ∨ ∃ t ∈ pieces, c ∈ t := by
  induction pieces with
  | nil => cases h
  | cons t pieces ih =>
    cases pieces with
    | nil =>
      rw [List.intercalate_singleton] at h
      exact .inr ⟨t, List.mem_cons_self, h⟩
    | cons u pieces =>
      rw [List.intercalate_cons_cons, List.mem_append, List.mem_append, List.mem_singleton] at h
      rcases h with (h | h) | h
      · exact .inr ⟨t, List.mem_cons_self, h⟩
      · exact .inl h
      · refine (ih h).imp_right fun hpieces => ?_
        obtain ⟨v, hv, hc⟩ := hpieces
        exact ⟨v, List.mem_cons_of_mem t hv, hc⟩

/-! ## Identifiers have no dots -/

theorem isNameChar_of_isNameStart {c : Char} (h : isNameStart c = true) : isNameChar c = true := by
  simp only [isNameStart, isNameChar, Char.isAlphanum, Bool.or_eq_true] at h ⊢
  rcases h with h | h
  · exact .inl (.inl h)
  · exact .inr h

theorem isNameChar_of_segmentFault? {cs : List Char} (h : segmentFault? isNameStart cs = none) :
    ∀ c ∈ cs, isNameChar c = true := by
  cases cs with
  | nil => simp
  | cons c cs =>
    rw [segmentFault?] at h
    by_cases hstart : isNameStart c = true
    · simp only [hstart, if_true, Option.map_eq_none_iff, List.find?_eq_none] at h
      intro d hd
      rcases List.mem_cons.mp hd with rfl | hd
      · exact isNameChar_of_isNameStart hstart
      · simpa using h d hd
    · simp [hstart] at h

theorem Identifier.Valid.no_dot {s : String} (h : Identifier.Valid s) : '.' ∉ s.toList := by
  obtain ⟨-, hsegment, -⟩ := Identifier.valid_iff.mp h
  intro hdot
  have hchar := isNameChar_of_segmentFault? hsegment '.' hdot
  exact absurd hchar (by decide)

/-! ## Patterns in joined texts -/

/-- A part without the separator that occurs in a joined text occurs on one side of it. -/
theorem infix_of_infix_append_cons {α : Type} {p as bs : List α} {a : α} (ha : a ∉ p)
    (h : p <:+: as ++ a :: bs) : p <:+: as ∨ p <:+: bs := by
  obtain ⟨front, back, heq⟩ := h
  rw [List.append_assoc] at heq
  rcases List.append_eq_append_iff.mp heq with ⟨gap, rfl, hgap⟩ | ⟨gap, rfl, hgap⟩
  · -- the part starts before the separator, so it ends there too
    rcases List.append_eq_append_iff.mp hgap with ⟨rest, rfl, -⟩ | ⟨rest, rfl, hrest⟩
    · exact .inl ⟨front, rest, List.append_assoc ..⟩
    · cases rest with
      | nil => exact .inl ⟨front, [], by simp⟩
      | cons b rest =>
        obtain rfl : a = b := (List.cons.inj hrest).1
        exact absurd (List.mem_append_right gap List.mem_cons_self) ha
  · cases gap with
    | nil =>
      cases p with
      | nil => exact .inl List.nil_infix
      | cons b p =>
        obtain rfl : a = b := (List.cons.inj hgap).1
        exact absurd List.mem_cons_self ha
    | cons b gap =>
      obtain rfl : bs = gap ++ (p ++ back) := (List.cons.inj hgap).2
      exact .inr ⟨gap, back, List.append_assoc ..⟩

theorem occursIn_iff {p cs : List Char} : occursIn p cs = true ↔ p <:+: cs := by
  induction cs with
  | nil => simp [occursIn]
  | cons c cs ih => simp [occursIn, ih, List.infix_cons_iff]

theorem patternFault?_eq_none_iff {cs : List Char} :
    patternFault? cs = none ↔ ∀ p ∈ suspiciousPatterns, ¬ p.toList <:+: cs.map Char.toLower := by
  simp [patternFault?, ← occursIn_iff]

/-- No pattern reaches over a dot. -/
theorem patternFault?_append_dot {as bs : List Char} (ha : patternFault? as = none)
    (hb : patternFault? bs = none) : patternFault? (as ++ '.' :: bs) = none := by
  rw [patternFault?_eq_none_iff] at ha hb ⊢
  intro p hp hinfix
  have hdot : '.' ∉ p.toList := by
    have hall : suspiciousPatterns.all (fun p => !p.toList.contains '.') = true := by decide
    simpa using List.all_eq_true.mp hall p hp
  rw [List.map_append, List.map_cons] at hinfix
  rcases infix_of_infix_append_cons hdot hinfix with h | h
  · exact ha p hp h
  · exact hb p hp h

/-! ## Paths of identifiers -/

theorem dotSegments_of_no_dot {cs : List Char} (h : '.' ∉ cs) : dotSegments cs = [cs] := by
  induction cs with
  | nil => rfl
  | cons c cs ih =>
    obtain ⟨hc, hcs⟩ : ¬ '.' = c ∧ '.' ∉ cs := by simpa using h
    rw [dotSegments, if_neg fun he => hc he.symm, ih hcs]

theorem dotSegments_append_dot {as bs : List Char} (h : '.' ∉ as) :
    dotSegments (as ++ '.' :: bs) = as :: dotSegments bs := by
  induction as with
  | nil => rfl
  | cons c as ih =>
    obtain ⟨hc, has⟩ : ¬ '.' = c ∧ '.' ∉ as := by simpa using h
    rw [List.cons_append, dotSegments, if_neg fun he => hc he.symm, ih has]

namespace FieldPath

theorem pieceFault?_of_valid {s : String} (h : Identifier.Valid s) :
    pieceFault? s.toList = none := by
  obtain ⟨hblank, hsegment, -⟩ := Identifier.valid_iff.mp h
  obtain ⟨hne, -⟩ := blankFault?_eq_none_iff.mp hblank
  cases hs : s.toList with
  | nil => exact absurd hs hne
  | cons c cs =>
    rw [hs, segmentFault?] at hsegment
    split at hsegment
    · rename_i hstart
      rw [pieceFault?, segmentFault?, hstart, Bool.true_or, if_pos rfl]
      exact hsegment
    · cases hsegment

/-- An identifier is a path of one segment. -/
theorem valid_of_identifier {s : String} (h : Identifier.Valid s) : Valid s := by
  obtain ⟨hblank, -, hpattern⟩ := Identifier.valid_iff.mp h
  refine valid_iff.mpr ⟨hblank, ?_, hpattern⟩
  rw [dotSegments_of_no_dot h.no_dot, List.findSome?_singleton]
  exact pieceFault?_of_valid h

/-- An identifier in front of a path makes a path. -/
theorem valid_append_dot {s t : String} (hs : Identifier.Valid s) (ht : Valid t) :
    Valid (s ++ "." ++ t) := by
  obtain ⟨hblank, -, hpattern⟩ := Identifier.valid_iff.mp hs
  obtain ⟨hblank', hpieces, hpattern'⟩ := valid_iff.mp ht
  have htext : (s ++ "." ++ t).toList = s.toList ++ '.' :: t.toList := by simp
  rw [valid_iff, htext]
  refine ⟨?_, ?_, patternFault?_append_dot hpattern hpattern'⟩
  · rw [blankFault?_eq_none_iff] at hblank hblank' ⊢
    refine ⟨by simp, List.forall_mem_append.mpr ⟨hblank.2, ?_⟩⟩
    exact List.forall_mem_cons.mpr ⟨by decide, hblank'.2⟩
  · rw [dotSegments_append_dot hs.no_dot, List.findSome?_cons, pieceFault?_of_valid hs]
    exact hpieces

/-- A field path starts with the start of an identifier or with the mark of a segment. -/
theorem Valid.starts {s : String} (h : Valid s) {c : Char} {cs : List Char}
    (hs : s.toList = c :: cs) : (isNameStart c || c == marker) = true := by
  obtain ⟨-, hpieces, -⟩ := valid_iff.mp h
  rw [hs] at hpieces
  by_cases hdot : c = '.'
  · -- a dot leaves the first segment empty
    subst hdot
    cases hpieces
  · cases hstart : isNameStart c || c == marker with
    | true => rfl
    | false =>
      have hfirst : (dotSegments (c :: cs)).findSome? pieceFault? =
          some (.invalidStart c) := by
        unfold dotSegments
        rw [if_neg hdot]
        split <;> simp [pieceFault?, segmentFault?, hstart]
      cases hfirst.symm.trans hpieces

end FieldPath

end DocumentQuery

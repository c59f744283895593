import DocumentQuery.Proofs.Names
/-!
# The grammar of names

An identifier is one segment and a field path is one or more of them with dots between.
A segment is a letter, an underscore or, in paths, a dollar sign, and after that letters,
digits and underscores, all ASCII. Besides, a name must not say `exec` in any letter
case. The list of patterns that are looked for in a name is longer, but each of the
others has a character that no segment has, so it is never the reason why a name is
rejected.

Main definitions:
* `IsSegment`: the segments, by the characters that may come first.
* `SaysExec`: the texts with the one pattern that counts.
* `Offends`: why a piece of a text is no segment, character by character.
* `Reason`: why a text is rejected, the first reason of all.

Results:
* `patternFault?_eq_some_iff`: `exec` is the only pattern that is ever found.
* `reason_iff`: why a text in pieces is rejected.
* `names_exact`: identifiers and field paths are exactly the texts of the grammar, and
  the reason given for all others is the right one.
-/
namespace DocumentQuery

/-! ## Characters -/

/-- An ASCII letter. -/
def IsLetter (c : Char) : Prop := ('a' ≤ c ∧ c ≤ 'z') ∨ ('A' ≤ c ∧ c ≤ 'Z')

/-- An ASCII digit. -/
def IsDigit (c : Char) : Prop := '0' ≤ c ∧ c ≤ '9'

/-- A character that may follow in a segment. -/
def Follows (c : Char) : Prop := IsLetter c ∨ IsDigit c ∨ c = '_'

instance (c : Char) : Decidable (IsLetter c) := inferInstanceAs (Decidable (_ ∨ _))

instance (c : Char) : Decidable (IsDigit c) := inferInstanceAs (Decidable (_ ∧ _))

instance (c : Char) : Decidable (Follows c) := inferInstanceAs (Decidable (_ ∨ _))

/-- A character that may start an identifier. -/
def Identifier.Starts (c : Char) : Prop := IsLetter c ∨ c = '_'

/-- A character that may start a segment of a path. -/
def FieldPath.Starts (c : Char) : Prop := IsLetter c ∨ c = '_' ∨ c = '$'

theorem isAlpha_iff {c : Char} : c.isAlpha = true ↔ IsLetter c := by
  show (decide ('A' ≤ c ∧ c ≤ 'Z') || (decide ('a' ≤ c) && decide (c ≤ 'z'))) = true ↔ _
  simp only [Bool.or_eq_true, Bool.and_eq_true, decide_eq_true_iff]
  exact or_comm

theorem isDigit_iff {c : Char} : c.isDigit = true ↔ IsDigit c := by
  simp [Char.isDigit, IsDigit, Char.le_def]

theorem isNameStart_iff {c : Char} : isNameStart c = true ↔ Identifier.Starts c := by
  simp [isNameStart, Identifier.Starts, isAlpha_iff]

theorem isNameChar_iff {c : Char} : isNameChar c = true ↔ Follows c := by
  simp [isNameChar, Follows, Char.isAlphanum, isAlpha_iff, isDigit_iff, or_assoc]

theorem isPathStart_iff {c : Char} :
    (isNameStart c || c == FieldPath.marker) = true ↔ FieldPath.Starts c := by
  simp [isNameStart_iff, Identifier.Starts, FieldPath.Starts, FieldPath.marker, or_assoc]

instance (c : Char) : Decidable (Identifier.Starts c) := inferInstanceAs (Decidable (_ ∨ _))

instance (c : Char) : Decidable (FieldPath.Starts c) := inferInstanceAs (Decidable (_ ∨ _))

/-- A character of a field path. -/
def IsPathChar (c : Char) : Prop := Follows c ∨ c = '.' ∨ c = '$'

instance (c : Char) : Decidable (IsPathChar c) := inferInstanceAs (Decidable (_ ∨ _))

theorem isLetter_iff {c : Char} :
    IsLetter c ↔ (97 ≤ c.toNat ∧ c.toNat ≤ 122) ∨ (65 ≤ c.toNat ∧ c.toNat ≤ 90) := Iff.rfl

theorem isDigit_iff_toNat {c : Char} : IsDigit c ↔ 48 ≤ c.toNat ∧ c.toNat ≤ 57 := Iff.rfl

theorem IsPathChar.not_blank {c : Char} (h : IsPathChar c) : Text.isBlank c = false := by
  rcases h with (h | h | rfl) | rfl | rfl
  · rw [isLetter_iff] at h
    simp [Text.isBlank, Text.blankRanges]
    omega
  · rw [isDigit_iff_toNat] at h
    simp [Text.isBlank, Text.blankRanges]
    omega
  all_goals decide

/-- A letter stays a letter in lower case, and no other character changes. -/
theorem IsPathChar.toLower {c : Char} (h : IsPathChar c) : IsPathChar c.toLower := by
  by_cases hc : 'A' ≤ c ∧ c ≤ 'Z'
  · have hrange : 65 ≤ c.toNat ∧ c.toNat ≤ 90 := hc
    have hval : c.toLower.toNat = c.toNat + 32 := by
      calc c.toLower.toNat = (c.toNat + 32) % 2 ^ 32 := congrArg Char.toNat (dif_pos hc)
        _ = c.toNat + 32 := Nat.mod_eq_of_lt (by omega)
    have hletter : IsLetter c.toLower := by
      rw [isLetter_iff, hval]
      omega
    exact .inl (.inl hletter)
  · have hsame : c.toLower = c := dif_neg hc
    rwa [hsame]

/-! ## Segments -/

/-- The text is a character that starts a segment and then any number of characters that follow. -/
def IsSegment (starts : Char → Prop) (cs : List Char) : Prop :=
  ∃ c rest, cs = c :: rest ∧ starts c ∧ ∀ d ∈ rest, Follows d

/-- Why the text is no segment: it is empty, or its first character starts none, or else some later
character does not follow, the first such. -/
inductive Offends (starts : Char → Prop) : List Char → NameFault → Prop
  | empty : Offends starts [] .emptySegment
  | start (c : Char) (rest : List Char) (h : ¬ starts c) :
      Offends starts (c :: rest) (.invalidStart c)
  | follower (c : Char) (front : List Char) (d : Char) (back : List Char) (h : starts c)
      (hfront : ∀ x ∈ front, Follows x) (hd : ¬ Follows d) :
      Offends starts (c :: (front ++ d :: back)) (.invalidChar d)

theorem offends_nil_iff {starts : Char → Prop} {r : NameFault} :
    Offends starts [] r ↔ r = .emptySegment := by
  constructor
  · rintro ⟨⟩
    rfl
  · rintro rfl
    exact .empty

theorem offends_cons_iff {starts : Char → Prop} {c : Char} {cs : List Char} {r : NameFault} :
    Offends starts (c :: cs) r ↔
      (¬ starts c ∧ r = .invalidStart c) ∨
      starts c ∧ ∃ d, (¬ Follows d ∧ ∃ front back, cs = front ++ d :: back ∧
        ∀ x ∈ front, Follows x) ∧ .invalidChar d = r := by
  constructor
  · generalize htext : c :: cs = text
    intro h
    cases h with
    | empty => cases htext
    | start _ _ hnot =>
      cases htext
      exact .inl ⟨hnot, rfl⟩
    | follower _ front d back hc hfront hd =>
      cases htext
      exact .inr ⟨hc, d, ⟨hd, front, back, rfl, hfront⟩, rfl⟩
  · rintro (⟨hnot, rfl⟩ | ⟨hc, d, ⟨hd, front, back, rfl, hfront⟩, rfl⟩)
    · exact .start c cs hnot
    · exact .follower c front d back hc hfront hd

/-- Why a piece is no segment, for any choice of first characters. -/
def segmentFaultOf (starts : Char → Bool) : List Char → Option NameFault
  | [] => some .emptySegment
  | c :: cs => segmentFault? starts (c :: cs)

theorem pieceFault?_eq :
    FieldPath.pieceFault? = segmentFaultOf fun c => isNameStart c || c == FieldPath.marker := by
  funext cs
  cases cs <;> rfl

section Segments

variable {starts : Char → Bool} {Starts : Char → Prop} (hstarts : ∀ c, starts c = true ↔ Starts c)

include hstarts

theorem segmentFaultOf_eq_none_iff {cs : List Char} :
    segmentFaultOf starts cs = none ↔ IsSegment Starts cs := by
  cases cs with
  | nil => simp [segmentFaultOf, IsSegment]
  | cons c cs =>
    rw [segmentFaultOf, segmentFault?]
    by_cases hc : starts c = true
    · simp [hc, IsSegment, ← hstarts, ← isNameChar_iff]
    · simp [hc, IsSegment, ← hstarts]

theorem segmentFaultOf_eq_some_iff {cs : List Char} {r : NameFault} :
    segmentFaultOf starts cs = some r ↔ Offends Starts cs r := by
  cases cs with
  | nil => rw [segmentFaultOf, Option.some.injEq, offends_nil_iff, eq_comm]
  | cons c cs =>
    rw [segmentFaultOf, segmentFault?, offends_cons_iff, ← hstarts]
    by_cases hc : starts c = true
    · simp [hc, List.find?_eq_some_iff_append, ← isNameChar_iff]
    · simp [hc, eq_comm]

end Segments

/-! ## Patterns -/

/-- Somewhere in the text stands `exec`, in whatever letter case. -/
def SaysExec (cs : List Char) : Prop :=
  ∃ word, word <:+: cs ∧ word.map Char.toLower = ['e', 'x', 'e', 'c']

/-- Every pattern but `exec` has a character that is in no path. -/
theorem patternFault?_eq_some_iff {cs : List Char} (hcs : ∀ c ∈ cs, IsPathChar c) {r : NameFault} :
    patternFault? cs = some r ↔ SaysExec cs ∧ r = .suspicious "exec" := by
  obtain ⟨others, hpatterns, hothers⟩ : ∃ others, suspiciousPatterns = others ++ ["exec"] ∧
      ∀ p ∈ others, ∃ d ∈ p.toList, ¬ IsPathChar d := by
    refine ⟨suspiciousPatterns.dropLast, rfl, fun p hp => ?_⟩
    have hall : (suspiciousPatterns.dropLast.all fun p => p.toList.any fun d =>
        ¬ IsPathChar d) = true := by decide
    obtain ⟨d, hd, hnot⟩ := List.any_eq_true.mp (List.all_eq_true.mp hall p hp)
    exact ⟨d, hd, of_decide_eq_true hnot⟩
  have hnone : others.find? (fun p => occursIn p.toList (cs.map Char.toLower)) = none := by
    rw [List.find?_eq_none]
    intro p hp hoccurs
    obtain ⟨d, hd, hnot⟩ := hothers p hp
    obtain ⟨c, hc, rfl⟩ := List.mem_map.mp ((occursIn_iff.mp hoccurs).subset hd)
    exact hnot (hcs c hc).toLower
  have hexec : occursIn "exec".toList (cs.map Char.toLower) = true ↔ SaysExec cs := by
    rw [occursIn_iff, List.infix_map_iff]
    exact exists_congr fun word => and_congr_right fun _ => eq_comm
  rw [patternFault?, hpatterns, List.find?_append, hnone, Option.none_or, List.find?_singleton]
  by_cases h : SaysExec cs
  · rw [if_pos (hexec.mpr h), Option.map_some, Option.some.injEq, eq_comm, and_iff_right h]
  · rw [if_neg (mt hexec.mp h), Option.map_none]
    exact iff_of_false (fun h' => by cases h') fun h' => h h'.1

/-! ## Reasons -/

/-- Why a text that is cut into pieces is rejected: it is empty; else it has white space; else some
piece is no segment, the first such; else the text says `exec`. -/
inductive Reason (starts : Char → Prop) (cs : List Char) (pieces : List (List Char)) :
    NameFault → Prop
  | empty (h : cs = []) : Reason starts cs pieces .empty
  | whitespace (hne : cs ≠ []) (h : ∃ c ∈ cs, Text.isBlank c = true) :
      Reason starts cs pieces .whitespace
  | segment (hne : cs ≠ []) (hblank : ∀ c ∈ cs, Text.isBlank c = false)
      (front : List (List Char)) (piece : List Char) (back : List (List Char))
      (hpieces : pieces = front ++ piece :: back) (hfront : ∀ t ∈ front, IsSegment starts t)
      (r : NameFault) (h : Offends starts piece r) : Reason starts cs pieces r
  | suspicious (hne : cs ≠ []) (hblank : ∀ c ∈ cs, Text.isBlank c = false)
      (hpieces : ∀ t ∈ pieces, IsSegment starts t) (h : SaysExec cs) :
      Reason starts cs pieces (.suspicious "exec")

section Reasons

variable {starts : Char → Bool} {Starts : Char → Prop} {cs : List Char} {pieces : List (List Char)}

/-- The fault of a text that is cut into pieces. -/
def faultOf (starts : Char → Bool) (cs : List Char) (pieces : List (List Char)) :
    Option NameFault :=
  blankFault? cs <|> pieces.findSome? (segmentFaultOf starts) <|> patternFault? cs

theorem faultOf_of_blank (hne : cs ≠ []) (h : ∃ c ∈ cs, Text.isBlank c = true) :
    faultOf starts cs pieces = some .whitespace := by
  have hblank : blankFault? cs = some .whitespace := by
    rw [blankFault?, if_neg (by simpa using hne), if_pos (List.any_eq_true.mpr h)]
  rw [faultOf, hblank]
  rfl

theorem faultOf_of_not_blank (hne : cs ≠ []) (h : ∀ c ∈ cs, Text.isBlank c = false) :
    faultOf starts cs pieces =
      (pieces.findSome? (segmentFaultOf starts)).or (patternFault? cs) := by
  simp [faultOf, blankFault?_eq_none_iff.mpr ⟨hne, h⟩]

variable (hstarts : ∀ c, starts c = true ↔ Starts c)
  (hchars : (∀ t ∈ pieces, IsSegment Starts t) → ∀ c ∈ cs, IsPathChar c)

include hstarts hchars

/-- The fault of a text is the first reason to reject it. -/
theorem reason_iff {r : NameFault} :
    faultOf starts cs pieces = some r ↔ Reason Starts cs pieces r := by
  by_cases hne : cs = []
  · subst hne
    constructor
    · intro h
      cases h
      exact .empty rfl
    · intro h
      cases h with
      | empty => rfl
      | whitespace hne | segment hne | suspicious hne => exact absurd rfl hne
  · by_cases hblank : ∃ c ∈ cs, Text.isBlank c = true
    · rw [faultOf_of_blank hne hblank, Option.some.injEq]
      constructor
      · rintro rfl
        exact .whitespace hne hblank
      · intro h
        obtain ⟨c, hc, hblank⟩ := hblank
        cases h with
        | empty h => exact absurd h hne
        | whitespace => rfl
        | segment _ hnot | suspicious _ hnot => cases hblank.symm.trans (hnot c hc)
    · have hnot : ∀ c ∈ cs, Text.isBlank c = false := by simpa using hblank
      have hsegments : pieces.findSome? (segmentFaultOf starts) = none ↔
          ∀ t ∈ pieces, IsSegment Starts t := by
        simp only [List.findSome?_eq_none_iff, segmentFaultOf_eq_none_iff hstarts]
      rw [faultOf_of_not_blank hne hnot, Option.or_eq_some_iff, List.findSome?_eq_some_iff,
        hsegments]
      simp only [segmentFaultOf_eq_some_iff hstarts, segmentFaultOf_eq_none_iff hstarts]
      constructor
      · rintro (⟨front, piece, back, hpieces, hpiece, hfront⟩ | ⟨hall, hpattern⟩)
        · exact .segment hne hnot front piece back hpieces hfront r hpiece
        · obtain ⟨hexec, rfl⟩ := (patternFault?_eq_some_iff (hchars hall)).mp hpattern
          exact .suspicious hne hnot hall hexec
      · intro h
        cases h with
        | empty h => exact absurd h hne
        | whitespace _ h => exact absurd h hblank
        | segment _ _ front piece back hpieces hfront _ hpiece =>
          exact .inl ⟨front, piece, back, hpieces, hpiece, hfront⟩
        | suspicious _ _ hall hexec =>
          exact .inr ⟨hall, (patternFault?_eq_some_iff (hchars hall)).mpr ⟨hexec, rfl⟩⟩

/-- A text that is not empty has no fault exactly if all its pieces are segments and it does not say
`exec`. -/
theorem faultOf_eq_none_iff (hne : (∀ t ∈ pieces, IsSegment Starts t) → cs ≠ []) :
    faultOf starts cs pieces = none ↔ (∀ t ∈ pieces, IsSegment Starts t) ∧ ¬ SaysExec cs := by
  have hparts : faultOf starts cs pieces = none ↔ blankFault? cs = none ∧
      (∀ t ∈ pieces, IsSegment Starts t) ∧ patternFault? cs = none := by
    simp [faultOf, segmentFaultOf_eq_none_iff hstarts]
  rw [hparts, blankFault?_eq_none_iff]
  constructor
  · rintro ⟨-, hall, hpattern⟩
    refine ⟨hall, fun hexec => ?_⟩
    cases hpattern.symm.trans ((patternFault?_eq_some_iff (hchars hall)).mpr ⟨hexec, rfl⟩)
  · rintro ⟨hall, hexec⟩
    refine ⟨⟨hne hall, fun c hc => (hchars hall c hc).not_blank⟩, hall, ?_⟩
    rw [Option.eq_none_iff_forall_ne_some]
    exact fun r hr => hexec ((patternFault?_eq_some_iff (hchars hall)).mp hr).1

end Reasons

/-! ## Names -/

theorem IsSegment.ne_nil {starts : Char → Prop} {cs : List Char} (h : IsSegment starts cs) :
    cs ≠ [] := by
  obtain ⟨c, rest, rfl, -⟩ := h
  exact List.cons_ne_nil c rest

theorem IsSegment.isPathChar {cs : List Char} (h : IsSegment FieldPath.Starts cs) :
    ∀ c ∈ cs, IsPathChar c := by
  obtain ⟨c, rest, rfl, hc, hrest⟩ := h
  refine List.forall_mem_cons.mpr ⟨?_, fun d hd => .inl (hrest d hd)⟩
  rcases hc with h | h | h
  · exact .inl (.inl h)
  · exact .inl (.inr (.inr h))
  · exact .inr (.inr h)

/-- Whatever starts an identifier starts a segment of a path. -/
theorem IsSegment.of_identifier {cs : List Char} (h : IsSegment Identifier.Starts cs) :
    IsSegment FieldPath.Starts cs := by
  obtain ⟨c, rest, rfl, hc, hrest⟩ := h
  exact ⟨c, rest, rfl, hc.imp_right .inl, hrest⟩

theorem IsSegment.no_dot {cs : List Char} (h : IsSegment FieldPath.Starts cs) : '.' ∉ cs := by
  obtain ⟨c, rest, rfl, hc, hrest⟩ := h
  intro hdot
  rcases List.mem_cons.mp hdot with rfl | hdot
  · exact absurd hc (by decide)
  · exact absurd (hrest '.' hdot) (by decide)

theorem not_mem_dotSegments {cs : List Char} : ∀ t ∈ dotSegments cs, '.' ∉ t := by
  induction cs with
  | nil => simp [dotSegments]
  | cons c cs ih =>
    unfold dotSegments
    split
    · exact List.forall_mem_cons.mpr ⟨List.not_mem_nil, ih⟩
    · rename_i hc
      split
      · simpa [eq_comm] using hc
      · rename_i t rest hrest
        rw [hrest, List.forall_mem_cons] at ih
        refine List.forall_mem_cons.mpr ⟨?_, ih.2⟩
        rw [List.mem_cons, not_or]
        exact ⟨fun h => hc h.symm, ih.1⟩

/-- The pieces between the dots of a text are those that the list splits into. -/
theorem dotSegments_eq (cs : List Char) : dotSegments cs = cs.splitOn '.' := by
  calc dotSegments cs = (['.'].intercalate (dotSegments cs)).splitOn '.' :=
        (List.splitOn_intercalate '.' not_mem_dotSegments (dotSegments_ne_nil cs)).symm
    _ = cs.splitOn '.' := by rw [intercalate_dotSegments]

theorem Identifier.fault?_eq (s : String) :
    fault? s = faultOf isNameStart s.toList [s.toList] := by
  rw [fault?, faultOf, List.findSome?_singleton]
  cases s.toList <;> rfl

theorem FieldPath.fault?_eq (s : String) :
    fault? s = faultOf (fun c => isNameStart c || c == marker) s.toList (s.toList.splitOn '.') := by
  rw [fault?, faultOf, dotSegments_eq, pieceFault?_eq]

namespace FieldPath

/-- The pieces between the dots, of which there is at least one, make up the text. -/
theorem splitOn_dot (s : String) :
    s.toList.splitOn '.' ≠ [] ∧ ['.'].intercalate (s.toList.splitOn '.') = s.toList := by
  rw [← dotSegments_eq]
  exact ⟨dotSegments_ne_nil _, intercalate_dotSegments _⟩

theorem isPathChar_of_segments {s : String}
    (h : ∀ t ∈ s.toList.splitOn '.', IsSegment Starts t) : ∀ c ∈ s.toList, IsPathChar c := by
  intro c hc
  rw [← (splitOn_dot s).2] at hc
  rcases mem_of_mem_intercalate hc with rfl | ⟨t, ht, hc⟩
  · exact .inr (.inl rfl)
  · exact (h t ht).isPathChar c hc

/-- The first piece of an empty text is no segment. -/
theorem ne_nil_of_segments {s : String}
    (h : ∀ t ∈ s.toList.splitOn '.', IsSegment Starts t) : s.toList ≠ [] := by
  intro hnil
  rw [hnil, ← dotSegments_eq] at h
  exact (h [] List.mem_cons_self).ne_nil rfl

theorem fault?_eq_none_iff {s : String} : fault? s = none ↔
    (∀ t ∈ s.toList.splitOn '.', IsSegment Starts t) ∧ ¬ SaysExec s.toList := by
  rw [fault?_eq, faultOf_eq_none_iff (fun _ => isPathStart_iff) isPathChar_of_segments]
  exact ne_nil_of_segments

theorem Valid.isPathChar {s : String} (h : Valid s) : ∀ c ∈ s.toList, IsPathChar c :=
  isPathChar_of_segments (fault?_eq_none_iff.mp h).1

end FieldPath

/-- A text has no fault as an identifier exactly if it is a letter or an underscore and then
letters, digits and underscores, and does not say `exec`; and none as a field path exactly if it is
one or more such segments between dots, which may start with a dollar sign too, and does not say
`exec`. Otherwise the fault is the first reason to reject the text. -/
theorem names_exact (s : String) :
    (Identifier.fault? s = none ↔
      IsSegment Identifier.Starts s.toList ∧ ¬ SaysExec s.toList) ∧
    (FieldPath.fault? s = none ↔
      (∃ segments, segments ≠ [] ∧ s.toList = ['.'].intercalate segments ∧
        ∀ t ∈ segments, IsSegment FieldPath.Starts t) ∧ ¬ SaysExec s.toList) ∧
    ∀ r,
      (Identifier.fault? s = some r ↔ Reason Identifier.Starts s.toList [s.toList] r) ∧
      (FieldPath.fault? s = some r ↔
        Reason FieldPath.Starts s.toList (s.toList.splitOn '.') r) := by
  have hidentifier : (∀ t ∈ [s.toList], IsSegment Identifier.Starts t) →
      ∀ c ∈ s.toList, IsPathChar c :=
    fun h => (h _ List.mem_cons_self).of_identifier.isPathChar
  refine ⟨?_, ?_, fun r => ⟨?_, ?_⟩⟩
  · rw [Identifier.fault?_eq, faultOf_eq_none_iff (fun _ => isNameStart_iff) hidentifier,
      List.forall_mem_singleton]
    exact fun h => (h _ List.mem_cons_self).ne_nil
  · obtain ⟨hne, hjoin⟩ := FieldPath.splitOn_dot s
    rw [FieldPath.fault?_eq_none_iff]
    refine and_congr_left fun _ => ⟨fun h => ⟨_, hne, hjoin.symm, h⟩, ?_⟩
    rintro ⟨segments, hsegments, heq, h⟩
    rwa [heq, List.splitOn_intercalate '.' (fun t ht => (h t ht).no_dot) hsegments]
  · rw [Identifier.fault?_eq, reason_iff (fun _ => isNameStart_iff) hidentifier]
  · rw [FieldPath.fault?_eq, reason_iff (fun _ => isPathStart_iff) FieldPath.isPathChar_of_segments]

end DocumentQuery

import DocumentQuery.Dialect.Dynamo.Query
import DocumentQuery.Proofs.Formula
/-!
# Reading condition expressions

The grammar of condition expressions, and what an expression says once its
aliases are resolved through the two maps beside it:

    disjunction := conjunction | conjunction OR disjunction
    conjunction := operand | operand AND conjunction
    operand     := ( disjunction ) | path sign value
                 | attribute_exists ( path ) | attribute_not_exists ( path )

A text is cut into tokens first: words, signs and parentheses, with blanks
between them where they would run together.

Main definitions:
* `tokens`: the tokens of a text.
* `Aliases`: the two maps, and `Aliases.of`, the maps of a rendered query.
* `disjunction`, `conjunction`, `operand`: one reader for each rule. Every use of
  a rule takes one unit of fuel.
* `read`: what a text says, if it is an expression.
-/
namespace DocumentQuery.Dynamo

/-! ## Tokens -/

/-- The characters of keywords, functions and aliases. -/
def isWordChar (c : Char) : Bool := c.isAlphanum || c == '_' || c == '#' || c == ':'

/-- The characters of the signs of comparisons. -/
def isSignChar (c : Char) : Bool := c == '=' || c == '<' || c == '>'

/-- Whether neighbours belong to one token. -/
def sticks (c d : Char) : Bool := isWordChar c && isWordChar d || isSignChar c && isSignChar d

/-- The tokens of a text, as lists of characters. -/
def lexemes : List Char → List (List Char)
  | [] => []
  | c :: cs =>
    if c = ' ' then lexemes cs
    else match lexemes cs with
      | [] => [[c]]
      | l :: ls => if cs.head?.any (sticks c) then (c :: l) :: ls else [c] :: l :: ls

/-- The tokens of a text. -/
def tokens (cs : List Char) : List String := (lexemes cs).map String.ofList

/-! ## Aliases -/

/-- What the aliases of an expression stand for. -/
structure Aliases where
  /-- The paths, by alias. -/
  names : Entries
  /-- The placeholders, by alias. -/
  values : Entries

namespace Aliases

/-- The map at a key of a rendered query. -/
def mapAt (key : String) (es : Entries) : Entries :=
  match Entries.get? key es with
  | some (.obj m) => m
  | _ => []

/-- The aliases of a rendered query. -/
def of (es : Entries) : Aliases where
  names := mapAt "ExpressionAttributeNames" es
  values := mapAt "ExpressionAttributeValues" es

/-- The path that an alias stands for. -/
def path? (a : Aliases) (key : String) : Option String :=
  match Entries.get? key a.names with
  | some (.str path) => some path
  | _ => none

/-- The parameter that an alias stands for. -/
def param? (a : Aliases) (key : String) : Option Param :=
  match Entries.get? key a.values with
  | some (.str s) => Param.ofPlaceholder? s
  | _ => none

end Aliases

/-! ## Expressions -/

/-- The comparison with a sign. -/
def ofSign? (sign : String) : Option FilterOperator :=
  (Vocabulary.all : List FilterOperator).find? fun op => sign? op == some sign

/-- Whether the function asks for a path to be there, or not to be there. -/
def ofFunction? (function : String) : Option Bool :=
  if function = "attribute_exists" then some true
  else if function = "attribute_not_exists" then some false
  else none

/-- The tokens after the given one. -/
def after? (token : String) : List String → Option (List String)
  | [] => none
  | t :: ts => if t = token then some ts else none

section Rules

variable (a : Aliases)

/-- A comparison, or the call of a function, and the tokens after it. -/
def test? : List String → Option (Formula × List String)
  | t :: u :: w :: rest =>
    if u = "(" then do
      let present ← ofFunction? t
      let path ← a.path? w
      let rest ← after? ")" rest
      pure (.atom (.presence path present), rest)
    else do
      let path ← a.path? t
      let op ← ofSign? u
      let p ← a.param? w
      pure (.atom (.test path op p none), rest)
  | _ => none

mutual

/-- Conjunctions with `OR` between them, and the tokens after them. -/
def disjunction : Nat → List String → Option (Formula × List String)
  | 0, _ => none
  | n + 1, ts => do
    let (φ, rest) ← conjunction n ts
    match after? "OR" rest with
    | none => pure (φ, rest)
    | some rest => do
      let (ψ, rest) ← disjunction n rest
      pure (.any [φ, ψ], rest)

/-- Operands with `AND` between them, and the tokens after them. -/
def conjunction : Nat → List String → Option (Formula × List String)
  | 0, _ => none
  | n + 1, ts => do
    let (φ, rest) ← operand n ts
    match after? "AND" rest with
    | none => pure (φ, rest)
    | some rest => do
      let (ψ, rest) ← conjunction n rest
      pure (.all [φ, ψ], rest)

/-- An expression in parentheses, or a test, and the tokens after it. -/
def operand : Nat → List String → Option (Formula × List String)
  | 0, _ => none
  | n + 1, ts =>
    match after? "(" ts with
    | none => test? a ts
    | some ts => do
      let (φ, rest) ← disjunction n ts
      let rest ← after? ")" rest
      pure (φ, rest)

end

end Rules

/-- What a text says, if it is an expression and nothing else. -/
def read (a : Aliases) (text : String) : Option Formula :=
  let ts := tokens text.toList
  match disjunction a (2 * ts.length + 2) ts with
  | some (φ, []) => some φ
  | _ => none

/-! ## Cutting texts into tokens -/

/-- What follows does not go on with the word before it. -/
def EndsWord (cs : List Char) : Prop := cs.head?.all (fun c => !isWordChar c) = true

theorem endsWord_blank (cs : List Char) : EndsWord (' ' :: cs) := rfl

theorem endsWord_opening (cs : List Char) : EndsWord ('(' :: cs) := rfl

theorem endsWord_closing (cs : List Char) : EndsWord (')' :: cs) := rfl

/-- The text is cut into the tokens, whatever ends its last word. -/
def Cuts (s : String) (us : List String) : Prop :=
  ∀ rest, EndsWord rest → tokens (s.toList ++ rest) = us ++ tokens rest

theorem not_isSignChar {c : Char} (h : isWordChar c = true) : isSignChar c = false := by
  by_contra hs
  simp only [isSignChar, Bool.not_eq_false, Bool.or_eq_true, beq_iff_eq] at hs
  rcases hs with (rfl | rfl) | rfl <;> revert h <;> decide

theorem sticks_of_word {c : Char} (h : isWordChar c = true) (d : Char) :
    sticks c d = isWordChar d := by
  rw [sticks, h, not_isSignChar h, Bool.true_and, Bool.false_and, Bool.or_false]

theorem sticks_of_sign {c : Char} (h : isSignChar c = true) (d : Char) :
    sticks c d = isSignChar d := by
  have hword : isWordChar c = false := by
    by_contra hw
    rw [Bool.not_eq_false] at hw
    rw [not_isSignChar hw] at h
    cases h
  rw [sticks, h, hword, Bool.true_and, Bool.false_and, Bool.false_or]

/-- A run of characters of one kind is one token. -/
theorem lexemes_run {p : Char → Bool} (hblank : p ' ' = false)
    (hp : ∀ c, p c = true → ∀ d, sticks c d = p d) {rest : List Char}
    (hrest : rest.head?.all (fun c => !p c) = true) :
    ∀ {w : List Char}, w ≠ [] → (∀ c ∈ w, p c = true) →
      lexemes (w ++ rest) = w :: lexemes rest
  | [], hne, _ => absurd rfl hne
  | [c], _, hall => by
    have hc := hall c List.mem_cons_self
    have hnot : c ≠ ' ' := by
      intro heq
      subst heq
      rw [hblank] at hc
      cases hc
    have hstick : rest.head?.any (sticks c) = false := by
      cases rest with
      | nil => rfl
      | cons d ds => simpa [hp c hc d] using hrest
    rw [List.singleton_append, lexemes, if_neg hnot, hstick]
    cases lexemes rest <;> rfl
  | c :: d :: w, _, hall => by
    rw [List.forall_mem_cons] at hall
    obtain ⟨hc, hall⟩ := hall
    have hnot : c ≠ ' ' := by
      intro heq
      subst heq
      rw [hblank] at hc
      cases hc
    have hd := hall d List.mem_cons_self
    have ih := lexemes_run hblank hp hrest (w := d :: w) (by simp) hall
    rw [List.cons_append, lexemes, if_neg hnot, ih]
    simp [hp c hc d, hd]

/-- A whole text is cut into its tokens. -/
theorem Cuts.tokens_eq {s : String} {us : List String} (h : Cuts s us) : tokens s.toList = us := by
  have hall := h [] rfl
  rwa [List.append_nil, show tokens [] = [] from rfl, List.append_nil] at hall

/-- The text is a word. -/
def IsWord (s : String) : Prop := s.toList ≠ [] ∧ ∀ c ∈ s.toList, isWordChar c = true

-- over the characters of `s`, not over all there are
instance (s : String) : Decidable (IsWord s) :=
  decidable_of_iff (s.toList ≠ [] ∧ s.toList.all isWordChar = true)
    (and_congr_right fun _ => List.all_eq_true)

theorem IsWord.append {s t : String} (h : IsWord s) (ht : ∀ c ∈ t.toList, isWordChar c = true) :
    IsWord (s ++ t) := by
  obtain ⟨hne, hall⟩ := h
  refine ⟨?_, fun c hc => ?_⟩
  · rw [String.toList_append]
    exact List.append_ne_nil_of_left_ne_nil hne _
  · rw [String.toList_append, List.mem_append] at hc
    rcases hc with hc | hc
    · exact hall c hc
    · exact ht c hc

theorem cuts_word {s : String} (h : IsWord s) : Cuts s [s] := by
  intro rest hrest
  rw [tokens, lexemes_run (by decide) (fun c hc => sticks_of_word hc) hrest h.1 h.2]
  simp [tokens]

theorem tokens_blank (cs : List Char) : tokens (' ' :: cs) = tokens cs := by
  rw [tokens, lexemes, if_pos rfl, tokens]

/-- A sign stands between blanks. -/
theorem tokens_sign {op : FilterOperator} {sign : String} (h : sign? op = some sign)
    (cs : List Char) : tokens (sign.toList ++ ' ' :: cs) = sign :: tokens (' ' :: cs) := by
  obtain ⟨hne, hall⟩ : sign.toList ≠ [] ∧ sign.toList.all isSignChar = true := by
    cases op <;> cases h <;> decide
  have hblank : (' ' :: cs).head?.all (fun c => !isSignChar c) = true := rfl
  rw [tokens, lexemes_run (by decide) (fun c hc => sticks_of_sign hc) hblank hne
    (List.all_eq_true.mp hall)]
  simp [tokens]

theorem tokens_mark {c : Char} (hblank : c ≠ ' ') (hsticks : ∀ d, sticks c d = false)
    (cs : List Char) : tokens (c :: cs) = String.ofList [c] :: tokens cs := by
  rw [tokens, lexemes, if_neg hblank, tokens]
  have hany : cs.head?.any (sticks c) = false := by
    cases cs with
    | nil => rfl
    | cons d ds => exact hsticks d
  rw [hany]
  cases lexemes cs <;> rfl

theorem tokens_opening (cs : List Char) : tokens ('(' :: cs) = "(" :: tokens cs :=
  tokens_mark (by decide) (fun _ => rfl) cs

theorem tokens_closing (cs : List Char) : tokens (')' :: cs) = ")" :: tokens cs :=
  tokens_mark (by decide) (fun _ => rfl) cs

/-- The keyword between the parts of a condition. -/
def Joiner.keyword : Joiner → String
  | .and => "AND"
  | .or => "OR"

theorem tokens_joiner (joiner : Joiner) (cs : List Char) :
    tokens (joiner.text.toList ++ cs) = joiner.keyword :: tokens cs := by
  have hkeyword : Cuts joiner.keyword [joiner.keyword] := by
    apply cuts_word
    cases joiner <;> decide
  have htext : joiner.text.toList ++ cs = ' ' :: (joiner.keyword.toList ++ ' ' :: cs) := by
    cases joiner <;> rfl
  rw [htext, tokens_blank, hkeyword _ (endsWord_blank cs), tokens_blank]
  rfl

/-- Between two texts, the text is cut into the tokens, and it ends the word before it. -/
structure Separates (s : String) (us : List String) : Prop where
  ends : ∀ cs, EndsWord (s.toList ++ cs)
  cuts : ∀ cs, tokens (s.toList ++ cs) = us ++ tokens cs

theorem separates_joiner (joiner : Joiner) : Separates joiner.text [joiner.keyword] where
  ends cs := by cases joiner <;> exact endsWord_blank _
  cuts cs := tokens_joiner joiner cs

/-- Texts with a separator between them are cut one by one. -/
theorem Separates.intercalate {sep : String} {seps : List String} (hsep : Separates sep seps)
    {ss : List String} {uss : List (List String)} (h : List.Forall₂ Cuts ss uss) :
    Cuts (sep.intercalate ss) (seps.intercalate uss) := by
  induction h with
  | nil =>
    intro rest _
    simp
  | @cons s us ss uss hs hss ih =>
    cases hss with
    | nil => simpa using hs
    | @cons s' us' ss uss hs' hss =>
      intro rest hrest
      rw [String.intercalate_cons_cons, String.toList_append, String.toList_append,
        List.append_assoc, List.append_assoc, hs _ (hsep.ends _), hsep.cuts, ih rest hrest]
      simp [List.intercalate]

/-- Texts with a joiner between them are cut one by one. -/
theorem cuts_joined (joiner : Joiner) {ss : List String} {uss : List (List String)}
    (h : List.Forall₂ Cuts ss uss) :
    Cuts (joiner.text.intercalate ss) ([joiner.keyword].intercalate uss) :=
  (separates_joiner joiner).intercalate h

theorem cuts_parentheses {s : String} {us : List String} (h : Cuts s us) :
    Cuts ("(" ++ s ++ ")") ("(" :: us ++ [")"]) := by
  intro rest _
  have htext : ("(" ++ s ++ ")").toList ++ rest = '(' :: (s.toList ++ ')' :: rest) := by
    simp [String.toList_append]
  rw [htext, tokens_opening, h _ (endsWord_closing rest), tokens_closing]
  simp

/-! ## Combining expressions -/

section Combine

variable (a : Aliases)

/-- The tokens are an operand that says `φ`, whatever follows. -/
def IsOperand (us : List String) (φ : Formula) : Prop :=
  ∀ n rest, 2 * us.length ≤ n → operand a n (us ++ rest) = some (φ, rest)

/-- The tokens are a conjunction that says `φ`, unless another operand follows. -/
def IsConjunction (us : List String) (φ : Formula) : Prop :=
  ∀ n rest, 2 * us.length + 1 ≤ n → after? "AND" rest = none →
    conjunction a n (us ++ rest) = some (φ, rest)

/-- The tokens are a disjunction that says `φ`, unless more of it follows. -/
def IsDisjunction (us : List String) (φ : Formula) : Prop :=
  ∀ n rest, 2 * us.length + 2 ≤ n → after? "AND" rest = none → after? "OR" rest = none →
    disjunction a n (us ++ rest) = some (φ, rest)

variable {a} {us vs : List String} {φ ψ : Formula}

theorem IsOperand.conjunction (h : IsOperand a us φ) : IsConjunction a us φ := by
  intro n rest hn hand
  obtain ⟨n, rfl⟩ : ∃ m, n = m + 1 := ⟨n - 1, by omega⟩
  rw [Dynamo.conjunction, h n rest (by omega)]
  simp [hand]

theorem IsOperand.and (h : IsOperand a us φ) (h' : IsConjunction a vs ψ) :
    IsConjunction a (us ++ "AND" :: vs) (.all [φ, ψ]) := by
  intro n rest hn hand
  rw [List.length_append, List.length_cons] at hn
  obtain ⟨n, rfl⟩ : ∃ m, n = m + 1 := ⟨n - 1, by omega⟩
  rw [Dynamo.conjunction, List.append_assoc, h n _ (by omega)]
  simp [after?, h' n rest (by omega) hand]

theorem IsConjunction.disjunction (h : IsConjunction a us φ) : IsDisjunction a us φ := by
  intro n rest hn hand hor
  obtain ⟨n, rfl⟩ : ∃ m, n = m + 1 := ⟨n - 1, by omega⟩
  rw [Dynamo.disjunction, h n rest (by omega) hand]
  simp [hor]

theorem IsConjunction.or (h : IsConjunction a us φ) (h' : IsDisjunction a vs ψ) :
    IsDisjunction a (us ++ "OR" :: vs) (.any [φ, ψ]) := by
  intro n rest hn hand hor
  rw [List.length_append, List.length_cons] at hn
  obtain ⟨n, rfl⟩ : ∃ m, n = m + 1 := ⟨n - 1, by omega⟩
  rw [Dynamo.disjunction, List.append_assoc, h n _ (by omega) (by simp [after?])]
  simp [after?, h' n rest (by omega) hand hor]

theorem IsDisjunction.operand (h : IsDisjunction a us φ) :
    IsOperand a ("(" :: us ++ [")"]) φ := by
  intro n rest hn
  rw [List.length_append, List.length_cons, List.length_singleton] at hn
  obtain ⟨n, rfl⟩ : ∃ m, n = m + 1 := ⟨n - 1, by omega⟩
  have hinner := h n (")" :: rest) (by omega) (by simp [after?]) (by simp [after?])
  rw [Dynamo.operand]
  simp [after?, hinner]

open Formula (Same)

/-- Operands with `AND` between them say what they all say. -/
theorem conjunction_of_operands {uss : List (List String)} {φs : List Formula}
    (h : List.Forall₂ (IsOperand a) uss φs) (hne : uss ≠ []) :
    ∃ φ, Same φ (.all φs) ∧ IsConjunction a (["AND"].intercalate uss) φ := by
  induction h with
  | nil => exact absurd rfl hne
  | @cons us φ uss φs hus huss ih =>
    cases huss with
    | nil => exact ⟨φ, (Same.all_singleton φ).symm, by simpa using hus.conjunction⟩
    | @cons us' φ' uss φs hus' huss =>
      obtain ⟨ψ, hsame, hψ⟩ := ih (by simp)
      refine ⟨.all [φ, ψ], ?_, ?_⟩
      · exact Same.all_cons_congr (Same.refl φ) ((Same.all_singleton ψ).trans hsame)
      · simpa [List.intercalate] using hus.and hψ

/-- Operands with `OR` between them say what one of them says. -/
theorem disjunction_of_operands {uss : List (List String)} {φs : List Formula}
    (h : List.Forall₂ (IsOperand a) uss φs) (hne : uss ≠ []) :
    ∃ φ, Same φ (.any φs) ∧ IsDisjunction a (["OR"].intercalate uss) φ := by
  induction h with
  | nil => exact absurd rfl hne
  | @cons us φ uss φs hus huss ih =>
    cases huss with
    | nil => exact ⟨φ, (Same.any_singleton φ).symm, by simpa using hus.conjunction.disjunction⟩
    | @cons us' φ' uss φs hus' huss =>
      obtain ⟨ψ, hsame, hψ⟩ := ih (by simp)
      refine ⟨.any [φ, ψ], ?_, ?_⟩
      · exact Same.any_cons_congr (Same.refl φ) ((Same.any_singleton ψ).trans hsame)
      · simpa [List.intercalate] using hus.conjunction.or hψ

end Combine

end DocumentQuery.Dynamo

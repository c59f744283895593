import Mathlib.Data.List.Forall2
import DocumentQuery.Dialect.Rendering
/-!
# Steps of rendering, taken apart

A step that succeeds gives one result and one list of parameters
(`Render.Gives`). The lemmas say what that means for each way to make a step,
so a proof about a renderer never looks inside `Render`. Checks, which bind no
parameters, are taken apart in the same way (`bind_eq_ok_iff`, `mapM_eq_ok_iff`).
-/
namespace DocumentQuery.Render

variable {α β : Type}

/-- The step succeeds with the result `a` and binds `ps`. -/
def Gives (x : Render α) (a : α) (ps : List Param) : Prop := x = .ok (a, ps)

theorem Gives.unique {x : Render α} {a b : α} {ps qs : List Param} (h : x.Gives a ps)
    (h' : x.Gives b qs) : a = b ∧ ps = qs := by
  have e := h.symm.trans h'
  injection e with e
  injection e with ea eps
  exact ⟨ea, eps⟩

@[simp] theorem gives_pure {a b : α} {ps : List Param} :
    (pure a : Render α).Gives b ps ↔ b = a ∧ ps = [] := by
  constructor
  · intro h
    obtain ⟨rfl, rfl⟩ := Gives.unique (rfl : (pure a : Render α).Gives a []) h
    exact ⟨rfl, rfl⟩
  · intro h'
    obtain ⟨rfl, rfl⟩ := h'
    rfl

theorem Gives.bind {x : Render α} {f : α → Render β} {a : α} {b : β} {qs rs : List Param}
    (hx : x.Gives a qs) (hf : (f a).Gives b rs) : (x >>= f).Gives b (qs ++ rs) := by
  unfold Gives at hx hf
  show x.bind f = _
  simp only [Render.bind, hx, hf]
  rfl

/-- In sequence, both steps succeed and the parameters of the first come first. -/
@[simp] theorem gives_bind {x : Render α} {f : α → Render β} {b : β} {ps : List Param} :
    (x >>= f).Gives b ps ↔
      ∃ a qs rs, x.Gives a qs ∧ (f a).Gives b rs ∧ ps = qs ++ rs := by
  constructor
  · intro h
    cases hx : x with
    | error e => rw [hx] at h; cases h
    | ok r =>
      obtain ⟨a, qs⟩ := r
      cases hf : f a with
      | error e =>
        have he : (x >>= f) = .error e := by
          show x.bind f = _
          simp only [Render.bind, hx, hf]
          rfl
        cases he.symm.trans h
      | ok r' =>
        obtain ⟨b', rs⟩ := r'
        obtain ⟨rfl, rfl⟩ := (Gives.bind hx hf).unique h
        exact ⟨a, qs, rs, rfl, hf, rfl⟩
  · intro h'
    obtain ⟨a, qs, rs, hx, hf, rfl⟩ := h'
    exact hx.bind hf

/-- The parameters of the first step come first. -/
theorem Gives.first {x : Render α} {k : α → Render β} {b : β} {ps : List Param}
    (h : (x >>= k).Gives b ps) :
    ∃ a qs rs, x.Gives a qs ∧ (k a).Gives b rs ∧ qs <+: ps := by
  obtain ⟨a, qs, rs, hx, hk, rfl⟩ := gives_bind.mp h
  exact ⟨a, qs, rs, hx, hk, List.prefix_append qs rs⟩

/-- A function of the result leaves the parameters as they are. -/
@[simp] theorem gives_map {x : Render α} {f : α → β} {b : β} {ps : List Param} :
    (f <$> x).Gives b ps ↔ ∃ a, x.Gives a ps ∧ b = f a := by
  rw [map_eq_pure_bind, gives_bind]
  simp only [gives_pure]
  constructor
  · intro h
    obtain ⟨a, qs, rs, ha, ⟨rfl, rfl⟩, rfl⟩ := h
    exact ⟨a, by rwa [List.append_nil], rfl⟩
  · intro h
    obtain ⟨a, ha, rfl⟩ := h
    exact ⟨a, ps, [], ha, ⟨rfl, rfl⟩, (List.append_nil ps).symm⟩

@[simp] theorem gives_fail {e : Error} {a : α} {ps : List Param} :
    (fail e : Render α).Gives a ps ↔ False := by
  constructor
  · intro h; cases h
  · exact False.elim

@[simp] theorem gives_unsupported {dialect : Dialect} {feature : Feature} {a : α}
    {ps : List Param} : (unsupported dialect feature : Render α).Gives a ps ↔ False := gives_fail

@[simp] theorem gives_placeholder {p : Param} {v : Json} {ps : List Param} :
    (placeholder p).Gives v ps ↔ v = .str p.placeholder ∧ ps = [p] := by
  constructor
  · intro h
    obtain ⟨rfl, rfl⟩ := Gives.unique (rfl : (placeholder p).Gives _ _) h
    exact ⟨rfl, rfl⟩
  · intro h'
    obtain ⟨rfl, rfl⟩ := h'
    rfl

@[simp] theorem gives_ofExcept {x : Except Error α} {a : α} {ps : List Param} :
    (ofExcept x).Gives a ps ↔ x = .ok a ∧ ps = [] := by
  cases x with
  | error e => constructor <;> intro h <;> cases h; contradiction
  | ok b =>
    constructor
    · intro h
      obtain ⟨rfl, rfl⟩ := Gives.unique (rfl : (ofExcept (.ok b)).Gives _ _) h
      exact ⟨rfl, rfl⟩
    · intro h'
      obtain ⟨h, rfl⟩ := h'
      injection h with h
      rw [h]; rfl

theorem gives_optional {f : α → Render β} {o : Option α} {r : Option β}
    {ps : List Param} :
    (optional f o).Gives r ps ↔
      (o = none ∧ r = none ∧ ps = []) ∨ ∃ a b, o = some a ∧ r = some b ∧ (f a).Gives b ps := by
  cases o with
  | none => simp [optional]
  | some a =>
    simp only [optional, gives_bind, gives_pure]
    constructor
    · intro h'
      obtain ⟨b, qs, rs, h, ⟨rfl, rfl⟩, rfl⟩ := h'
      exact .inr ⟨a, b, rfl, rfl, by simpa using h⟩
    · rintro (⟨h, -, -⟩ | ⟨a', b, h, rfl, hb⟩)
      · cases h
      · cases h
        exact ⟨b, ps, [], hb, ⟨rfl, rfl⟩, by simp⟩

theorem gives_optional_some {f : α → Render β} {a : α} {r : Option β} {ps : List Param} :
    (optional f (some a)).Gives r ps ↔ ∃ b, r = some b ∧ (f a).Gives b ps := by
  simp [gives_optional]

/-- A placeholder for the parameter, if there is one. -/
@[simp] theorem gives_optional_placeholder {o : Option Param} {r : Option Json} {ps : List Param} :
    (optional placeholder o).Gives r ps ↔
      r = o.map (fun p => .str p.placeholder) ∧ ps = o.toList := by
  cases o with
  | none => simp [gives_optional]
  | some p =>
    simp only [gives_optional, gives_placeholder, reduceCtorEq, false_and, false_or]
    constructor
    · intro h'
      obtain ⟨a, b, h, rfl, rfl, rfl⟩ := h'
      cases h
      exact ⟨rfl, rfl⟩
    · intro h'
      obtain ⟨rfl, rfl⟩ := h'
      exact ⟨p, _, rfl, rfl, rfl, rfl⟩

/-! ## Steps that succeed -/

/-- The step does not fail. -/
def Succeeds (x : Render α) : Prop := ∃ a ps, x.Gives a ps

@[simp] theorem succeeds_pure (a : α) : (pure a : Render α).Succeeds :=
  ⟨a, [], gives_pure.mpr ⟨rfl, rfl⟩⟩

/-- Where the result of the first step makes no difference to whether the second one succeeds. -/
theorem succeeds_bind_iff {x : Render α} {k : α → Render β} {P : Prop}
    (hk : ∀ a, (k a).Succeeds ↔ P) : (x >>= k).Succeeds ↔ x.Succeeds ∧ P := by
  constructor
  · intro h
    obtain ⟨b, ps, h⟩ := h
    obtain ⟨a, qs, rs, ha, hb, -⟩ := gives_bind.mp h
    exact ⟨⟨a, qs, ha⟩, (hk a).mp ⟨b, rs, hb⟩⟩
  · intro h
    obtain ⟨⟨a, qs, ha⟩, hP⟩ := h
    obtain ⟨b, rs, hb⟩ := (hk a).mpr hP
    exact ⟨b, _, ha.bind hb⟩

theorem succeeds_bind_of_forall {x : Render α} {k : α → Render β} (hk : ∀ a, (k a).Succeeds) :
    (x >>= k).Succeeds ↔ x.Succeeds := by
  rw [succeeds_bind_iff fun a => iff_true_intro (hk a), and_true]

theorem Succeeds.bind {x : Render α} {k : α → Render β} (hx : x.Succeeds)
    (hk : ∀ a, (k a).Succeeds) : (x >>= k).Succeeds := (succeeds_bind_of_forall hk).mpr hx

theorem Succeeds.bind_iff {x : Render α} {k : α → Render β} {P : Prop} (hx : x.Succeeds)
    (hk : ∀ a, (k a).Succeeds ↔ P) : (x >>= k).Succeeds ↔ P :=
  (succeeds_bind_iff hk).trans (and_iff_right hx)

@[simp] theorem succeeds_map {x : Render α} {f : α → β} : (f <$> x).Succeeds ↔ x.Succeeds := by
  rw [map_eq_pure_bind, succeeds_bind_of_forall fun a => succeeds_pure (f a)]

@[simp] theorem succeeds_ofExcept {x : Except Error α} :
    (ofExcept x).Succeeds ↔ ∃ a, x = .ok a := by
  simp [Succeeds]

@[simp] theorem succeeds_placeholder (p : Param) : (placeholder p).Succeeds := by
  simp [Succeeds]

@[simp] theorem succeeds_pagination (p : Pagination) : (pagination p).Succeeds := by
  cases p with
  | fixed n => exact succeeds_pure _
  | bound p => exact succeeds_placeholder p

theorem succeeds_optional {f : α → Render β} {o : Option α} :
    (optional f o).Succeeds ↔ ∀ a, o = some a → (f a).Succeeds := by
  cases o with
  | none => simp [optional]
  | some a =>
    rw [optional, succeeds_bind_of_forall fun b => succeeds_pure (some b)]
    simp

theorem succeeds_optional_pagination (o : Option Pagination) :
    (optional pagination o).Succeeds := succeeds_optional.mpr fun p _ => succeeds_pagination p

/-! ## Several steps in sequence -/

section Sequence

variable {γ δ ε : Type}

theorem gives_two {x : Render α} {y : Render β} {f : α → β → γ} {c : γ} {ps : List Param} :
    (do let a ← x; let b ← y; pure (f a b) : Render γ).Gives c ps ↔
      ∃ a b qs rs, x.Gives a qs ∧ y.Gives b rs ∧ c = f a b ∧ ps = qs ++ rs := by
  simp only [gives_bind, gives_pure]
  constructor
  · intro h
    obtain ⟨a, qs, _, ha, ⟨b, rs, _, hb, ⟨rfl, rfl⟩, rfl⟩, rfl⟩ := h
    exact ⟨a, b, qs, rs, ha, hb, rfl, by rw [List.append_nil]⟩
  · intro h
    obtain ⟨a, b, qs, rs, ha, hb, rfl, rfl⟩ := h
    exact ⟨a, qs, rs, ha, ⟨b, rs, [], hb, ⟨rfl, rfl⟩, (List.append_nil rs).symm⟩, rfl⟩

theorem gives_three {x : Render α} {y : Render β} {z : Render γ} {f : α → β → γ → δ} {d : δ}
    {ps : List Param} :
    (do let a ← x; let b ← y; let c ← z; pure (f a b c) : Render δ).Gives d ps ↔
      ∃ a b c qs rs ts, x.Gives a qs ∧ y.Gives b rs ∧ z.Gives c ts ∧ d = f a b c ∧
        ps = qs ++ (rs ++ ts) := by
  simp only [gives_bind (x := x), gives_two]
  constructor
  · intro h
    obtain ⟨a, qs, _, ha, ⟨b, c, rs, ts, hb, hc, rfl, rfl⟩, rfl⟩ := h
    exact ⟨a, b, c, qs, rs, ts, ha, hb, hc, rfl, rfl⟩
  · intro h
    obtain ⟨a, b, c, qs, rs, ts, ha, hb, hc, rfl, rfl⟩ := h
    exact ⟨a, qs, _, ha, ⟨b, c, rs, ts, hb, hc, rfl, rfl⟩, rfl⟩

theorem gives_four {x : Render α} {y : Render β} {z : Render γ} {w : Render δ}
    {f : α → β → γ → δ → ε} {e : ε} {ps : List Param} :
    (do let a ← x; let b ← y; let c ← z; let d ← w; pure (f a b c d) : Render ε).Gives e ps ↔
      ∃ a b c d qs rs ts us, x.Gives a qs ∧ y.Gives b rs ∧ z.Gives c ts ∧ w.Gives d us ∧
        e = f a b c d ∧ ps = qs ++ (rs ++ (ts ++ us)) := by
  simp only [gives_bind (x := x), gives_three]
  constructor
  · intro h
    obtain ⟨a, qs, _, ha, ⟨b, c, d, rs, ts, us, hb, hc, hd, rfl, rfl⟩, rfl⟩ := h
    exact ⟨a, b, c, d, qs, rs, ts, us, ha, hb, hc, hd, rfl, rfl⟩
  · intro h
    obtain ⟨a, b, c, d, qs, rs, ts, us, ha, hb, hc, hd, rfl, rfl⟩ := h
    exact ⟨a, qs, _, ha, ⟨b, c, d, rs, ts, us, hb, hc, hd, rfl, rfl⟩, rfl⟩

end Sequence

/-! ## One step for each element -/

theorem gives_each_nil {f : α → Render β} {bs : List β} {ps : List Param} :
    (each f []).Gives bs ps ↔ bs = [] ∧ ps = [] := gives_pure

theorem gives_each_cons {f : α → Render β} {a : α} {as : List α} {bs : List β}
    {ps : List Param} :
    (each f (a :: as)).Gives bs ps ↔
      ∃ b cs qs rs, (f a).Gives b qs ∧ (each f as).Gives cs rs ∧ bs = b :: cs ∧
        ps = qs ++ rs := by
  simp only [each, gives_bind, gives_pure]
  constructor
  · intro h
    obtain ⟨b, qs, rs, hb, ⟨cs, rs', ts, hcs, ⟨rfl, rfl⟩, rfl⟩, rfl⟩ := h
    exact ⟨b, cs, qs, rs', hb, hcs, rfl, by simp⟩
  · intro h
    obtain ⟨b, cs, qs, rs, hb, hcs, rfl, rfl⟩ := h
    exact ⟨b, qs, rs, hb, ⟨cs, rs, [], hcs, ⟨rfl, rfl⟩, by simp⟩, rfl⟩

/-- The steps for two lists joined are those for the first and then those for the second. -/
theorem gives_each_append {f : α → Render β} {as as' : List α} {bs : List β} {ps : List Param} :
    (each f (as ++ as')).Gives bs ps ↔
      ∃ cs ds qs rs, (each f as).Gives cs qs ∧ (each f as').Gives ds rs ∧ bs = cs ++ ds ∧
        ps = qs ++ rs := by
  rw [each_append]
  exact gives_two

/-- Each result is that of the element at its place. -/
theorem forall₂_of_each {f : α → Render β} {as : List α} {bs : List β} {ps : List Param}
    (h : (each f as).Gives bs ps) : List.Forall₂ (fun a b => ∃ qs, (f a).Gives b qs) as bs := by
  induction as generalizing bs ps with
  | nil =>
    obtain ⟨rfl, -⟩ := gives_each_nil.mp h
    exact .nil
  | cons a as ih =>
    obtain ⟨b, cs, qs, rs, hb, hcs, rfl, -⟩ := gives_each_cons.mp h
    exact .cons ⟨qs, hb⟩ (ih hcs)

/-- Every element has a result. -/
theorem exists_of_each {f : α → Render β} {as : List α} {bs : List β} {ps : List Param}
    (h : (each f as).Gives bs ps) : ∀ a ∈ as, ∃ b qs, (f a).Gives b qs := by
  induction as generalizing bs ps with
  | nil => simp
  | cons a as ih =>
    obtain ⟨b, cs, qs, rs, hb, hcs, -, -⟩ := gives_each_cons.mp h
    exact List.forall_mem_cons.mpr ⟨⟨b, qs, hb⟩, ih hcs⟩

/-- What holds of the result of each step holds of all results. -/
theorem forall_of_each {f : α → Render β} {P : β → Prop} {as : List α} {bs : List β}
    {ps : List Param} (hf : ∀ a ∈ as, ∀ b qs, (f a).Gives b qs → P b)
    (h : (each f as).Gives bs ps) : ∀ b ∈ bs, P b := by
  induction as generalizing bs ps with
  | nil =>
    obtain ⟨rfl, -⟩ := gives_each_nil.mp h
    simp
  | cons a as ih =>
    obtain ⟨b, cs, qs, rs, hb, hcs, rfl, -⟩ := gives_each_cons.mp h
    rw [List.forall_mem_cons] at hf ⊢
    exact ⟨hf.1 b qs hb, ih hf.2 hcs⟩

/-- Steps that cannot fail give their results in order. -/
theorem gives_each_of_forall {f : α → Render β} {g : α → β} {h : α → List Param}
    (hf : ∀ a, (f a).Gives (g a) (h a)) {as : List α} {bs : List β} {ps : List Param} :
    (each f as).Gives bs ps ↔ bs = as.map g ∧ ps = as.flatMap h := by
  induction as generalizing bs ps with
  | nil => exact gives_each_nil
  | cons a as ih =>
    simp only [gives_each_cons, ih, List.map_cons, List.flatMap_cons]
    constructor
    · intro h'
      obtain ⟨b, cs, qs, rs, hb, ⟨rfl, rfl⟩, rfl, rfl⟩ := h'
      obtain ⟨rfl, rfl⟩ := (hf a).unique hb
      exact ⟨rfl, rfl⟩
    · intro h'
      obtain ⟨rfl, rfl⟩ := h'
      exact ⟨g a, as.map g, h a, as.flatMap h, hf a, ⟨rfl, rfl⟩, rfl, rfl⟩

/-- If the parameters of each step are known, so are those of all. -/
theorem params_of_each {f : α → Render β} {p : α → List Param}
    (hf : ∀ a b qs, (f a).Gives b qs → qs = p a) {as : List α} {bs : List β} {ps : List Param}
    (h : (each f as).Gives bs ps) : ps = as.flatMap p := by
  induction as generalizing bs ps with
  | nil => exact (gives_each_nil.mp h).2
  | cons a as ih =>
    obtain ⟨b, cs, qs, rs, hb, hcs, -, rfl⟩ := gives_each_cons.mp h
    rw [hf a b qs hb, ih hcs, List.flatMap_cons]

theorem params_of_optional {f : α → Render β} {p : α → List Param}
    (hf : ∀ a b qs, (f a).Gives b qs → qs = p a) {o : Option α} {r : Option β} {ps : List Param}
    (h : (optional f o).Gives r ps) : ps = o.elim [] p := by
  rcases gives_optional.mp h with ⟨rfl, -, rfl⟩ | ⟨a, b, rfl, -, hb⟩
  · rfl
  · exact hf a b ps hb

/-- A step whose result is put beside a key. -/
theorem gives_entry {x : Render Json} {key : String} {e : String × Json} {ps : List Param} :
    (do let v ← x; pure (key, v) : Render (String × Json)).Gives e ps ↔
      ∃ v, x.Gives v ps ∧ e = (key, v) := by
  rw [bind_pure_comp, gives_map]

section EntriesBy

variable {κ : Type} [LT κ] {key : κ → String} {f : α → Render Json} {m : OrderedMap κ α}
  {es : Entries} {ps : List Param}

theorem params_of_entriesBy {p : α → List Param} (hf : ∀ a v qs, (f a).Gives v qs → qs = p a)
    (h : (entriesBy key f m).Gives es ps) : ps = m.values.flatMap p := by
  have hentry : ∀ (e : κ × α) b qs,
      (do let v ← f e.2; pure (key e.1, v) : Render (String × Json)).Gives b qs → qs = p e.2 := by
    intro e b qs hb
    obtain ⟨v, hv, -⟩ := gives_entry.mp hb
    exact hf e.2 v qs hv
  rw [params_of_each hentry h, OrderedMap.values, List.flatMap_map]

/-- The entry of each value stands at its place. -/
theorem forall₂_of_entriesBy (h : (entriesBy key f m).Gives es ps) :
    List.Forall₂ (fun e e' => e'.1 = key e.1 ∧ ∃ qs, (f e.2).Gives e'.2 qs) m.entries es := by
  refine (forall₂_of_each h).imp fun e e' he => ?_
  obtain ⟨qs, hqs⟩ := he
  obtain ⟨v, hv, rfl⟩ := gives_entry.mp hqs
  exact ⟨rfl, qs, hv⟩

end EntriesBy

/-- A placeholder for each parameter. -/
theorem gives_each_placeholder {qs : List Param} {vs : List Json} {ps : List Param} :
    (each placeholder qs).Gives vs ps ↔ vs = qs.map (fun p => .str p.placeholder) ∧ ps = qs := by
  have hone : ∀ p : Param, (placeholder p).Gives (.str p.placeholder) [p] := by
    intro p
    simp
  have hall : qs.flatMap (fun p => [p]) = qs := List.flatMap_singleton' qs
  rw [gives_each_of_forall hone, hall]

end DocumentQuery.Render

namespace DocumentQuery

variable {α β : Type}

/-- In sequence, both checks succeed. -/
theorem bind_eq_ok_iff {ε : Type} {x : Except ε α} {f : α → Except ε β} {b : β} :
    (x >>= f) = .ok b ↔ ∃ a, x = .ok a ∧ f a = .ok b := by
  cases x with
  | error e =>
    constructor
    · intro h
      cases h
    · intro h'
      obtain ⟨a, h, -⟩ := h'
      cases h
  | ok a =>
    refine ⟨fun h => ⟨a, rfl, h⟩, ?_⟩
    intro h'
    obtain ⟨a', h, hf⟩ := h'
    cases h
    exact hf

/-- In sequence, the first check fails, or it succeeds and the second one fails. -/
theorem bind_eq_error_iff {ε : Type} {x : Except ε α} {f : α → Except ε β} {e : ε} :
    (x >>= f) = .error e ↔ x = .error e ∨ ∃ a, x = .ok a ∧ f a = .error e := by
  cases x with
  | error e' =>
    constructor
    · intro h
      cases h
      exact .inl rfl
    · rintro (h | ⟨a, h, -⟩)
      · cases h
        rfl
      · cases h
  | ok a =>
    constructor
    · exact fun h => .inr ⟨a, rfl, h⟩
    · rintro (h | ⟨a', h, hf⟩)
      · cases h
      · cases h
        exact hf

theorem pure_eq_ok_iff {ε : Type} {a b : α} : (pure a : Except ε α) = .ok b ↔ b = a := by
  constructor
  · intro h
    cases h
    rfl
  · intro heq
    subst heq
    rfl

/-- Every element on the left is related to one on the right. -/
theorem exists_of_forall₂ {R : α → β → Prop} {as : List α} {bs : List β}
    (h : List.Forall₂ R as bs) : ∀ a ∈ as, ∃ b ∈ bs, R a b := by
  induction h with
  | nil => simp
  | cons hab _ ih =>
    refine List.forall_mem_cons.mpr ⟨⟨_, List.mem_cons_self, hab⟩, fun a ha => ?_⟩
    obtain ⟨b, hb, hab⟩ := ih a ha
    exact ⟨b, List.mem_cons_of_mem _ hb, hab⟩

/-- Related elements can be put in a list if there is one for each element. -/
theorem exists_forall₂_iff {R : α → β → Prop} {as : List α} :
    (∃ bs, List.Forall₂ R as bs) ↔ ∀ a ∈ as, ∃ b, R a b := by
  induction as with
  | nil => simp
  | cons a as ih =>
    rw [List.forall_mem_cons, ← ih]
    constructor
    · rintro ⟨_, h⟩
      cases h with
      | cons hab hrest => exact ⟨⟨_, hab⟩, _, hrest⟩
    · rintro ⟨⟨b, hab⟩, bs, hrest⟩
      exact ⟨b :: bs, .cons hab hrest⟩

/-- Elements that are related through others have these in a list between them. -/
theorem exists_forall₂_between {γ : Type} {R : α → β → Prop} {S : β → γ → Prop} {as : List α}
    {cs : List γ} (h : List.Forall₂ (fun a c => ∃ b, R a b ∧ S b c) as cs) :
    ∃ bs, List.Forall₂ R as bs ∧ List.Forall₂ S bs cs := by
  induction h with
  | nil => exact ⟨[], .nil, .nil⟩
  | cons hac _ ih =>
    obtain ⟨b, hab, hbc⟩ := hac
    obtain ⟨bs, has, hcs⟩ := ih
    exact ⟨b :: bs, .cons hab has, .cons hbc hcs⟩

/-- A check of every element succeeds exactly if each gives its own result. -/
theorem mapM_eq_ok_iff {ε : Type} {f : α → Except ε β} {as : List α} : ∀ {bs : List β},
    as.mapM f = .ok bs ↔ List.Forall₂ (fun a b => f a = .ok b) as bs := by
  induction as with
  | nil =>
    intro bs
    rw [List.mapM_nil, List.forall₂_nil_left_iff, pure_eq_ok_iff]
  | cons a as ih =>
    intro bs
    simp only [List.mapM_cons, List.forall₂_cons_left_iff, bind_eq_ok_iff, pure_eq_ok_iff, ih]
    constructor
    · intro h
      obtain ⟨b, hb, bs', hbs, rfl⟩ := h
      exact ⟨b, bs', hb, hbs, rfl⟩
    · intro h
      obtain ⟨b, bs', hb, hbs, rfl⟩ := h
      exact ⟨b, hb, bs', hbs, rfl⟩

/-- Options that are all there can be taken out of a list. -/
theorem mapM_eq_some {f : α → Option β} {as : List α} {bs : List β}
    (h : List.Forall₂ (fun a b => f a = some b) as bs) : as.mapM f = some bs := by
  induction h with
  | nil => rfl
  | cons hab _ ih => simp [hab, ih]

end DocumentQuery

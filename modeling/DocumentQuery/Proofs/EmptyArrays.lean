import DocumentQuery.Proofs.Texts
/-!
# Empty arrays in a JSON value

Whether an empty array stands at a key, anywhere in a value. Each way to put a
value together has a rule that says what it takes for the whole to have none.

Main definitions:
* `Json.allEntries`: the entries of objects, at every depth.
* `Json.Lacks`: no entry with the key has an empty array.

Results:
* `lacks_arr`, `lacks_obj`, `Lacks.ofEntries`, `lacks_optional`, `lacks_when`: the rules.
-/
namespace DocumentQuery

namespace Json

mutual

/-- The entries of objects, at every depth. -/
def allEntries : Json → Entries
  | .arr items => entriesOfAll items
  | .obj entries => entriesBelow entries
  | .null | .bool _ | .int _ | .str _ => []

/-- The entries in a list of values. -/
def entriesOfAll : List Json → Entries
  | [] => []
  | v :: vs => allEntries v ++ entriesOfAll vs

/-- The entries of a list, those in its values included. -/
def entriesBelow : Entries → Entries
  | [] => []
  | (k, v) :: es => (k, v) :: (allEntries v ++ entriesBelow es)

end

/-- No entry with the key has an empty array, at any depth. -/
def Lacks (key : String) (v : Json) : Prop := (key, .arr []) ∉ v.allEntries

/-- The entry has no empty array at the key, be it its own or one below it. -/
def EntryLacks (key : String) (e : String × Json) : Prop := e ≠ (key, .arr []) ∧ e.2.Lacks key

variable {key : String}

/-! ## Values -/

@[simp] theorem lacks_null : Lacks key .null := List.not_mem_nil

@[simp] theorem lacks_bool (b : Bool) : Lacks key (.bool b) := List.not_mem_nil

@[simp] theorem lacks_int (n : Int) : Lacks key (.int n) := List.not_mem_nil

@[simp] theorem lacks_str (s : String) : Lacks key (.str s) := List.not_mem_nil

@[simp] theorem lacks_arr {vs : List Json} : Lacks key (.arr vs) ↔ ∀ v ∈ vs, Lacks key v := by
  rw [Lacks, allEntries]
  induction vs with
  | nil => simp [entriesOfAll]
  | cons v vs ih =>
    rw [entriesOfAll, List.mem_append, not_or, ih, List.forall_mem_cons]
    rfl

@[simp] theorem lacks_obj {es : Entries} : Lacks key (.obj es) ↔ ∀ e ∈ es, EntryLacks key e := by
  rw [Lacks, allEntries]
  induction es with
  | nil => simp [entriesBelow]
  | cons e es ih =>
    obtain ⟨k, v⟩ := e
    rw [entriesBelow, List.mem_cons, List.mem_append, not_or, not_or, ih, List.forall_mem_cons,
      ← and_assoc]
    exact and_congr_left fun _ => and_congr_left fun _ => ne_comm

theorem lacks_single {k : String} {v : Json} : Lacks key (.single k v) ↔ EntryLacks key (k, v) := by
  simp [single]

/-- Of inserted entries, none comes that was not there before. -/
theorem Lacks.ofEntries {es : Entries} (h : ∀ e ∈ es, EntryLacks key e) :
    Lacks key (.ofEntries es) :=
  lacks_obj.mpr fun e he => h e ((Entries.ofPairs_subperm es).subset he)

/-! ## Entries -/

theorem entryLacks_of_ne_key {k : String} {v : Json} (hk : k ≠ key) (hv : Lacks key v) :
    EntryLacks key (k, v) := by
  refine ⟨fun heq => hk ?_, hv⟩
  injection heq

theorem entryLacks_of_ne_arr {k : String} {v : Json} (h : v ≠ .arr []) (hv : Lacks key v) :
    EntryLacks key (k, v) := by
  refine ⟨fun heq => h ?_, hv⟩
  injection heq

@[simp] theorem entryLacks_str (k s : String) : EntryLacks key (k, .str s) :=
  entryLacks_of_ne_arr (by simp) (lacks_str s)

@[simp] theorem entryLacks_bool (k : String) (b : Bool) : EntryLacks key (k, .bool b) :=
  entryLacks_of_ne_arr (by simp) (lacks_bool b)

@[simp] theorem entryLacks_int (k : String) (n : Int) : EntryLacks key (k, .int n) :=
  entryLacks_of_ne_arr (by simp) (lacks_int n)

@[simp] theorem entryLacks_nat (k : String) (n : Nat) : EntryLacks key (k, .nat n) :=
  entryLacks_int k n

@[simp] theorem entryLacks_obj {k : String} {es : Entries} :
    EntryLacks key (k, .obj es) ↔ ∀ e ∈ es, EntryLacks key e := by
  rw [← lacks_obj]
  exact ⟨fun h => h.2, entryLacks_of_ne_arr (by simp)⟩

theorem entryLacks_arr {k : String} {vs : List Json} (h : k = key → vs ≠ [])
    (hvs : ∀ v ∈ vs, Lacks key v) : EntryLacks key (k, .arr vs) := by
  refine ⟨fun heq => ?_, lacks_arr.mpr hvs⟩
  injection heq with hk hnil
  injection hnil with hnil
  exact h hk hnil

theorem lacks_optional {k : String} {o : Option Json}
    (h : ∀ v, o = some v → EntryLacks key (k, v)) :
    ∀ e ∈ Entries.optional k o, EntryLacks key e := by
  cases o with
  | none => simp [Entries.optional]
  | some v => simpa [Entries.optional] using h v rfl

theorem lacks_when {cond : Bool} {k : String} {v : Json}
    (h : cond = true → EntryLacks key (k, v)) : ∀ e ∈ Entries.when cond k v, EntryLacks key e := by
  cases cond with
  | false => simp [Entries.when]
  | true => simpa [Entries.when] using h rfl

end Json

end DocumentQuery

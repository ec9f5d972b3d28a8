import SmallLisp.Value.Basic

/-!
# The parts of a value

The elements, keys and values that a collection holds, at every depth. `everywhere` asks something of all of
them at once, and `parts_induction` proves a statement of a value from the same statement of its parts. A
function has no parts here: its body and what it captured are looked at by those who need them.
-/

namespace SmallLisp.Value

mutual

/-- Whether something holds of a value and of every element, key and value in it. -/
def everywhere (p : Value → Bool) : Value → Bool
  | .list items => p (.list items) && everyItem p items
  | .vector items => p (.vector items) && everyItem p items
  | .map entries => p (.map entries) && everyEntry p entries
  | .set items => p (.set items) && everyItem p items
  | v => p v

def everyItem (p : Value → Bool) : List Value → Bool
  | [] => true
  | v :: rest => everywhere p v && everyItem p rest

def everyEntry (p : Value → Bool) : List (Value × Value) → Bool
  | [] => true
  | (k, v) :: rest => everywhere p k && (everywhere p v && everyEntry p rest)

end

variable {p : Value → Bool}

/-- The recursion through a row asks each value of it. -/
theorem everyItem_iff {items : List Value} :
    everyItem p items = true ↔ ∀ v ∈ items, v.everywhere p = true := by
  induction items with
  | nil => simp [everyItem]
  | cons v rest ih => simp [everyItem, ih]

/-- The recursion through a row of entries asks each key and each value of it. -/
theorem everyEntry_iff {entries : List (Value × Value)} :
    everyEntry p entries = true ↔
      ∀ entry ∈ entries, entry.1.everywhere p = true ∧ entry.2.everywhere p = true := by
  induction entries with
  | nil => simp [everyEntry]
  | cons entry rest ih => simp [everyEntry, ih, and_assoc]

/-- What holds everywhere in a list, vector or set holds everywhere in its elements. -/
theorem everywhere_of_mem_elements {v : Value} {items : List Value} (h : v.everywhere p = true)
    (hitems : v.elements? = some items) : ∀ item ∈ items, item.everywhere p = true := by
  apply everyItem_iff.1
  cases v <;> cases hitems <;> exact (Bool.and_eq_true_iff.1 (by simpa only [everywhere] using h)).2

/-- What holds everywhere in a map holds everywhere in its keys and values. -/
theorem everywhere_of_mem_entries {entries : List (Value × Value)} {entry : Value × Value}
    (h : (Value.map entries).everywhere p = true) (hentry : entry ∈ entries) :
    entry.1.everywhere p = true ∧ entry.2.everywhere p = true := by
  rw [everywhere, Bool.and_eq_true] at h
  exact everyEntry_iff.1 h.2 entry hentry

private theorem sizeOf_lt_of_mem_elements {v item : Value} {items : List Value}
    (hitems : v.elements? = some items) (h : item ∈ items) : sizeOf item < sizeOf v := by
  have hlt := List.sizeOf_lt_of_mem h
  cases v <;> cases hitems <;>
    simp only [list.sizeOf_spec, vector.sizeOf_spec, set.sizeOf_spec] <;> omega

private theorem sizeOf_lt_of_mem_entries {entries : List (Value × Value)} {entry : Value × Value}
    (h : entry ∈ entries) :
    sizeOf entry.1 < sizeOf (Value.map entries) ∧ sizeOf entry.2 < sizeOf (Value.map entries) := by
  have hlt := List.sizeOf_lt_of_mem h
  obtain ⟨key, value⟩ := entry
  simp only [Prod.mk.sizeOf_spec, map.sizeOf_spec] at hlt ⊢
  omega

/-- What holds of a value as soon as it holds of its elements, or of its keys and values, holds of every
value. -/
@[elab_as_elim]
theorem parts_induction {motive : Value → Prop}
    (step : ∀ v, (∀ items, v.elements? = some items → ∀ item ∈ items, motive item) →
      (∀ entries, v = .map entries → ∀ entry ∈ entries, motive entry.1 ∧ motive entry.2) → motive v)
    (v : Value) : motive v :=
  step v (fun _ _ item _ => parts_induction step item)
    fun _ _ entry _ => ⟨parts_induction step entry.1, parts_induction step entry.2⟩
termination_by sizeOf v
decreasing_by
  · exact sizeOf_lt_of_mem_elements ‹_› ‹_›
  · subst v
    exact (sizeOf_lt_of_mem_entries ‹_›).1
  · subst v
    exact (sizeOf_lt_of_mem_entries ‹_›).2

end SmallLisp.Value

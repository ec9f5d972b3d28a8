import SmallLisp.Name
import SmallLisp.Sorted

/-!
# Bindings of symbols

A finite map from symbols to values of any type. The entries are kept in the order of their names and
a name has one entry, so bindings built in different ways from the same pairs are the same bindings.
The view of bindings is `get?`; `get?_insert` and `get?_merge` say what the two operations do to it.
-/

namespace SmallLisp

/-- A finite map from symbols to values, its entries in the order of their names. -/
structure Bindings (α : Type) where
  entries : List (Symbol × α)
deriving Repr

namespace Bindings

variable {α : Type}

/-- No bindings at all. -/
def empty : Bindings α := ⟨[]⟩

instance : Inhabited (Bindings α) := ⟨empty⟩

/-- The value bound to a name. -/
def get? (b : Bindings α) (name : Symbol) : Option α :=
  Sorted.lookup? compare name b.entries

/-- Whether a name is bound. -/
def contains (b : Bindings α) (name : Symbol) : Bool :=
  (b.get? name).isSome

/-- The number of bound names. -/
def size (b : Bindings α) : Nat :=
  b.entries.length

def isEmpty (b : Bindings α) : Bool :=
  b.entries.isEmpty

/-- The bound names, in order. -/
def symbols (b : Bindings α) : List Symbol :=
  b.entries.map (·.1)

/-- The bindings with one name bound anew. -/
def insert (b : Bindings α) (name : Symbol) (value : α) : Bindings α :=
  ⟨Sorted.insertEntry compare name value b.entries⟩

/-- The bindings of `base` with every binding of `overlay` on top. -/
def merge (base overlay : Bindings α) : Bindings α :=
  overlay.entries.foldr (fun entry b => b.insert entry.1 entry.2) base

/-- A short description that gives the number of bindings only. -/
def description (b : Bindings α) : String :=
  "#<env " ++ Nat.repr b.size ++ " bindings>"

/-! ## What the operations do to the view -/

/-- A new binding is found under its name, and every other name keeps its binding. -/
theorem get?_insert (b : Bindings α) (name key : Symbol) (value : α) :
    (b.insert name value).get? key = if key = name then some value else b.get? key := by
  simp [get?, insert, Sorted.lookup?_insertEntry]

@[simp]
theorem get?_insert_self (b : Bindings α) (name : Symbol) (value : α) :
    (b.insert name value).get? name = some value := by
  simp [get?_insert]

/-- A name bound in the overlay has its value there, and any other name its value in the base. -/
theorem get?_merge (base overlay : Bindings α) (name : Symbol) :
    (base.merge overlay).get? name = (overlay.get? name).or (base.get? name) := by
  obtain ⟨entries⟩ := overlay
  induction entries with
  | nil => rfl
  | cons entry rest ih =>
    have hmerge : base.merge ⟨entry :: rest⟩ = (base.merge ⟨rest⟩).insert entry.1 entry.2 := rfl
    rw [hmerge, get?_insert, ih]
    obtain ⟨key, value⟩ := entry
    simp only [get?, Sorted.lookup?]
    by_cases hkey : name = key
    · subst hkey
      simp
    · simp [hkey]

@[simp]
theorem get?_empty (name : Symbol) : (empty : Bindings α).get? name = none := rfl

end Bindings

end SmallLisp

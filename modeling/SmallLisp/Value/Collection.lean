import SmallLisp.Sorted
import SmallLisp.Value.Order

/-!
# Building sets and maps

Elements and entries are put at their place in the value order, over an equal element or an entry with
an equal key. A set or map built this way is strictly increasing, so it does not depend on the order in
which distinct elements came.
-/

namespace SmallLisp.Value

/-- Puts an element at its place in an increasing sequence. -/
def insertItem (item : Value) (items : List Value) : List Value :=
  Sorted.insert cmp item items

/-- Puts an entry at the place of its key in an increasing sequence of entries. -/
def insertEntry (key value : Value) (entries : List (Value × Value)) : List (Value × Value) :=
  Sorted.insertEntry cmp key value entries

/-- The value under a key. -/
def lookup? (key : Value) (entries : List (Value × Value)) : Option Value :=
  Sorted.lookup? cmp key entries

/-- The set of some values: duplicates collapse. -/
def ofItems (items : List Value) : Value :=
  .set (items.foldl (fun acc item => insertItem item acc) [])

/-- The map of some entries: of entries with equal keys the last one counts. -/
def ofEntries (entries : List (Value × Value)) : Value :=
  .map (entries.foldl (fun acc entry => insertEntry entry.1 entry.2 acc) [])

end SmallLisp.Value

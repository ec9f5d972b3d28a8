/-!
# Sequences kept in order

Elements, or entries with a key, are put at their place by a comparison, over the element or entry
that compares equal. A sequence built this way is strictly increasing, so it holds nothing twice and
does not depend on the order in which its elements came. Main statements: inserting keeps a sequence
increasing (`increasing_insert`), and an entry is found under its key (`lookup?_insertEntry`).
-/

namespace SmallLisp.Sorted

variable {α κ : Type}

/-- Puts an element at its place. -/
def insert (cmp : α → α → Ordering) (x : α) : List α → List α
  | [] => [x]
  | y :: ys =>
    match cmp x y with
    | .lt => x :: y :: ys
    | .eq => x :: ys
    | .gt => y :: insert cmp x ys

/-- Puts an entry at the place of its key. -/
def insertEntry (cmp : κ → κ → Ordering) (key : κ) (value : α) (entries : List (κ × α)) :
    List (κ × α) :=
  insert (fun a b => cmp a.1 b.1) (key, value) entries

/-- The value under a key. -/
def lookup? (cmp : κ → κ → Ordering) (key : κ) : List (κ × α) → Option α
  | [] => none
  | (other, value) :: rest => if cmp key other == .eq then some value else lookup? cmp key rest

/-- Each element comes strictly before those after it. -/
def Increasing (cmp : α → α → Ordering) (xs : List α) : Prop :=
  xs.Pairwise fun a b => cmp a b = .lt

/-- What is inserted was there before or is the new element. -/
theorem mem_of_mem_insert {cmp : α → α → Ordering} {x z : α} {xs : List α}
    (h : z ∈ insert cmp x xs) : z = x ∨ z ∈ xs := by
  induction xs with
  | nil => exact Or.inl (by simpa [insert] using h)
  | cons y ys ih =>
    simp only [insert] at h
    split at h
    · simpa using h
    · rcases List.mem_cons.1 h with h | h
      · exact Or.inl h
      · exact Or.inr (List.mem_cons_of_mem y h)
    · rcases List.mem_cons.1 h with h | h
      · exact Or.inr (h ▸ List.mem_cons_self)
      · rcases ih h with h | h
        · exact Or.inl h
        · exact Or.inr (List.mem_cons_of_mem y h)

/-- Inserting keeps a sequence strictly increasing. -/
theorem increasing_insert {cmp : α → α → Ordering} [Std.TransCmp cmp] (x : α) {xs : List α}
    (h : Increasing cmp xs) : Increasing cmp (insert cmp x xs) := by
  unfold Increasing at h ⊢
  induction xs with
  | nil => simp [insert]
  | cons y ys ih =>
    obtain ⟨hy, hys⟩ := List.pairwise_cons.1 h
    simp only [insert]
    split
    · next hlt =>
      refine List.pairwise_cons.2 ⟨fun z hz => ?_, h⟩
      rcases List.mem_cons.1 hz with rfl | hz
      · exact hlt
      · exact Std.TransCmp.lt_trans hlt (hy z hz)
    · next heq =>
      refine List.pairwise_cons.2 ⟨fun z hz => ?_, hys⟩
      rw [Std.TransCmp.congr_left heq]
      exact hy z hz
    · next hgt =>
      refine List.pairwise_cons.2 ⟨fun z hz => ?_, ih hys⟩
      rcases mem_of_mem_insert hz with rfl | hz
      · exact Std.OrientedCmp.lt_of_gt hgt
      · exact hy z hz

/-- A new entry is found under its key, and every other key keeps its value. -/
theorem lookup?_insertEntry {cmp : κ → κ → Ordering} [Std.TransCmp cmp] (key name : κ) (value : α)
    (entries : List (κ × α)) :
    lookup? cmp name (insertEntry cmp key value entries) =
      if cmp name key == .eq then some value else lookup? cmp name entries := by
  unfold insertEntry
  induction entries with
  | nil => rfl
  | cons entry rest ih =>
    obtain ⟨other, old⟩ := entry
    simp only [insert]
    split
    · rfl
    · next heq =>
      simp only [lookup?, Std.TransCmp.congr_right (a := name) heq]
      split <;> rfl
    · next hgt =>
      simp only [lookup?, ih]
      -- a name equal to the earlier key comes before the new one, so it cannot equal that too
      by_cases hother : cmp name other = .eq
      · have hkey : cmp name key = .lt := by
          rw [Std.TransCmp.congr_left hother]
          exact Std.OrientedCmp.lt_of_gt hgt
        simp [hother, hkey]
      · simp [hother]

end SmallLisp.Sorted

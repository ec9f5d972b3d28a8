import SmallLisp.Bindings

/-!
# Bindings in order

Bindings whose entries are in order are told by their view (`IsSorted.eq_of_get?_eq`). Bindings may be built again
from those of some names, with every value changed in the same way (`rebuild`); the result is in order whatever they
were like, and building again commutes with putting in a binding and with merging.
-/

namespace SmallLisp

/-! ## Sequences in order -/

namespace Sorted

variable {α β κ : Type} {cmp : κ → κ → Ordering}

/-- Putting an element at its place commutes with a map that keeps the order. -/
theorem insert_map {cmp : α → α → Ordering} {cmp' : β → β → Ordering} {f : α → β}
    (h : ∀ a b, cmp' (f a) (f b) = cmp a b) (x : α) (xs : List α) :
    insert cmp' (f x) (xs.map f) = (insert cmp x xs).map f := by
  induction xs with
  | nil => rfl
  | cons y ys ih =>
    simp only [insert, List.map_cons, h]
    split
    · rfl
    · rfl
    · rw [ih, List.map_cons]

/-- A map of keys that keeps the comparison keeps what is found. -/
theorem lookup?_map {f : κ → κ} (h : ∀ a b, cmp (f a) (f b) = cmp a b) (g : α → β) (key : κ)
    (entries : List (κ × α)) :
    lookup? cmp (f key) (entries.map (Prod.map f g)) = (lookup? cmp key entries).map g := by
  induction entries with
  | nil => rfl
  | cons entry rest ih =>
    simp only [List.map_cons, Prod.map, lookup?, h, ih]
    split <;> rfl

/-- Nothing is found under a key that equals none of the keys. -/
theorem lookup?_eq_none {key : κ} {entries : List (κ × α)}
    (h : ∀ entry ∈ entries, cmp key entry.1 ≠ .eq) : lookup? cmp key entries = none := by
  induction entries with
  | nil => rfl
  | cons entry rest ih =>
    obtain ⟨hentry, hrest⟩ := List.forall_mem_cons.1 h
    simp [lookup?, hentry, ih hrest]

variable [Std.TransCmp cmp]

/-- Before the first of some entries in order, nothing is found among them. -/
theorem lookup?_of_lt {key : κ} {entry : κ × α} {rest : List (κ × α)} (h : cmp key entry.1 = .lt)
    (hrest : ∀ other ∈ rest, cmp entry.1 other.1 = .lt) : lookup? cmp key (entry :: rest) = none := by
  apply lookup?_eq_none
  refine List.forall_mem_cons.2 ⟨by simp [h], ?_⟩
  intro other hother
  simp [Std.TransCmp.lt_trans h (hrest other hother)]

/-- Entries in order are told by what is found under each key. -/
theorem eq_of_lookup?_eq [Std.LawfulEqCmp cmp] {as bs : List (κ × α)}
    (has : Increasing (fun a b => cmp a.1 b.1) as) (hbs : Increasing (fun a b => cmp a.1 b.1) bs)
    (h : ∀ key, lookup? cmp key as = lookup? cmp key bs) : as = bs := by
  induction as generalizing bs with
  | nil =>
    cases bs with
    | nil => rfl
    | cons entry rest => simpa [lookup?] using h entry.1
  | cons a as ih =>
    cases bs with
    | nil => simpa [lookup?] using h a.1
    | cons b bs =>
      obtain ⟨ha, has⟩ := List.pairwise_cons.1 has
      obtain ⟨hb, hbs⟩ := List.pairwise_cons.1 hbs
      -- the smaller of the two first keys would be found on one side only
      have hfirst : cmp a.1 b.1 = .eq := by
        cases hcmp : cmp a.1 b.1 with
        | eq => rfl
        | lt =>
          have hfound := h a.1
          rw [lookup?_of_lt hcmp hb] at hfound
          simp [lookup?] at hfound
        | gt =>
          have hfound := h b.1
          rw [lookup?_of_lt (Std.OrientedCmp.lt_of_gt hcmp) ha] at hfound
          simp [lookup?] at hfound
      have hkey : a.1 = b.1 := Std.LawfulEqCmp.eq_of_compare hfirst
      have hvalue : a.2 = b.2 := by simpa [lookup?, hfirst] using h a.1
      have hrest : ∀ key, lookup? cmp key as = lookup? cmp key bs := by
        intro key
        by_cases hsame : cmp key a.1 = .eq
        · rw [lookup?_eq_none, lookup?_eq_none]
          · intro entry hentry
            simp [Std.TransCmp.congr_left hsame, hkey, hb entry hentry]
          · intro entry hentry
            simp [Std.TransCmp.congr_left hsame, ha entry hentry]
        · simpa [lookup?, ← hkey, hsame] using h key
      rw [Prod.ext hkey hvalue, ih has hbs hrest]

end Sorted

namespace Bindings

variable {α : Type}

/-- The entries are in order and none is there twice. -/
def IsSorted (b : Bindings α) : Prop :=
  Sorted.Increasing (fun a b => compare a.1 b.1) b.entries

theorem isSorted_empty : (empty : Bindings α).IsSorted :=
  List.Pairwise.nil

instance : Std.TransCmp fun a b : Symbol × α => compare a.1 b.1 :=
  inferInstanceAs (Std.TransCmp (compareOn Prod.fst))

theorem IsSorted.insert {b : Bindings α} (h : b.IsSorted) (name : Symbol) (value : α) :
    (b.insert name value).IsSorted :=
  Sorted.increasing_insert _ h

/-- Laying one environment over another inserts its bindings one by one, so the order is kept. -/
theorem IsSorted.merge {base : Bindings α} (h : base.IsSorted) (overlay : Bindings α) :
    (base.merge overlay).IsSorted := by
  obtain ⟨entries⟩ := overlay
  induction entries with
  | nil => exact h
  | cons entry rest ih => exact ih.insert entry.1 entry.2

/-- Sorted bindings are told by their view. -/
theorem IsSorted.eq_of_get?_eq {a b : Bindings α} (ha : a.IsSorted) (hb : b.IsSorted)
    (h : ∀ s, a.get? s = b.get? s) : a = b :=
  congrArg Bindings.mk (Sorted.eq_of_lookup?_eq ha hb h)

/-! ## Building again -/

/-- The bindings of the names that are kept, each to the image of its value, put in order. -/
def rebuild {β : Type} (keep : Symbol → Prop) [DecidablePred keep] (f : α → β) (b : Bindings α) : Bindings β :=
  b.entries.foldr (fun entry built => if keep entry.1 then built.insert entry.1 (f entry.2) else built) empty

variable {β : Type} {keep : Symbol → Prop} [DecidablePred keep] {f : α → β}

/-- Bindings that are built again are in order, whatever the order of the old ones was. -/
theorem isSorted_rebuild (b : Bindings α) : (b.rebuild keep f).IsSorted := by
  obtain ⟨entries⟩ := b
  unfold rebuild
  induction entries with
  | nil => exact isSorted_empty
  | cons entry rest ih =>
    simp only [List.foldr_cons]
    split
    · exact ih.insert _ _
    · exact ih

/-- A kept name has its changed value, and any other name is unbound. -/
theorem get?_rebuild (b : Bindings α) (s : Symbol) :
    (b.rebuild keep f).get? s = if keep s then (b.get? s).map f else none := by
  obtain ⟨entries⟩ := b
  unfold rebuild
  induction entries with
  | nil => simp [get?, Sorted.lookup?, empty]
  | cons entry rest ih =>
    obtain ⟨key, value⟩ := entry
    have hcons : (Bindings.mk ((key, value) :: rest)).get? s =
        if s = key then some value else (Bindings.mk rest).get? s := by
      simp [get?, Sorted.lookup?]
    rw [hcons, List.foldr_cons]
    split
    · rw [get?_insert, ih]
      grind
    · rw [ih]
      grind

/-- A name that is not kept may be bound to anything. -/
theorem rebuild_insert_of_not {s : Symbol} (h : ¬keep s) (b : Bindings α) (v : α) :
    (b.insert s v).rebuild keep f = b.rebuild keep f := by
  refine (isSorted_rebuild _).eq_of_get?_eq (isSorted_rebuild b) ?_
  intro t
  rw [get?_rebuild, get?_rebuild, get?_insert]
  grind

/-- Binding a kept name and building again may change places. -/
theorem rebuild_insert {s : Symbol} (h : keep s) (b : Bindings α) (v : α) :
    (b.insert s v).rebuild keep f = (b.rebuild keep f).insert s (f v) := by
  refine (isSorted_rebuild _).eq_of_get?_eq ((isSorted_rebuild b).insert s _) ?_
  intro t
  rw [get?_rebuild, get?_insert, get?_insert, get?_rebuild]
  grind

/-- Laying over and building again may change places. -/
theorem rebuild_merge (base overlay : Bindings α) :
    (base.merge overlay).rebuild keep f = (base.rebuild keep f).merge (overlay.rebuild keep f) := by
  refine (isSorted_rebuild _).eq_of_get?_eq ((isSorted_rebuild base).merge _) ?_
  intro s
  rw [get?_rebuild, get?_merge, get?_merge, get?_rebuild, get?_rebuild]
  split
  · cases overlay.get? s <;> rfl
  · rfl

end Bindings

end SmallLisp

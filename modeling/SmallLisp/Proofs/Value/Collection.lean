import Mathlib.Data.List.Induction
import SmallLisp.Proofs.Value.ReadBack

/-!
# What sets and maps hold

A set or a map is built by inserting one element after the other. `Sorted.collect` is that loop for any
comparison; what it builds is increasing (`increasing_collect`), holds nothing but what was put in
(`mem_of_mem_collect`) and everything that was put in, up to elements that compare equal
(`exists_mem_collect_iff`), and under a key it has the value that was put in last (`lookup?_collect`). An
increasing sequence is told by its elements (`Increasing.forall₂`), so sets do not depend on the order or
the number of insertions (`beq_ofItems_of_mem_iff`). Of two entries with equal keys a map keeps the later one
(`lookup?_ofEntries`); a map that is written down has its keys `Fresh`, each of them new where it is added.
-/

namespace SmallLisp

namespace Sorted

variable {α κ : Type} {cmp : α → α → Ordering}

/-- The sequence of the given elements, each put at its place. -/
def collect (cmp : α → α → Ordering) (xs : List α) : List α :=
  xs.foldl (fun acc x => insert cmp x acc) []

theorem collect_concat (xs : List α) (x : α) :
    collect cmp (xs ++ [x]) = insert cmp x (collect cmp xs) :=
  List.foldl_append

/-- Nothing is in the sequence but what was put in. -/
theorem mem_of_mem_collect {xs : List α} {x : α} (h : x ∈ collect cmp xs) : x ∈ xs := by
  induction xs using List.reverseRecOn with
  | nil => exact h
  | append_singleton xs y ih =>
    rw [collect_concat] at h
    rcases mem_of_mem_insert h with rfl | h
    · exact List.mem_append_right xs List.mem_cons_self
    · exact List.mem_append_left [y] (ih h)

variable [Std.TransCmp cmp]

theorem increasing_collect (xs : List α) : Increasing cmp (collect cmp xs) := by
  induction xs using List.reverseRecOn with
  | nil => exact List.Pairwise.nil
  | append_singleton xs x ih =>
    rw [collect_concat]
    exact increasing_insert x ih

/-- An insertion adds the new element and takes away only what compares equal to it. -/
theorem exists_mem_insert_iff {x v : α} {xs : List α} :
    (∃ u ∈ insert cmp x xs, cmp u v = .eq) ↔ cmp x v = .eq ∨ ∃ u ∈ xs, cmp u v = .eq := by
  induction xs with
  | nil => simp [insert]
  | cons y ys ih =>
    simp only [insert]
    split
    · simp
    · next heq => simp [Std.TransCmp.congr_left heq]
    · simp only [List.mem_cons, exists_eq_or_imp, ih, or_left_comm]

/-- Everything that was put in is there, up to elements that compare equal. -/
theorem exists_mem_collect_iff {v : α} {xs : List α} :
    (∃ u ∈ collect cmp xs, cmp u v = .eq) ↔ ∃ u ∈ xs, cmp u v = .eq := by
  induction xs using List.reverseRecOn with
  | nil => rfl
  | append_singleton xs x ih =>
    rw [collect_concat, exists_mem_insert_iff, ih]
    simp [or_comm, or_and_right, exists_or]

/-- The first of an increasing sequence comes before whatever equals one of the others. -/
theorem Increasing.lt_of_tail {a v : α} {as : List α} (h : Increasing cmp (a :: as))
    (hv : ∃ u ∈ as, cmp u v = .eq) : cmp a v = .lt := by
  obtain ⟨u, hu, heq⟩ := hv
  rw [← Std.TransCmp.congr_right heq]
  exact (List.pairwise_cons.1 h).1 u hu

/-- Elements that are covered by an increasing sequence and are not its first are covered by the others. -/
theorem exists_mem_tail_iff {a v : α} {as : List α} (h : Increasing cmp (a :: as)) :
    (∃ u ∈ as, cmp u v = .eq) ↔ (∃ u ∈ a :: as, cmp u v = .eq) ∧ cmp a v ≠ .eq := by
  constructor
  · intro hv
    have hlt := h.lt_of_tail hv
    obtain ⟨u, hu, heq⟩ := hv
    exact ⟨⟨u, List.mem_cons_of_mem a hu, heq⟩, by rw [hlt]; decide⟩
  · rintro ⟨⟨u, hu, heq⟩, hne⟩
    rcases List.mem_cons.1 hu with rfl | hu
    · exact absurd heq hne
    · exact ⟨u, hu, heq⟩

/-- Increasing sequences with equal elements are equal element by element. -/
theorem Increasing.forall₂ {as bs : List α} (has : Increasing cmp as) (hbs : Increasing cmp bs)
    (h : ∀ v, (∃ a ∈ as, cmp a v = .eq) ↔ ∃ b ∈ bs, cmp b v = .eq) :
    List.Forall₂ (fun a b => cmp a b = .eq) as bs := by
  induction as generalizing bs with
  | nil =>
    cases bs with
    | nil => exact .nil
    | cons b bs =>
      obtain ⟨a, ha, -⟩ := (h b).2 ⟨b, List.mem_cons_self, Std.ReflCmp.compare_self⟩
      cases ha
  | cons a as ih =>
    cases bs with
    | nil =>
      obtain ⟨b, hb, -⟩ := (h a).1 ⟨a, List.mem_cons_self, Std.ReflCmp.compare_self⟩
      cases hb
    | cons b bs =>
      -- if the first elements differ, each of them comes before the other
      have hfirst : cmp a b = .eq := by
        by_contra hne
        have ha : cmp a b = .lt := by
          apply has.lt_of_tail
          apply (exists_mem_tail_iff has).2
          exact ⟨(h b).2 ⟨b, List.mem_cons_self, Std.ReflCmp.compare_self⟩, hne⟩
        have hb : cmp b a = .lt := by
          apply hbs.lt_of_tail
          apply (exists_mem_tail_iff hbs).2
          refine ⟨(h a).1 ⟨a, List.mem_cons_self, Std.ReflCmp.compare_self⟩, ?_⟩
          rwa [Ne, Std.OrientedCmp.eq_comm]
        rw [Std.OrientedCmp.gt_of_lt ha] at hb
        cases hb
      refine .cons hfirst (ih (List.pairwise_cons.1 has).2 (List.pairwise_cons.1 hbs).2 ?_)
      intro v
      rw [exists_mem_tail_iff has, exists_mem_tail_iff hbs, h v, Std.TransCmp.congr_left hfirst]

omit [Std.TransCmp cmp] in
/-- Under a key there is the value that was put in last. -/
theorem lookup?_collect {cmp : κ → κ → Ordering} [Std.TransCmp cmp] (key : κ) (entries : List (κ × α)) :
    lookup? cmp key (collect (fun a b => cmp a.1 b.1) entries) =
      (entries.reverse.find? fun entry => cmp key entry.1 == .eq).map Prod.snd := by
  induction entries using List.reverseRecOn with
  | nil => rfl
  | append_singleton entries entry ih =>
    have hlookup : lookup? cmp key (insertEntry cmp entry.1 entry.2
        (collect (fun a b => cmp a.1 b.1) entries)) = _ := lookup?_insertEntry entry.1 key entry.2 _
    rw [collect_concat, List.reverse_append, List.reverse_singleton, List.singleton_append,
      List.find?_cons]
    refine hlookup.trans ?_
    split
    · next heq => simp [heq]
    · next hne => simp [hne, ih]

end Sorted

namespace Value

instance : Std.TransCmp fun a b : Value × Value => cmp a.1 b.1 where
  eq_swap := Std.OrientedCmp.eq_swap
  isLE_trans := Std.TransCmp.isLE_trans

theorem inOrder_ofItems (items : List Value) : (ofItems items).inOrder = true :=
  decide_eq_true (Sorted.increasing_collect items)

theorem inOrder_ofEntries (entries : List (Value × Value)) : (ofEntries entries).inOrder = true := by
  apply decide_eq_true
  exact Sorted.increasing_collect entries

theorem beqItems_of_forall₂ {as bs : List Value} (h : List.Forall₂ (fun a b => cmp a b = .eq) as bs) :
    beqItems as bs = true := by
  induction h with
  | nil => rfl
  | cons hfirst hrest ih =>
    rw [beqItems, ih, Bool.and_true]
    exact (cmp_eq_eq_iff _ _).1 hfirst

/-- A set holds the elements it was made of. -/
theorem exists_mem_ofItems_iff {items xs : List Value} (h : ofItems xs = .set items) (v : Value) :
    (∃ u ∈ items, (u == v) = true) ↔ ∃ u ∈ xs, (u == v) = true := by
  obtain rfl := Value.set.inj h
  simp only [← cmp_eq_eq_iff]
  exact Sorted.exists_mem_collect_iff

/-- Neither the order of the elements nor their number matters to a set. -/
theorem beq_ofItems_of_mem_iff {xs ys : List Value} (h : ∀ v, v ∈ ys ↔ v ∈ xs) :
    (ofItems ys == ofItems xs) = true := by
  apply beqItems_of_forall₂
  apply Sorted.Increasing.forall₂ (Sorted.increasing_collect ys) (Sorted.increasing_collect xs)
  intro v
  rw [Sorted.exists_mem_collect_iff, Sorted.exists_mem_collect_iff]
  simp only [h]

/-! ## The keys of a map -/

/-- An entry is found under the keys that equal its own. -/
theorem lookup?_insertEntry (key other value : Value) (entries : List (Value × Value)) :
    lookup? other (insertEntry key value entries) =
      if key == other then some value else lookup? other entries := by
  rw [lookup?, insertEntry, Sorted.lookup?_insertEntry, cmp_beq_eq, lookup?]

/-- Under a key of a map there is the value of the last entry with that key. -/
theorem lookup?_ofEntries {entries held : List (Value × Value)} (h : ofEntries entries = .map held)
    (key : Value) :
    lookup? key held = (entries.reverse.find? fun entry => entry.1 == key).map Prod.snd := by
  obtain rfl := Value.map.inj h
  refine (Sorted.lookup?_collect key entries).trans ?_
  simp only [cmp_beq_eq]

/-- A map has the keys it was made of and no others. -/
theorem lookup?_eq_none_iff {entries held : List (Value × Value)} (h : ofEntries entries = .map held)
    (key : Value) : lookup? key held = none ↔ ∀ entry ∈ entries, (entry.1 == key) = false := by
  rw [lookup?_ofEntries h key]
  simp

/-- What is found under a key was put in with an equal one. -/
theorem exists_of_lookup?_isSome {entries held : List (Value × Value)} {key : Value}
    (h : ofEntries entries = .map held) (hfound : (lookup? key held).isSome = true) :
    ∃ entry ∈ entries, (entry.1 == key) = true := by
  rw [lookup?_ofEntries h key, Option.isSome_map, List.find?_isSome] at hfound
  simpa using hfound

/-- One more entry goes into the map of the entries before it. -/
theorem ofEntries_concat {entries held : List (Value × Value)} (h : ofEntries entries = .map held)
    (key value : Value) : ofEntries (entries ++ [(key, value)]) = .map (insertEntry key value held) := by
  obtain rfl := Value.map.inj h
  exact congrArg Value.map (Sorted.collect_concat entries (key, value))

/-- The keys of some entries are distinct, and none of them is a key of the entries that are there. -/
def Fresh (done pairs : List (Value × Value)) : Prop :=
  (∀ pair ∈ pairs, lookup? pair.1 done = none) ∧ pairs.Pairwise fun a b => (a.1 == b.1) = false

/-- Where nothing is there, only the keys among each other count. -/
theorem fresh_nil_iff {pairs : List (Value × Value)} :
    Fresh [] pairs ↔ pairs.Pairwise fun a b => (a.1 == b.1) = false :=
  ⟨fun h => h.2, fun h => ⟨fun _ _ => rfl, h⟩⟩

/-- Entries may be put in one after the other, each with a key that is not there yet. -/
theorem fresh_cons_iff {done rest : List (Value × Value)} {key value : Value} :
    Fresh done ((key, value) :: rest) ↔
      lookup? key done = none ∧ Fresh (insertEntry key value done) rest := by
  have hinsert : ∀ other, lookup? other (insertEntry key value done) = none ↔
      lookup? other done = none ∧ (key == other) = false := by
    intro other
    rw [lookup?_insertEntry]
    cases key == other <;> simp
  simp only [Fresh, List.forall_mem_cons, List.pairwise_cons, hinsert]
  constructor
  · rintro ⟨⟨hkey, hrest⟩, hfirst, hdistinct⟩
    exact ⟨hkey, fun pair hpair => ⟨hrest pair hpair, hfirst pair hpair⟩, hdistinct⟩
  · rintro ⟨hkey, hrest, hdistinct⟩
    exact ⟨⟨hkey, fun pair hpair => (hrest pair hpair).1⟩, fun pair hpair => (hrest pair hpair).2,
      hdistinct⟩

end Value

end SmallLisp

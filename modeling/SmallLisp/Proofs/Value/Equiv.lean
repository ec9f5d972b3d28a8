import SmallLisp.Builtin.Basic
import SmallLisp.Proofs.Value.Order
import SmallLisp.Proofs.Value.Parts

/-!
# Equality in the language is an equivalence

Values are alike in one of four ways, and `Alike` says which: as sequences, as maps, as doubles, or by
kind-strict equality. Each way is reflexive, symmetric and transitive when the parts are, which proves
the same of `equiv` by induction on the parts. For maps symmetry is a matter of counting: entries with
distinct keys, all found among as many other entries, leave none of these over
(`Sorted.exists_mem_of_covered`). Main statement: `equiv_equivalence`.
-/

namespace SmallLisp

namespace Sorted

variable {α κ : Type} {cmp : κ → κ → Ordering}

/-- A value found under a key belongs to an entry with an equal key. -/
theorem exists_mem_of_lookup? {key : κ} {value : α} {entries : List (κ × α)}
    (h : lookup? cmp key entries = some value) :
    ∃ other, (other, value) ∈ entries ∧ cmp key other = .eq := by
  induction entries with
  | nil => cases h
  | cons entry rest ih =>
    obtain ⟨other, old⟩ := entry
    simp only [lookup?] at h
    split at h
    · next heq =>
      cases h
      exact ⟨other, List.mem_cons_self, by simpa using heq⟩
    · obtain ⟨other', hmem, heq⟩ := ih h
      exact ⟨other', List.mem_cons_of_mem _ hmem, heq⟩

variable [Std.TransCmp cmp]

/-- Among entries with distinct keys every value is found under its key. -/
theorem lookup?_of_mem {key other : κ} {value : α} {entries : List (κ × α)}
    (hdistinct : entries.Pairwise fun a b => cmp a.1 b.1 ≠ .eq) (hmem : (other, value) ∈ entries)
    (heq : cmp key other = .eq) : lookup? cmp key entries = some value := by
  induction entries with
  | nil => cases hmem
  | cons entry rest ih =>
    obtain ⟨hfirst, hrest⟩ := List.pairwise_cons.1 hdistinct
    rcases List.mem_cons.1 hmem with rfl | hmem
    · simp [lookup?, heq]
    · have hne : cmp key entry.1 ≠ .eq := by
        rw [Ne, Std.TransCmp.congr_left heq, Std.OrientedCmp.eq_comm]
        exact hfirst _ hmem
      simp [lookup?, hne, ih hrest hmem]

/-- Keys that compare equal find the same. -/
theorem lookup?_congr {key other : κ} (h : cmp key other = .eq) (entries : List (κ × α)) :
    lookup? cmp key entries = lookup? cmp other entries := by
  induction entries with
  | nil => rfl
  | cons entry rest ih => simp only [lookup?, Std.TransCmp.congr_left h, ih]

/-- When distinct keys are all found among no more other keys, each of those is found among them. -/
theorem exists_mem_of_covered {keys others : List κ}
    (hdistinct : keys.Pairwise fun a b => cmp a b ≠ .eq) (hlength : others.length ≤ keys.length)
    (hcovered : ∀ a ∈ keys, ∃ b ∈ others, cmp a b = .eq) :
    ∀ b ∈ others, ∃ a ∈ keys, cmp a b = .eq := by
  induction keys generalizing others with
  | nil =>
    obtain rfl := List.length_eq_zero_iff.1 (Nat.le_zero.1 hlength)
    simp
  | cons a rest ih =>
    obtain ⟨hfirst, hrest⟩ := List.pairwise_cons.1 hdistinct
    obtain ⟨partner, hpartner, heq⟩ := hcovered a List.mem_cons_self
    -- the partner of the first key is taken out; no other key can have the same partner
    obtain ⟨before, after, rfl⟩ := List.append_of_mem hpartner
    have hothers : ∀ a' ∈ rest, ∃ b ∈ before ++ after, cmp a' b = .eq := by
      intro a' ha'
      obtain ⟨b, hb, heq'⟩ := hcovered a' (List.mem_cons_of_mem a ha')
      have hne : b ≠ partner := by
        rintro rfl
        refine hfirst a' ha' ?_
        rw [Std.TransCmp.congr_left heq, Std.OrientedCmp.eq_comm]
        exact heq'
      exact ⟨b, by simpa [hne] using hb, heq'⟩
    have hshorter : (before ++ after).length ≤ rest.length := by
      simp only [List.length_append, List.length_cons] at hlength ⊢
      omega
    intro b hb
    by_cases hb' : b = partner
    · exact ⟨a, List.mem_cons_self, hb' ▸ heq⟩
    · obtain ⟨a', ha', heq'⟩ := ih hrest hshorter hothers b (by simpa [hb'] using hb)
      exact ⟨a', List.mem_cons_of_mem a ha', heq'⟩

end Sorted

namespace Binary64

theorem sameNumber_refl (x : Binary64) : x.sameNumber x = true := by
  unfold sameNumber
  split <;> simp_all

theorem sameNumber_symm {x y : Binary64} (h : x.sameNumber y = true) : y.sameNumber x = true := by
  unfold sameNumber at h ⊢
  grind

/-- Being the same number is transitive, also where a NaN is the same as itself. -/
theorem sameNumber_trans {x y z : Binary64} (hxy : x.sameNumber y = true)
    (hyz : y.sameNumber z = true) : x.sameNumber z = true := by
  unfold sameNumber at hxy hyz ⊢
  grind

end Binary64

namespace Value

/-! ## Well-formed values -/

/-- Whether the keys of a map, or the elements of a set, are distinct. -/
def hasDistinctParts : Value → Bool
  | .map entries => decide (entries.Pairwise fun a b => (a.1 == b.1) = false)
  | .set items => decide (items.Pairwise fun a b => (a == b) = false)
  | _ => true

/-- Values in which every map has distinct keys and every set distinct elements, at every depth. -/
def isWellFormed (v : Value) : Bool :=
  v.everywhere hasDistinctParts

/-- The keys of a well-formed map are distinct. -/
theorem distinct_of_isWellFormed {entries : List (Value × Value)}
    (h : (Value.map entries).isWellFormed = true) :
    entries.Pairwise fun a b => cmp a.1 b.1 ≠ .eq := by
  obtain ⟨hdistinct, -⟩ := Bool.and_eq_true_iff.1 h
  refine (of_decide_eq_true hdistinct).imp ?_
  intro a b hab
  rw [Ne, cmp_eq_eq_iff, hab]
  decide

/-! ## The ways of being alike -/

/-- Whether a value is compared by kind-strict equality: no sequence, no map and no double. -/
def isPlain : Value → Bool
  | .map _ => false
  | .float _ => false
  | v => v.elements?.isNone

/-- How two values are alike. -/
inductive Alike (a b : Value) : Prop where
  | sequences {as bs : List Value} (ha : a.elements? = some as) (hb : b.elements? = some bs)
      (h : equivItems as bs = true)
  | maps {as bs : List (Value × Value)} (ha : a = .map as) (hb : b = .map bs)
      (hlength : as.length = bs.length)
      (h : ∀ entry ∈ as, ∃ w, lookup? entry.1 bs = some w ∧ equiv entry.2 w = true)
  | floats {x y : Binary64} (ha : a = .float x) (hb : b = .float y) (h : x.sameNumber y = true)
  | plain (ha : a.isPlain = true) (hb : b.isPlain = true) (h : (a == b) = true)

/-- A map is equal to another one when each of its keys finds an equal value there. -/
theorem equivEntries_iff {as bs : List (Value × Value)} :
    equivEntries as bs = true ↔
      ∀ entry ∈ as, ∃ w, lookup? entry.1 bs = some w ∧ equiv entry.2 w = true := by
  induction as with
  | nil => simp [equivEntries]
  | cons entry rest ih =>
    obtain ⟨k, v⟩ := entry
    rw [equivEntries, Bool.and_eq_true, ih, List.forall_mem_cons]
    cases lookup? k bs <;> simp

/-- A list, vector or set is equal to whatever has equal elements in the same order. -/
theorem equiv_of_elements {a : Value} {as : List Value} (ha : a.elements? = some as) (b : Value) :
    equiv a b = b.elements?.any (equivItems as) := by
  cases a <;> cases ha <;> rw [equiv]

/-- A plain value is equal to itself only. -/
theorem equiv_of_isPlain {a : Value} (ha : a.isPlain = true) (b : Value) :
    equiv a b = (b.elements?.isNone && a == b) := by
  cases a <;> simp only [isPlain, elements?, Bool.false_eq_true, Option.isNone_some] at ha <;> simp [equiv]

/-- What is no sequence is equivalent to values of its own kind only. -/
theorem equiv_of_rank_ne {a b : Value} (ha : a.elements? = none) (hrank : a.rank ≠ b.rank) :
    equiv a b = false := by
  have hbeq : (a == b) = false := beq_of_rank_ne hrank
  unfold equiv
  split
  · exact absurd rfl hrank
  · exact absurd rfl hrank
  · cases ha
  · cases ha
  · cases ha
  · rw [hbeq, Bool.and_false]

theorem rank_eq_of_beq {a b : Value} (h : (a == b) = true) : a.rank = b.rank := by
  apply Decidable.byContradiction
  intro hne
  have hfalse : (a == b) = false := beq_of_rank_ne hne
  rw [hfalse] at h
  exact Bool.false_ne_true h

/-- Whether a value is plain is told by its kind. -/
theorem isPlain_of_beq {a b : Value} (h : (a == b) = true) : a.isPlain = b.isPlain := by
  have hplain : ∀ v : Value, v.isPlain = !(List.contains [3, 8, 9, 10, 11] v.rank) := by
    intro v
    cases v <;> rfl
  rw [hplain a, hplain b, rank_eq_of_beq h]

/-- Values are equivalent when they are alike in one of the four ways. -/
theorem equiv_iff_alike (a b : Value) : equiv a b = true ↔ Alike a b := by
  constructor
  · intro h
    cases hplain : a.isPlain with
    | true =>
      rw [equiv_of_isPlain hplain, Bool.and_eq_true] at h
      exact .plain hplain (isPlain_of_beq h.2 ▸ hplain) h.2
    | false =>
      cases has : a.elements? with
      | some as =>
        rw [equiv_of_elements has] at h
        cases hbs : b.elements? with
        | some bs => exact .sequences has hbs (by simpa [hbs] using h)
        | none => simp [hbs] at h
      | none =>
        -- what is left are maps and doubles
        have hrank : a.rank = b.rank := by
          apply Decidable.byContradiction
          intro hne
          rw [equiv_of_rank_ne has hne] at h
          exact Bool.false_ne_true h
        cases a <;> cases b <;> simp only [isPlain, rank, elements?, reduceCtorEq, Nat.reduceEqDiff,
          Option.isNone_none, Bool.true_eq_false] at hrank hplain has
        · rw [equiv] at h
          exact .floats rfl rfl h
        · rw [equiv, Bool.and_eq_true] at h
          exact .maps rfl rfl (by simpa using h.1) (equivEntries_iff.1 h.2)
  · intro h
    cases h with
    | sequences ha hb h => simp [equiv_of_elements ha, hb, h]
    | maps ha hb hlength h => simp [ha, hb, equiv, hlength, equivEntries_iff.2 h]
    | floats ha hb h => simp [ha, hb, equiv, h]
    | plain ha hb h =>
      have hnone : b.elements?.isNone = true := by cases b <;> trivial
      rw [equiv_of_isPlain ha, hnone, h]
      rfl

/-! ## Kind-strict equality -/

theorem beq_self (a : Value) : (a == a) = true :=
  (cmp_eq_eq_iff a a).1 Std.ReflCmp.compare_self

theorem beq_symm {a b : Value} (h : (a == b) = true) : (b == a) = true := by
  rw [← cmp_eq_eq_iff, Std.OrientedCmp.eq_comm, cmp_eq_eq_iff]
  exact h

/-- Equality is transitive, as the order is. -/
theorem beq_trans {a b c : Value} (hab : (a == b) = true) (hbc : (b == c) = true) :
    (a == c) = true := by
  rw [← cmp_eq_eq_iff] at hab hbc ⊢
  exact Std.TransCmp.eq_trans hab hbc

/-- What equals a sequence is a sequence with equal elements. -/
theorem exists_elements_of_beq {a b : Value} {as : List Value} (ha : a.elements? = some as)
    (h : (a == b) = true) : ∃ bs, b.elements? = some bs ∧ beqItems as bs = true := by
  have hrank := rank_eq_of_beq h
  change beq a b = true at h
  cases a <;> cases ha <;> cases b <;> simp only [rank, Nat.reduceEqDiff] at hrank
  all_goals
    rw [beq] at h
    exact ⟨_, rfl, h⟩

/-- Equal entries have one length, and each has its counterpart. -/
theorem exists_mem_of_beqEntries {as bs : List (Value × Value)} (h : beqEntries as bs = true) :
    as.length = bs.length ∧
      ∀ entry ∈ as, ∃ other ∈ bs, (entry.1 == other.1) = true ∧ (entry.2 == other.2) = true := by
  induction as generalizing bs with
  | nil =>
    cases bs with
    | nil => simp
    | cons other others => simp [beqEntries] at h
  | cons entry rest ih =>
    cases bs with
    | nil => simp [beqEntries] at h
    | cons other others =>
      rw [beqEntries, Bool.and_eq_true, Bool.and_eq_true] at h
      obtain ⟨⟨hkey, hvalue⟩, hothers⟩ := h
      obtain ⟨hlength, hmatch⟩ := ih hothers
      refine ⟨by simp [hlength], List.forall_mem_cons.2 ⟨?_, ?_⟩⟩
      · exact ⟨other, List.mem_cons_self, hkey, hvalue⟩
      · intro entry' hentry'
        obtain ⟨other', hother', heq⟩ := hmatch entry' hentry'
        exact ⟨other', List.mem_cons_of_mem other hother', heq⟩

/-! ## The laws -/

/-- A comparison of sequences element by element holds when they have one length and the comparison of
elements holds in all places. -/
theorem rowwise_iff {r : Value → Value → Bool} {rs : List Value → List Value → Bool}
    (hnil : rs [] [] = true) (hleft : ∀ b bs, rs [] (b :: bs) = false)
    (hright : ∀ a as, rs (a :: as) [] = false)
    (hcons : ∀ a as b bs, rs (a :: as) (b :: bs) = (r a b && rs as bs)) {as bs : List Value} :
    rs as bs = true ↔ as.length = bs.length ∧
      ∀ (i : Nat) (a b : Value), as[i]? = some a → bs[i]? = some b → r a b = true := by
  induction as generalizing bs with
  | nil => cases bs <;> simp [hnil, hleft]
  | cons a as ih =>
    cases bs with
    | nil => simp [hright]
    | cons b bs =>
      rw [hcons, Bool.and_eq_true, ih]
      constructor
      · rintro ⟨hhead, hlength, htail⟩
        refine ⟨congrArg Nat.succ hlength, ?_⟩
        rintro (_ | i) x y hx hy
        · cases hx
          cases hy
          exact hhead
        · exact htail i x y hx hy
      · rintro ⟨hlength, hall⟩
        exact ⟨hall 0 a b rfl rfl, Nat.succ.inj hlength, fun i => hall (i + 1)⟩

/-- Rows are equal in the language when they have one length and equal elements at each place. -/
theorem equivItems_iff {as bs : List Value} :
    equivItems as bs = true ↔ as.length = bs.length ∧
      ∀ (i : Nat) (a b : Value), as[i]? = some a → bs[i]? = some b → equiv a b = true := by
  apply rowwise_iff <;> simp [equivItems]

theorem beqItems_iff {as bs : List Value} :
    beqItems as bs = true ↔ as.length = bs.length ∧
      ∀ (i : Nat) (a b : Value), as[i]? = some a → bs[i]? = some b → beq a b = true := by
  apply rowwise_iff <;> simp [beqItems]

/-- Equal values are equivalent. -/
theorem equiv_of_beq {a b : Value} (hb : b.isWellFormed = true) (h : (a == b) = true) :
    equiv a b = true := by
  induction a using parts_induction generalizing b with
  | step a hitems hentries =>
    rw [equiv_iff_alike]
    by_cases hplain : a.isPlain = true
    · exact .plain hplain (isPlain_of_beq h ▸ hplain) h
    · cases has : a.elements? with
      | some as =>
        obtain ⟨bs, hbs, hbeq⟩ := exists_elements_of_beq has h
        obtain ⟨hlength, hbeq⟩ := beqItems_iff.1 hbeq
        refine .sequences has hbs (equivItems_iff.2 ⟨hlength, ?_⟩)
        intro i x y hx hy
        have hwell := everywhere_of_mem_elements hb hbs y (List.mem_of_getElem? hy)
        exact hitems as has x (List.mem_of_getElem? hx) hwell (hbeq i x y hx hy)
      | none =>
        have hrank := rank_eq_of_beq h
        change beq a b = true at h
        cases a <;> cases b <;> simp only [isPlain, rank, elements?, reduceCtorEq, Nat.reduceEqDiff,
          Option.isNone_none, not_true] at hrank hplain has
        · next x y =>
          rw [beq, beq_iff_eq] at h
          obtain rfl : x = y := congrArg Binary64.mk h
          exact .floats rfl rfl x.sameNumber_refl
        · next as bs =>
          rw [beq] at h
          obtain ⟨hlength, hmatch⟩ := exists_mem_of_beqEntries h
          refine .maps rfl rfl hlength ?_
          intro entry hentry
          -- equal keys are one key, and a well-formed map has it once, so looking it up finds this entry
          obtain ⟨other, hother, hkey, hvalue⟩ := hmatch entry hentry
          refine ⟨other.2, ?_, ?_⟩
          · exact Sorted.lookup?_of_mem (distinct_of_isWellFormed hb) hother
              ((cmp_eq_eq_iff _ _).2 hkey)
          · exact (hentries as rfl entry hentry).2 (everywhere_of_mem_entries hb hother).2 hvalue

/-- Equivalence is symmetric. -/
theorem equiv_symm {a b : Value} (ha : a.isWellFormed = true) (hb : b.isWellFormed = true)
    (h : equiv a b = true) : equiv b a = true := by
  induction a using parts_induction generalizing b with
  | step a hitems hentries =>
    rw [equiv_iff_alike]
    cases (equiv_iff_alike a b).1 h with
    | @sequences as bs has hbs hitems' =>
      obtain ⟨hlength, hequiv⟩ := equivItems_iff.1 hitems'
      refine .sequences hbs has (equivItems_iff.2 ⟨hlength.symm, ?_⟩)
      intro i y x hy hx
      have hx' := List.mem_of_getElem? hx
      have hy' := List.mem_of_getElem? hy
      exact hitems as has x hx' (everywhere_of_mem_elements ha has x hx')
        (everywhere_of_mem_elements hb hbs y hy') (hequiv i x y hx hy)
    | @maps as bs has hbs hlength hfound =>
      subst has hbs
      refine .maps rfl rfl hlength.symm ?_
      -- every key on the left is found on the right, so by counting none on the right is left over
      have hcovered : ∀ k ∈ as.map Prod.fst, ∃ l ∈ bs.map Prod.fst, cmp k l = .eq := by
        intro k hk
        obtain ⟨entry, hentry, rfl⟩ := List.mem_map.1 hk
        obtain ⟨w, hlookup, -⟩ := hfound entry hentry
        obtain ⟨l, hl, heq⟩ := Sorted.exists_mem_of_lookup? hlookup
        exact ⟨l, List.mem_map_of_mem hl, heq⟩
      have hdistinct : (as.map Prod.fst).Pairwise fun k l => cmp k l ≠ .eq :=
        List.pairwise_map.2 (distinct_of_isWellFormed ha)
      intro other hother
      obtain ⟨k, hk, heq⟩ := Sorted.exists_mem_of_covered hdistinct (by simp [hlength]) hcovered
        other.1 (List.mem_map_of_mem hother)
      obtain ⟨entry, hentry, rfl⟩ := List.mem_map.1 hk
      obtain ⟨w, hlookup, hequiv⟩ := hfound entry hentry
      have hw : w = other.2 := by
        rw [lookup?, Sorted.lookup?_of_mem (distinct_of_isWellFormed hb) hother heq] at hlookup
        exact (Option.some.inj hlookup).symm
      refine ⟨entry.2, ?_, ?_⟩
      · exact Sorted.lookup?_of_mem (distinct_of_isWellFormed ha) hentry (Std.OrientedCmp.eq_symm heq)
      · exact (hentries as rfl entry hentry).2 (everywhere_of_mem_entries ha hentry).2
          (everywhere_of_mem_entries hb hother).2 (hw ▸ hequiv)
    | floats has hbs h => exact .floats hbs has (Binary64.sameNumber_symm h)
    | plain hap hbp h => exact .plain hbp hap (beq_symm h)

/-- Equivalence is transitive. -/
theorem equiv_trans {a b c : Value} (hab : equiv a b = true) (hbc : equiv b c = true) :
    equiv a c = true := by
  induction a using parts_induction generalizing b c with
  | step a hitems hentries =>
    rw [equiv_iff_alike]
    cases (equiv_iff_alike a b).1 hab with
    | @sequences as bs has hbs hab =>
      rw [equiv_of_elements hbs] at hbc
      cases hcs : c.elements? with
      | none => simp [hcs] at hbc
      | some cs =>
        rw [hcs, Option.any_some] at hbc
        obtain ⟨hlength, hab⟩ := equivItems_iff.1 hab
        obtain ⟨hlength', hbc⟩ := equivItems_iff.1 hbc
        refine .sequences has hcs (equivItems_iff.2 ⟨hlength.trans hlength', ?_⟩)
        intro i x z hx hz
        -- the sequence in the middle is as long, so it has an element in this place
        obtain ⟨hi, -⟩ := List.getElem?_eq_some_iff.1 hx
        have hy := List.getElem?_eq_getElem (hlength ▸ hi)
        exact hitems as has x (List.mem_of_getElem? hx) (hab i x _ hx hy) (hbc i _ z hy hz)
    | @maps as bs has hbs hlength hfound =>
      subst has hbs
      cases (equiv_iff_alike _ c).1 hbc with
      | @maps _ cs hbs hcs hlength' hfound' =>
        cases hbs
        refine .maps rfl hcs (hlength.trans hlength') ?_
        intro entry hentry
        obtain ⟨w, hlookup, hequiv⟩ := hfound entry hentry
        obtain ⟨l, hl, heq⟩ := Sorted.exists_mem_of_lookup? hlookup
        obtain ⟨u, hlookup', hequiv'⟩ := hfound' (l, w) hl
        refine ⟨u, ?_, (hentries as rfl entry hentry).2 hequiv hequiv'⟩
        rw [lookup?, Sorted.lookup?_congr heq]
        exact hlookup'
      | sequences hbs => cases hbs
      | floats hbs => cases hbs
      | plain hbs => cases hbs
    | floats has hbs hsame =>
      subst hbs
      cases (equiv_iff_alike _ c).1 hbc with
      | floats hbs hcs hsame' =>
        cases hbs
        exact .floats has hcs (Binary64.sameNumber_trans hsame hsame')
      | sequences hbs => cases hbs
      | maps hbs => cases hbs
      | plain hbs => cases hbs
    | plain hap hbp hab =>
      rw [equiv_of_isPlain hbp, Bool.and_eq_true] at hbc
      exact .plain hap (isPlain_of_beq hbc.2 ▸ hbp) (beq_trans hab hbc.2)

/-! ## The builtin -/

/-- A row in which each value is equivalent to the next one is equivalent to its first value throughout. -/
theorem allEquiv_cons_iff {a : Value} {rest : List Value}
    (h : ∀ v ∈ a :: rest, v.isWellFormed = true) :
    allEquiv (a :: rest) = true ↔ ∀ v ∈ rest, equiv a v = true := by
  induction rest generalizing a with
  | nil => simp [allEquiv]
  | cons b rest ih =>
    have hrest : ∀ v ∈ b :: rest, v.isWellFormed = true := fun v hv => h v (List.mem_cons_of_mem a hv)
    rw [allEquiv, Bool.and_eq_true, ih hrest, List.forall_mem_cons]
    constructor
    · rintro ⟨hab, hb⟩
      exact ⟨hab, fun v hv => equiv_trans hab (hb v hv)⟩
    · rintro ⟨hab, ha⟩
      have hba := equiv_symm (h a List.mem_cons_self) (hrest b List.mem_cons_self) hab
      exact ⟨hab, fun v hv => equiv_trans hba (ha v hv)⟩

/-- Comparing neighbours compares every two values of a row. -/
theorem allEquiv_iff {args : List Value} (h : ∀ v ∈ args, v.isWellFormed = true) :
    allEquiv args = true ↔ ∀ a ∈ args, ∀ b ∈ args, equiv a b = true := by
  cases args with
  | nil => simp [allEquiv]
  | cons first rest =>
    rw [allEquiv_cons_iff h]
    constructor
    · intro hfirst
      have hall : ∀ v ∈ first :: rest, equiv first v = true :=
        List.forall_mem_cons.2
          ⟨equiv_of_beq (h first List.mem_cons_self) (beq_self first), hfirst⟩
      intro a ha b hb
      exact equiv_trans (equiv_symm (h first List.mem_cons_self) (h a ha) (hall a ha)) (hall b hb)
    · intro hall v hv
      exact hall first List.mem_cons_self v (List.mem_cons_of_mem first hv)

/-- Language equality is an equivalence on well-formed values and coarser than kind-strict equality. The
builtin therefore holds exactly when every two of its arguments are equivalent, in whatever order they
come. -/
theorem equiv_equivalence {a b c : Value} {args : List Value} (ha : a.isWellFormed = true)
    (hb : b.isWellFormed = true) (hargs : ∀ v ∈ args, v.isWellFormed = true) :
    equiv a a = true ∧ equiv a b = equiv b a ∧
      (equiv a b = true → equiv b c = true → equiv a c = true) ∧
      ((a == b) = true → equiv a b = true) ∧
      (∃ answer, Builtin.equal.call args = .ok (.bool answer) ∧
        (answer = true ↔ ∀ x ∈ args, ∀ y ∈ args, equiv x y = true)) ∧
      (∀ others, others.Perm args → Builtin.equal.call others = Builtin.equal.call args) := by
  refine ⟨equiv_of_beq ha (beq_self a), ?_, equiv_trans, equiv_of_beq hb, ?_, ?_⟩
  · rw [Bool.eq_iff_iff]
    exact ⟨equiv_symm ha hb, equiv_symm hb ha⟩
  · exact ⟨allEquiv args, rfl, allEquiv_iff hargs⟩
  · intro others hperm
    have hothers : ∀ v ∈ others, v.isWellFormed = true := fun v hv => hargs v (hperm.mem_iff.1 hv)
    have hall : allEquiv others = allEquiv args := by
      rw [Bool.eq_iff_iff, allEquiv_iff hothers, allEquiv_iff hargs]
      simp only [hperm.mem_iff]
    show Except.ok (Value.bool (allEquiv others)) = .ok (.bool (allEquiv args))
    rw [hall]

/-- Maps that list their keys in opposite orders, with both zeros and two NaNs under the keys, a sequence of
each kind, and a closure. -/
theorem equiv_equivalence_mixed :
    let negative : Value := .float (Binary64.zero true)
    let positive : Value := .float (Binary64.zero false)
    let nan : UInt64 → Value := fun payload => .float ⟨0x7FF8000000000000 + payload⟩
    let closure : Value := .fn ⟨7, [], none, [], Bindings.empty⟩
    let a : Value := .map [(negative, .list [positive, closure]), (positive, nan 0)]
    let b : Value := .map [(positive, nan 1), (negative, .vector [negative, closure])]
    let c : Value := .map [(positive, nan 2), (negative, .set [negative, closure])]
    a.isWellFormed = true ∧ b.isWellFormed = true ∧ c.isWellFormed = true ∧ (a == b) = false ∧
      equiv a b = true ∧ equiv b a = true ∧ equiv a c = true ∧
      Builtin.equal.call [a, b, c] = .ok (.bool true) ∧
      Builtin.equal.call [c, a, b] = .ok (.bool true) := by
  intro negative positive nan closure a b c
  have ha : a.isWellFormed = true := by decide +kernel
  have hb : b.isWellFormed = true := by decide +kernel
  have hc : c.isWellFormed = true := by decide +kernel
  have hab : equiv a b = true := by decide +kernel
  have hbc : equiv b c = true := by decide +kernel
  have hargs : ∀ v ∈ [a, b, c], v.isWellFormed = true := by
    simp only [List.forall_mem_cons, ha, hb, hc, true_and]
    simp
  obtain ⟨-, hcomm, htrans, -, -, hperm⟩ := equiv_equivalence (c := c) ha hb hargs
  have hequal : Builtin.equal.call [a, b, c] = .ok (.bool true) := by
    simp [Builtin.call, allEquiv, hab, hbc]
  have hrotate : [c, a, b].Perm [a, b, c] := by
    exact (List.perm_append_comm : ([c] ++ [a, b]).Perm ([a, b] ++ [c]))
  refine ⟨ha, hb, hc, by decide +kernel, hab, hcomm ▸ hab, htrans hab hbc, hequal, ?_⟩
  rw [hperm _ hrotate, hequal]

end Value

end SmallLisp

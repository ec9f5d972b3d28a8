import Mathlib.Algebra.Order.Field.Basic
import Mathlib.Algebra.Order.Ring.Rat
import Mathlib.Order.Monotone.Basic
import Mathlib.Tactic.Linarith
import SmallLisp.Proofs.Binary64.Rounding

/-!
# The nearest number

A finite number has a rational value (`value`), and the numeric order is the order of values (`compare?_eq_compare`):
magnitudes grow with what they are worth (`magnitudeUnits_strictMono`). Rounding chooses between the two magnitudes
around an exact result (`roundUnits_neighbours`), so it gives the nearest number, and the even one of two that are
equally near (`nearest_ofInt`). Nearest numbers are in the order of what they are nearest to (`Nearest.value_le`).
-/

namespace SmallLisp.Binary64

/-! ## Magnitudes in order -/

/-- The gap between a magnitude and the next one is the unit of its binade. -/
theorem magnitudeUnits_succ (m : Nat) :
    magnitudeUnits (m + 1) = magnitudeUnits m + 2 ^ (m / fractionCount - 1) := by
  have hdivmod : m / fractionCount * fractionCount + m % fractionCount = m := Nat.div_add_mod' m _
  have hfraction : m % fractionCount < fractionCount := Nat.mod_lt m (by decide)
  obtain ⟨q, hlow, hhigh, hm⟩ : ∃ q, (m / fractionCount - 1 = 0 ∨ fractionCount ≤ q) ∧ q < 2 * fractionCount ∧
      m = q + (m / fractionCount - 1) * fractionCount := by
    cases hexponent : m / fractionCount with
    | zero => exact ⟨m % fractionCount, .inl rfl, by omega, by rw [hexponent] at hdivmod; omega⟩
    | succ k =>
      rw [hexponent, Nat.succ_mul] at hdivmod
      exact ⟨fractionCount + m % fractionCount, .inr (Nat.le_add_right _ _), by omega,
        by rw [Nat.add_sub_cancel]; omega⟩
  generalize m / fractionCount - 1 = k at hlow hm ⊢
  subst hm
  rw [Nat.add_right_comm, magnitudeUnits_shift (hlow.imp_right Nat.le_succ_of_le) hhigh,
    magnitudeUnits_shift hlow (Nat.le_of_lt hhigh), Nat.succ_mul]

/-- A greater magnitude is worth more. -/
theorem magnitudeUnits_strictMono : StrictMono magnitudeUnits := by
  refine strictMono_nat_of_lt_succ fun m => ?_
  rw [magnitudeUnits_succ]
  exact Nat.lt_add_of_pos_right (Nat.two_pow_pos _)

/-- Rounding gives one of the two magnitudes around the exact result: the one on its side of their middle, and in the
middle the even one. -/
theorem roundUnits_neighbours (n : Nat) :
    ∃ m, magnitudeUnits m ≤ n ∧ n < magnitudeUnits (m + 1) ∧
      (roundUnits n 1 = m ∧ 2 * n ≤ magnitudeUnits m + magnitudeUnits (m + 1) ∧
          (2 * n = magnitudeUnits m + magnitudeUnits (m + 1) → m % 2 = 0) ∨
        roundUnits n 1 = m + 1 ∧ magnitudeUnits m + magnitudeUnits (m + 1) ≤ 2 * n ∧
          (2 * n = magnitudeUnits m + magnitudeUnits (m + 1) → (m + 1) % 2 = 0)) := by
  have hround : roundUnits n 1 = nearestEven n (2 ^ (n.log2 - 52)) + (n.log2 - 52) * fractionCount := by
    simp only [roundUnits, Nat.div_one, Nat.one_mul, Nat.pow_eq]
  have hbinade : (n.log2 - 52 = 0 ∨ fractionCount ≤ n / 2 ^ (n.log2 - 52)) ∧
      n / 2 ^ (n.log2 - 52) < 2 * fractionCount := by
    have hpos : 0 < 2 ^ (n.log2 - 52) := Nat.two_pow_pos _
    by_cases hsmall : n < fractionCount
    · refine ⟨.inl (log2_sub_eq_zero hsmall), ?_⟩
      rw [log2_sub_eq_zero hsmall, Nat.pow_zero, Nat.div_one]
      omega
    · obtain ⟨hlow, hhigh⟩ := two_pow_le_and_lt (Nat.not_lt.1 hsmall)
      exact ⟨.inr ((Nat.le_div_iff_mul_le hpos).2 hlow), (Nat.div_lt_iff_lt_mul hpos).2 hhigh⟩
  rw [hround]
  generalize n.log2 - 52 = k at hbinade ⊢
  obtain ⟨hlow, hhigh⟩ := hbinade
  have hunits : magnitudeUnits (n / 2 ^ k + k * fractionCount) = n / 2 ^ k * 2 ^ k :=
    magnitudeUnits_shift hlow (Nat.le_of_lt hhigh)
  have hnext : magnitudeUnits (n / 2 ^ k + k * fractionCount + 1) = n / 2 ^ k * 2 ^ k + 2 ^ k := by
    rw [Nat.add_right_comm, magnitudeUnits_shift (hlow.imp_right Nat.le_succ_of_le) hhigh, Nat.succ_mul]
  have hdivmod : n / 2 ^ k * 2 ^ k + n % 2 ^ k = n := Nat.div_add_mod' n _
  have hremainder : n % 2 ^ k < 2 ^ k := Nat.mod_lt n (Nat.two_pow_pos k)
  -- the exponent does not change whether a magnitude is even
  have heven : ∀ q, (q + k * fractionCount) % 2 = q % 2 := by
    intro q
    rw [show fractionCount = 2 ^ 51 * 2 from rfl, ← Nat.mul_assoc, Nat.add_mul_mod_self_right]
  refine ⟨n / 2 ^ k + k * fractionCount, by omega, by omega, ?_⟩
  have hparity := heven (n / 2 ^ k)
  rw [hunits, hnext]
  simp only [nearestEven]
  split
  · exact .inl ⟨rfl, by omega, by omega⟩
  · split
    · exact .inr ⟨Nat.add_right_comm _ _ _, by omega, by omega⟩
    · split
      · exact .inl ⟨rfl, by omega, by omega⟩
      · exact .inr ⟨Nat.add_right_comm _ _ _, by omega, by omega⟩

/-- No magnitude is nearer to the exact result than the one that rounding gives. One that is as near is worth as much,
or rounding has chosen the even one. -/
theorem roundUnits_nearest (n m : Nat) :
    ((magnitudeUnits (roundUnits n 1) : Int) - n).natAbs ≤ ((magnitudeUnits m : Int) - n).natAbs ∧
      (((magnitudeUnits (roundUnits n 1) : Int) - n).natAbs = ((magnitudeUnits m : Int) - n).natAbs →
        magnitudeUnits (roundUnits n 1) = magnitudeUnits m ∨ roundUnits n 1 % 2 = 0) := by
  obtain ⟨lower, hlower, hupper, hchoice⟩ := roundUnits_neighbours n
  have houtside : magnitudeUnits m ≤ magnitudeUnits lower ∨ magnitudeUnits (lower + 1) ≤ magnitudeUnits m := by
    rcases Nat.lt_or_ge lower m with hlt | hle
    · exact .inr (magnitudeUnits_strictMono.monotone hlt)
    · exact .inl (magnitudeUnits_strictMono.monotone hle)
  rcases hchoice with ⟨hround, hmiddle, heven⟩ | ⟨hround, hmiddle, heven⟩
  · rw [hround]
    constructor <;> omega
  · rw [hround]
    constructor <;> omega

/-! ## Values -/

/-- The value of a finite number. -/
def value (x : Binary64) : ℚ :=
  x.scaled / unitsPerOne

theorem unitsPerOne_cast_pos : (0 : ℚ) < unitsPerOne :=
  Nat.cast_pos.2 unitsPerOne_pos

theorem value_lt_iff {x y : Binary64} : x.value < y.value ↔ x.scaled < y.scaled := by
  rw [value, value, div_lt_div_iff_of_pos_right unitsPerOne_cast_pos, Int.cast_lt]

theorem value_inj {x y : Binary64} : x.value = y.value ↔ x.scaled = y.scaled := by
  rw [value, value, div_left_inj' (ne_of_gt unitsPerOne_cast_pos), Int.cast_inj]

/-- How far a number is from an integer, counted in units. -/
theorem abs_value_sub (x : Binary64) (n : Int) :
    |x.value - n| = (x.scaled - n * unitsPerOne).natAbs / unitsPerOne := by
  have hunits : x.value - n = ((x.scaled - n * unitsPerOne : Int) : ℚ) / unitsPerOne := by
    rw [value, Int.cast_sub, Int.cast_mul, Int.cast_natCast, sub_div,
      mul_div_cancel_right₀ _ (ne_of_gt unitsPerOne_cast_pos)]
  rw [hunits, abs_div, abs_of_pos unitsPerOne_cast_pos, Nat.cast_natAbs, Int.cast_abs]

/-- The key that comparisons use is in the order of the values. -/
theorem numericKey_lt_iff {x y : Binary64} : x.numericKey < y.numericKey ↔ x.scaled < y.scaled := by
  have hlt := magnitudeUnits_strictMono.lt_iff_lt (a := x.magnitude) (b := y.magnitude)
  have hgt := magnitudeUnits_strictMono.lt_iff_lt (a := y.magnitude) (b := x.magnitude)
  have hx := magnitudeUnits_strictMono.lt_iff_lt (a := 0) (b := x.magnitude)
  have hy := magnitudeUnits_strictMono.lt_iff_lt (a := 0) (b := y.magnitude)
  rw [magnitudeUnits_zero] at hx hy
  simp only [numericKey, scaled, units]
  cases x.isNegative <;> cases y.isNegative <;> simp only [Bool.false_eq_true, if_true, if_false] <;> omega

theorem compare_eq_of_lt_iff {α β : Type} [LinearOrder α] [LinearOrder β] {a b : α} {p q : β}
    (hlt : a < b ↔ p < q) (hgt : b < a ↔ q < p) : compare a b = compare p q := by
  rcases lt_trichotomy a b with h | rfl | h
  · rw [compare_lt_iff_lt.2 h, compare_lt_iff_lt.2 (hlt.1 h)]
  · have hsame : p = q :=
      le_antisymm (not_lt.1 fun h => lt_irrefl a (hgt.2 h)) (not_lt.1 fun h => lt_irrefl a (hlt.2 h))
    rw [compare_eq_iff_eq.2 rfl, compare_eq_iff_eq.2 hsame]
  · rw [compare_gt_iff_gt.2 h, compare_gt_iff_gt.2 (hgt.1 h)]

theorem isNaN_of_isFinite {x : Binary64} (h : x.isFinite = true) : x.isNaN = false := by
  simp only [isFinite, isNaN, decide_eq_true_eq, decide_eq_false_iff_not] at h ⊢
  omega

/-- Finite numbers are ordered by their values. -/
theorem compare?_eq_compare {x y : Binary64} (hx : x.isFinite = true) (hy : y.isFinite = true) :
    x.compare? y = some (compare x.value y.value) := by
  rw [compare?, isNaN_of_isFinite hx, isNaN_of_isFinite hy]
  exact congrArg some (compare_eq_of_lt_iff (numericKey_lt_iff.trans value_lt_iff.symm)
    (numericKey_lt_iff.trans value_lt_iff.symm))

/-! ## Nearest numbers -/

/-- A finite number that no other one is nearer to a rational number. If another one is as near, its last bit is
zero. -/
structure Nearest (q : ℚ) (x : Binary64) : Prop where
  isFinite : x.isFinite = true
  nearest : ∀ y : Binary64, y.isFinite = true → |x.value - q| ≤ |y.value - q|
  even : ∀ y : Binary64, y.isFinite = true → |x.value - q| = |y.value - q| →
    x.value = y.value ∨ x.magnitude % 2 = 0

/-- The nearest double to the value of a finite double has this value. -/
theorem Nearest.value_eq {q : ℚ} {x y : Binary64} (h : Nearest q x) (hy : y.isFinite = true) (hq : y.value = q) :
    x.value = q := by
  have hle := h.nearest y hy
  rw [hq, sub_self, abs_zero] at hle
  exact sub_eq_zero.1 (abs_eq_zero.1 (le_antisymm hle (abs_nonneg _)))

/-- A finite number is nearest to its own value. -/
theorem nearest_value {x : Binary64} (hx : x.isFinite = true) : Nearest x.value x where
  isFinite := hx
  nearest y _ := by
    rw [sub_self, abs_zero]
    exact abs_nonneg _
  even y _ h := by
    rw [sub_self, abs_zero] at h
    exact .inl (sub_eq_zero.1 (abs_eq_zero.1 h.symm)).symm

/-- Of two different rational numbers the smaller one has the smaller nearest number, or the same. -/
theorem Nearest.value_le {p q : ℚ} {x y : Binary64} (hx : Nearest p x) (hy : Nearest q y) (h : p < q) :
    x.value ≤ y.value := by
  by_contra hlt
  -- if `y` came first, `p` would not be below the middle of the two, and `q` not above it
  have hp : x.value + y.value ≤ 2 * p := by
    have hfar := (le_abs_self _).trans (hx.nearest y hy.isFinite)
    rcases abs_cases (y.value - p) with ⟨habs, -⟩ | ⟨habs, -⟩ <;> linarith
  have hq : 2 * q ≤ x.value + y.value := by
    have hfar := (neg_le_abs _).trans (hy.nearest x hx.isFinite)
    rcases abs_cases (x.value - q) with ⟨habs, -⟩ | ⟨habs, -⟩ <;> linarith
  linarith

/-! ## Integers -/

theorem isNegative_ofSignMagnitude (negative : Bool) {m : Nat} (h : m < signWeight) :
    (ofSignMagnitude negative m).isNegative = negative := by
  have hlt : (if negative then signWeight else 0) + m < 2 ^ 64 := by
    simp only [signWeight] at h ⊢
    split <;> omega
  simp only [isNegative, ofSignMagnitude, UInt64.toNat_ofNat_of_lt' hlt]
  cases negative with
  | true => simp
  | false => simpa using h

theorem unitsPerOne_eq : unitsPerOne = 2 ^ 1074 := rfl

/-- Integers of 64 bits are far below the largest finite number. -/
theorem roundUnits_lt_infinityMagnitude {n : Nat} (h : n ≤ 2 ^ 63) :
    roundUnits (n * unitsPerOne) 1 < infinityMagnitude := by
  obtain ⟨m, hlower, -, hchoice⟩ := roundUnits_neighbours (n * unitsPerOne)
  have hlargest : magnitudeUnits (1086 * fractionCount) = 2 ^ 63 * unitsPerOne := by
    have hnormal := magnitudeUnits_normal 1085 (by decide : 0 < fractionCount)
    simp only [Nat.add_zero, fractionCount_eq] at hnormal
    rw [fractionCount_eq, hnormal, unitsPerOne_eq, ← Nat.pow_add, ← Nat.pow_add]
  have hm : m ≤ 1086 * fractionCount := by
    refine magnitudeUnits_strictMono.le_iff_le.1 (hlower.trans ?_)
    rw [hlargest]
    exact Nat.mul_le_mul_right _ h
  simp only [fractionCount] at hm
  simp only [infinityMagnitude]
  omega

/-- The magnitude of a converted integer is its own, rounded. -/
theorem magnitude_ofInt {n : Int} (h : n.natAbs ≤ 2 ^ 63) :
    (ofInt n).magnitude = roundUnits (n.natAbs * unitsPerOne) 1 := by
  have hlt := roundUnits_lt_infinityMagnitude h
  rw [ofInt, round, Nat.min_eq_left (Nat.le_of_lt hlt),
    magnitude_ofSignMagnitude _ (hlt.trans infinityMagnitude_lt)]

/-- A converted integer has the sign of the integer. -/
theorem isNegative_ofInt {n : Int} (h : n.natAbs ≤ 2 ^ 63) : (ofInt n).isNegative = decide (n < 0) := by
  have hlt := roundUnits_lt_infinityMagnitude h
  rw [ofInt, round, Nat.min_eq_left (Nat.le_of_lt hlt),
    isNegative_ofSignMagnitude _ (hlt.trans infinityMagnitude_lt)]

/-- An integer in units, by its sign. -/
theorem mul_unitsPerOne_eq (n : Int) :
    n * (unitsPerOne : Int) =
      if n < 0 then -((n.natAbs * unitsPerOne : Nat) : Int) else (n.natAbs * unitsPerOne : Nat) := by
  rw [Nat.cast_mul]
  split
  · rw [show (n.natAbs : Int) = -n by omega, neg_mul, neg_neg]
  · rw [show (n.natAbs : Int) = n by omega]

/-- A converted integer in units: the rounded magnitude with the sign. -/
theorem scaled_ofInt {n : Int} (h : n.natAbs ≤ 2 ^ 63) :
    (ofInt n).scaled =
      if n < 0 then -(magnitudeUnits (roundUnits (n.natAbs * unitsPerOne) 1) : Int)
      else magnitudeUnits (roundUnits (n.natAbs * unitsPerOne) 1) := by
  simp only [scaled, units, isNegative_ofInt h, magnitude_ofInt h, decide_eq_true_eq]

/-- In units, no number is nearer to an integer of 64 bits than its double. One that is as near is worth as much, or
the double is even. -/
theorem scaled_ofInt_nearest {n : Int} (h : n.natAbs ≤ 2 ^ 63) (y : Binary64) :
    ((ofInt n).scaled - n * unitsPerOne).natAbs ≤ (y.scaled - n * unitsPerOne).natAbs ∧
      (((ofInt n).scaled - n * unitsPerOne).natAbs = (y.scaled - n * unitsPerOne).natAbs →
        (ofInt n).scaled = y.scaled ∨ (ofInt n).magnitude % 2 = 0) := by
  obtain ⟨hnear, heven⟩ := roundUnits_nearest (n.natAbs * unitsPerOne) y.magnitude
  have hzero := (roundUnits_nearest (n.natAbs * unitsPerOne) 0).1
  have hmagnitude := magnitudeUnits_strictMono.lt_iff_lt (a := 0) (b := roundUnits (n.natAbs * unitsPerOne) 1)
  rw [mul_unitsPerOne_eq, scaled_ofInt h, magnitude_ofInt h]
  simp only [scaled, units]
  rw [magnitudeUnits_zero] at hzero hmagnitude
  -- a number of the other sign is further away than the one of the same magnitude
  generalize n.natAbs * unitsPerOne = exact at *
  generalize roundUnits exact 1 = rounded at *
  by_cases hn : n < 0
  · rw [if_pos hn, if_pos hn]
    cases y.isNegative <;> simp only [Bool.false_eq_true, if_true, if_false] <;> constructor <;> omega
  · rw [if_neg hn, if_neg hn]
    cases y.isNegative <;> simp only [Bool.false_eq_true, if_true, if_false] <;> constructor <;> omega

/-- An integer of 64 bits becomes the double nearest to it, and the even one of two. -/
theorem nearest_ofInt {n : Int} (h : n.natAbs ≤ 2 ^ 63) : Nearest n (ofInt n) := by
  refine ⟨?_, ?_, ?_⟩
  · rw [isFinite, magnitude_ofInt h]
    exact decide_eq_true (roundUnits_lt_infinityMagnitude h)
  · intro y _
    rw [abs_value_sub, abs_value_sub, div_le_div_iff_of_pos_right unitsPerOne_cast_pos, Nat.cast_le]
    exact (scaled_ofInt_nearest h y).1
  · intro y _ hsame
    rw [abs_value_sub, abs_value_sub, div_left_inj' (ne_of_gt unitsPerOne_cast_pos), Nat.cast_inj] at hsame
    exact ((scaled_ofInt_nearest h y).2 hsame).imp_left value_inj.2

/-- A magnitude is worth as much as any integer of up to 53 bits. -/
theorem exists_magnitudeUnits {n : Nat} (h : n ≤ 2 ^ 53) : ∃ m, magnitudeUnits m = n * unitsPerOne := by
  by_cases hsmall : n < fractionCount
  · by_cases hn : n = 0
    · exact ⟨0, by rw [hn, magnitudeUnits_zero, Nat.zero_mul]⟩
    · -- the integer is shifted until it has 53 bits
      have hlog : n.log2 < 52 := (Nat.log2_lt hn).2 (fractionCount_eq ▸ hsmall)
      have hlow : 2 ^ n.log2 * 2 ^ (52 - n.log2) = fractionCount := by
        rw [← Nat.pow_add, fractionCount_eq]
        congr 1
        omega
      have hge : fractionCount ≤ n * 2 ^ (52 - n.log2) := by
        rw [← hlow]
        exact Nat.mul_le_mul_right _ (Nat.log2_self_le hn)
      have hle : n * 2 ^ (52 - n.log2) ≤ 2 * fractionCount := by
        rw [← hlow, ← Nat.mul_assoc, ← Nat.pow_succ']
        exact Nat.mul_le_mul_right _ (Nat.le_of_lt Nat.lt_log2_self)
      refine ⟨_, (magnitudeUnits_shift (k := 1022 + n.log2) (.inr hge) hle).trans ?_⟩
      rw [unitsPerOne_eq, Nat.mul_assoc, ← Nat.pow_add]
      congr 2
      omega
  · have hle : n ≤ 2 * fractionCount := by
      rw [fractionCount_eq, ← Nat.pow_succ']
      exact h
    exact ⟨_, magnitudeUnits_shift (k := 1074) (.inr (Nat.not_lt.1 hsmall)) hle⟩

/-- An integer of up to 53 bits loses nothing. -/
theorem value_ofInt {n : Int} (h : n.natAbs ≤ 2 ^ 53) : (ofInt n).value = n := by
  obtain ⟨m, hm⟩ := exists_magnitudeUnits h
  have hscaled : (ofInt n).scaled = n * unitsPerOne := by
    rw [scaled_ofInt (h.trans (by decide)), mul_unitsPerOne_eq, ← hm, roundUnits_magnitudeUnits]
  rw [value, hscaled, Int.cast_mul, Int.cast_natCast, mul_div_cancel_right₀ _ (ne_of_gt unitsPerOne_cast_pos)]

end SmallLisp.Binary64

import Mathlib.Algebra.Group.Nat.Defs
import SmallLisp.Binary64.Rounding

/-!
# What rounding gives back

Rounding depends on the fraction and not on how it is written (`roundUnits_mul_right`), a number that needs
no rounding is its own result (`roundUnits_magnitudeUnits`), and a whole number of ones rounds to a whole
number of ones (`magnitudeUnits_roundUnits_mod`). Powers are written `2 ^ k` here and `Nat.pow 2 k` in the
definitions; `Nat.pow_eq` turns one into the other.
-/

namespace SmallLisp.Binary64

/-! ## Signs and magnitudes -/

/-- A number is its sign and its bits below the sign. -/
theorem ofSignMagnitude_self (x : Binary64) : ofSignMagnitude x.isNegative x.magnitude = x := by
  obtain ⟨bits⟩ := x
  have hbits : bits.toNat < 2 ^ 64 := bits.toNat_lt
  have hsum : (if isNegative ⟨bits⟩ then signWeight else 0) + magnitude ⟨bits⟩ = bits.toNat := by
    by_cases hneg : signWeight ≤ bits.toNat
    · simp only [isNegative, magnitude, hneg, decide_true, if_true]
      simp only [signWeight] at hneg ⊢
      omega
    · simp only [isNegative, magnitude, hneg, decide_false, Bool.false_eq_true, if_false]
      simp only [signWeight] at hneg ⊢
      omega
  rw [ofSignMagnitude, hsum, UInt64.ofNat_toNat]

theorem magnitude_ofSignMagnitude (negative : Bool) {m : Nat} (h : m < signWeight) :
    (ofSignMagnitude negative m).magnitude = m := by
  have hlt : (if negative then signWeight else 0) + m < 2 ^ 64 := by
    simp only [signWeight] at h ⊢
    split <;> omega
  simp only [magnitude, ofSignMagnitude, UInt64.toNat_ofNat_of_lt' hlt]
  simp only [signWeight] at h ⊢
  split <;> omega

theorem infinityMagnitude_lt : infinityMagnitude < signWeight := by decide

theorem unitsPerOne_pos : 0 < unitsPerOne := by decide +kernel

/-! ## Nearest integers -/

/-- A fraction that is an integer is its own nearest integer. -/
theorem nearestEven_mul_left (q : Nat) {d : Nat} (hd : 0 < d) : nearestEven (q * d) d = q := by
  simp only [nearestEven, Nat.mul_div_cancel q hd, Nat.mul_mod_left, Nat.mul_zero, hd, if_true]

/-- The nearest integer does not depend on how the fraction is written. -/
theorem nearestEven_mul_right (n d : Nat) {k : Nat} (hk : 0 < k) :
    nearestEven (n * k) (d * k) = nearestEven n d := by
  have hquotient : n * k / (d * k) = n / d := Nat.mul_div_mul_right n d hk
  have htwice : 2 * (n * k % (d * k)) = 2 * (n % d) * k := by
    rw [Nat.mul_mod_mul_right, Nat.mul_assoc]
  have hlt : 2 * (n % d) * k < d * k ↔ 2 * (n % d) < d := Nat.mul_lt_mul_right hk
  have hgt : d * k < 2 * (n % d) * k ↔ d < 2 * (n % d) := Nat.mul_lt_mul_right hk
  simp only [nearestEven, hquotient, htwice, hlt, hgt]

/-- Rounding to the nearest goes down to the quotient at most. -/
theorem le_nearestEven (n d : Nat) : n / d ≤ nearestEven n d := by
  simp only [nearestEven]
  split <;> try split <;> try split
  all_goals omega

/-- Rounding to the nearest goes up by one at most. -/
theorem nearestEven_le (n d : Nat) : nearestEven n d ≤ n / d + 1 := by
  simp only [nearestEven]
  split <;> try split <;> try split
  all_goals omega

/-- Less than half rounds to nothing. -/
theorem nearestEven_eq_zero {n d : Nat} (h : 2 * n < d) : nearestEven n d = 0 := by
  have hlt : n < d := by omega
  simp only [nearestEven, Nat.div_eq_of_lt hlt, Nat.mod_eq_of_lt hlt, h, if_true]

/-! ## Magnitudes -/

/-- A fraction may be expanded before it is rounded. -/
theorem roundUnits_mul_right (n d : Nat) {k : Nat} (hk : 0 < k) :
    roundUnits (n * k) (d * k) = roundUnits n d := by
  have hquotient : n * k / (d * k) = n / d := Nat.mul_div_mul_right n d hk
  simp only [roundUnits, hquotient]
  rw [Nat.mul_right_comm d k, nearestEven_mul_right n _ hk]

/-- Less than half a unit is rounded to zero. -/
theorem roundUnits_eq_zero {n d : Nat} (h : 2 * n < d) : roundUnits n d = 0 := by
  have hlt : n < d := by omega
  have hscale : 2 * n < d * Nat.pow 2 (Nat.log2 0 - 52) := by simpa using h
  simp only [roundUnits, Nat.div_eq_of_lt hlt, nearestEven_eq_zero hscale]
  simp

theorem fractionCount_eq : fractionCount = 2 ^ 52 := by decide

/-- The shift that brings a number of at least 53 bits down to 53 bits. -/
theorem two_pow_le_and_lt {n : Nat} (h : fractionCount ≤ n) :
    fractionCount * 2 ^ (n.log2 - 52) ≤ n ∧ n < 2 * fractionCount * 2 ^ (n.log2 - 52) := by
  have hn : n ≠ 0 := Nat.ne_of_gt (Nat.lt_of_lt_of_le (by decide) h)
  have hlog : 52 ≤ n.log2 := (Nat.le_log2 hn).2 (fractionCount_eq ▸ h)
  have hlow : 2 ^ n.log2 ≤ n := Nat.log2_self_le hn
  have hhigh : n < 2 ^ (n.log2 + 1) := Nat.lt_log2_self
  have hsplit : 2 ^ n.log2 = fractionCount * 2 ^ (n.log2 - 52) := by
    rw [fractionCount_eq, ← Nat.pow_add]
    congr 1
    omega
  rw [Nat.pow_succ, hsplit] at hhigh
  rw [hsplit] at hlow
  refine ⟨hlow, ?_⟩
  calc
    n < fractionCount * 2 ^ (n.log2 - 52) * 2 := hhigh
    _ = 2 * fractionCount * 2 ^ (n.log2 - 52) := by rw [Nat.mul_comm, Nat.mul_assoc]

theorem log2_sub_eq_zero {n : Nat} (h : n < fractionCount) : n.log2 - 52 = 0 := by
  by_cases hn : n = 0
  · subst hn
    rfl
  · have hlt : n.log2 < 52 := (Nat.log2_lt hn).2 (fractionCount_eq ▸ h)
    omega

/-- The shift is the only one that leaves 53 bits. -/
theorem log2_sub_eq {q : Nat} (k : Nat) (hlow : fractionCount ≤ q) (hhigh : q < 2 * fractionCount) :
    (q * 2 ^ k).log2 - 52 = k := by
  have hne : q * 2 ^ k ≠ 0 := by
    have hq : 0 < q := Nat.lt_of_lt_of_le (by decide) hlow
    exact Nat.ne_of_gt (Nat.mul_pos hq (Nat.two_pow_pos k))
  have hlog : (q * 2 ^ k).log2 = 52 + k := by
    rw [Nat.log2_eq_iff hne]
    constructor
    · rw [Nat.pow_add]
      exact Nat.mul_le_mul_right (2 ^ k) (fractionCount_eq ▸ hlow)
    · rw [Nat.add_right_comm, Nat.pow_add]
      refine Nat.mul_lt_mul_of_pos_right ?_ (Nat.two_pow_pos k)
      rw [Nat.pow_succ, ← fractionCount_eq]
      omega
  omega

/-- A magnitude is the rounding of its own value. -/
theorem roundUnits_magnitudeUnits (m : Nat) : roundUnits (magnitudeUnits m) 1 = m := by
  have hdivmod : m / fractionCount * fractionCount + m % fractionCount = m := Nat.div_add_mod' m _
  have hfraction : m % fractionCount < fractionCount := Nat.mod_lt m (by decide)
  simp only [roundUnits, magnitudeUnits, Nat.div_one, Nat.one_mul, Nat.pow_eq]
  by_cases hexponent : m / fractionCount = 0
  · -- below the normal range nothing is shifted
    rw [if_pos hexponent, log2_sub_eq_zero hfraction]
    have hnearest := nearestEven_mul_left (m % fractionCount) Nat.one_pos
    rw [Nat.mul_one] at hnearest
    rw [Nat.pow_zero, hnearest, Nat.zero_mul, Nat.add_zero]
    rw [hexponent, Nat.zero_mul, Nat.zero_add] at hdivmod
    exact hdivmod
  · rw [if_neg hexponent, log2_sub_eq _ (by omega) (by omega),
      nearestEven_mul_left _ (Nat.two_pow_pos _)]
    obtain ⟨k, hk⟩ := Nat.exists_eq_succ_of_ne_zero hexponent
    rw [hk] at hdivmod ⊢
    rw [Nat.succ_mul] at hdivmod
    rw [Nat.succ_sub_one]
    omega

theorem magnitudeUnits_zero : magnitudeUnits 0 = 0 := by decide

/-- The value of a magnitude in the normal range, by its exponent and fraction. -/
theorem magnitudeUnits_normal (k : Nat) {f : Nat} (hf : f < fractionCount) :
    magnitudeUnits ((k + 1) * fractionCount + f) = (fractionCount + f) * 2 ^ k := by
  have hdiv : ((k + 1) * fractionCount + f) / fractionCount = k + 1 := by
    rw [Nat.add_comm, Nat.add_mul_div_right _ _ (by decide), Nat.div_eq_of_lt hf, Nat.zero_add]
  have hmod : ((k + 1) * fractionCount + f) % fractionCount = f := by
    rw [Nat.add_comm, Nat.add_mul_mod_self_right, Nat.mod_eq_of_lt hf]
  simp only [magnitudeUnits, hdiv, hmod, Nat.pow_eq]
  rw [if_neg (Nat.succ_ne_zero k), Nat.add_sub_cancel]

/-- Below the normal range a magnitude is worth itself. -/
theorem magnitudeUnits_of_lt {m : Nat} (h : m < fractionCount) : magnitudeUnits m = m := by
  simp only [magnitudeUnits, Nat.div_eq_of_lt h, Nat.mod_eq_of_lt h, if_true]

/-- A shift adds to the exponent, also where the bits that are shifted carry into the next binade. -/
theorem magnitudeUnits_shift {q k : Nat} (hlow : k = 0 ∨ fractionCount ≤ q) (hhigh : q ≤ 2 * fractionCount) :
    magnitudeUnits (q + k * fractionCount) = q * 2 ^ k := by
  by_cases hsmall : q < fractionCount
  · obtain rfl : k = 0 := hlow.resolve_right (Nat.not_le.2 hsmall)
    rw [Nat.zero_mul, Nat.add_zero, magnitudeUnits_of_lt hsmall, Nat.pow_zero, Nat.mul_one]
  · by_cases hcarry : q = 2 * fractionCount
    · have hsum : q + k * fractionCount = (k + 1 + 1) * fractionCount + 0 := by
        rw [hcarry]
        simp only [Nat.add_mul, Nat.one_mul]
        omega
      rw [hsum, magnitudeUnits_normal (k + 1) (by decide), hcarry, Nat.pow_succ, Nat.add_zero,
        Nat.mul_comm 2 fractionCount, Nat.mul_assoc, Nat.mul_comm 2]
    · have hsum : q + k * fractionCount = (k + 1) * fractionCount + (q - fractionCount) := by
        rw [Nat.succ_mul]
        omega
      rw [hsum, magnitudeUnits_normal k (by omega), Nat.add_sub_cancel' (Nat.not_lt.1 hsmall)]

/-- Rounding a number of at least 53 bits keeps its shift: the result is worth the nearest integer times
the shift, also where rounding carries into the next binade. -/
theorem magnitudeUnits_roundUnits {n : Nat} (h : fractionCount ≤ n) :
    magnitudeUnits (roundUnits n 1) =
      nearestEven n (2 ^ (n.log2 - 52)) * 2 ^ (n.log2 - 52) := by
  obtain ⟨hlow, hhigh⟩ := two_pow_le_and_lt h
  have hpos : 0 < 2 ^ (n.log2 - 52) := Nat.two_pow_pos _
  have hquotient : fractionCount ≤ n / 2 ^ (n.log2 - 52) := (Nat.le_div_iff_mul_le hpos).2 hlow
  have hquotient' : n / 2 ^ (n.log2 - 52) < 2 * fractionCount := (Nat.div_lt_iff_lt_mul hpos).2 hhigh
  have hle := le_nearestEven n (2 ^ (n.log2 - 52))
  have hge := nearestEven_le n (2 ^ (n.log2 - 52))
  simp only [roundUnits, Nat.div_one, Nat.one_mul, Nat.pow_eq]
  exact magnitudeUnits_shift (.inr (by omega)) (by omega)

/-- A multiple of a power of two of at least 52 bits rounds to a multiple of it: where rounding drops bits,
either they are zeros or the bits it keeps are all worth that much. -/
theorem magnitudeUnits_roundUnits_mul_mod (n : Nat) {u : Nat} (hu : 52 ≤ u) :
    magnitudeUnits (roundUnits (n * 2 ^ u) 1) % 2 ^ u = 0 := by
  by_cases hn : n = 0
  · subst hn
    rw [Nat.zero_mul, roundUnits_eq_zero (by decide), magnitudeUnits_zero, Nat.zero_mod]
  · have hle : 2 ^ u ≤ n * 2 ^ u := Nat.le_mul_of_pos_left _ (Nat.pos_of_ne_zero hn)
    have hlarge : fractionCount ≤ n * 2 ^ u := by
      refine Nat.le_trans ?_ hle
      rw [fractionCount_eq]
      exact Nat.pow_le_pow_right (by decide) hu
    rw [magnitudeUnits_roundUnits hlarge]
    generalize (n * 2 ^ u).log2 - 52 = k
    -- either the spacing of the doubles is itself a multiple of the unit, or nothing is rounded
    rcases Nat.le_total u k with hshift | hshift
    · have hsplit : 2 ^ k = 2 ^ (k - u) * 2 ^ u := by
        rw [← Nat.pow_add]
        congr 1
        omega
      rw [hsplit, ← Nat.mul_assoc, Nat.mul_mod_left]
    · have hsplit : n * 2 ^ u = n * 2 ^ (u - k) * 2 ^ k := by
        rw [Nat.mul_assoc, ← Nat.pow_add]
        congr 2
        omega
      rw [hsplit, nearestEven_mul_left _ (Nat.two_pow_pos k), ← hsplit, Nat.mul_mod_left]

/-- A whole number of ones rounds to a whole number of ones. -/
theorem magnitudeUnits_roundUnits_mod (n : Nat) :
    magnitudeUnits (roundUnits (n * unitsPerOne) 1) % unitsPerOne = 0 := by
  unfold unitsPerOne
  exact magnitudeUnits_roundUnits_mul_mod n (u := 1074) (by decide)

end SmallLisp.Binary64

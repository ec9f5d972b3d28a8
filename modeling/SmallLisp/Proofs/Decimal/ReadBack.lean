import SmallLisp.Number
import SmallLisp.Decimal.FloatText
import SmallLisp.Proofs.Binary64.Rounding
import SmallLisp.Proofs.Text.Layout

/-!
# The text of a number reads back as the number

A decimal has one nearest magnitude, whatever its sign (`Decimal.nearest`), and moving a trailing zero of the
mantissa to the exponent does not change it (`nearest_trailing_zero`). The digits chosen for a double that is
not a whole number have a point among them and read back as the double (`nearest_shortest`,
`exponent_shortest_neg`). Main statements: the texts of integers (`ofNumeral?_integerText`) and of finite
doubles (`ofNumeral?_valueText`) are numerals of the same number.
-/

namespace SmallLisp

open Binary64 (ofSignMagnitude roundUnits unitsPerOne infinityMagnitude)

namespace Decimal

/-! ## The magnitude nearest to a decimal -/

/-- The magnitude of the double nearest to a decimal. -/
def nearest (d : Decimal) : Nat :=
  if d.mantissa = 0 then 0
  else if 400 < d.exponent then infinityMagnitude
  else if d.exponent < -((d.mantissa.log2 : Int) + 401) then 0
  else if 0 ≤ d.exponent then
    min (roundUnits (d.mantissa * Nat.pow 10 d.exponent.toNat * unitsPerOne) 1) infinityMagnitude
  else
    min (roundUnits (d.mantissa * unitsPerOne) (Nat.pow 10 (-d.exponent).toNat)) infinityMagnitude

/-- A decimal is read as the nearest magnitude with its sign. -/
theorem toBinary64_eq (negative : Bool) (d : Decimal) :
    d.toBinary64 negative = ofSignMagnitude negative d.nearest := by
  unfold toBinary64 nearest
  repeat' split
  all_goals rfl

theorem nearest_le (d : Decimal) : d.nearest ≤ infinityMagnitude := by
  unfold nearest
  repeat' split
  all_goals first | exact Nat.zero_le _ | exact Nat.le_refl _ | exact Nat.min_le_right _ _

/-- A decimal that reads as a positive double has its magnitude. -/
theorem nearest_eq_of_toBinary64 {d : Decimal} {m : Nat} (hm : m < infinityMagnitude)
    (h : d.toBinary64 false = ofSignMagnitude false m) : d.nearest = m := by
  have hd : d.nearest < Binary64.signWeight :=
    Nat.lt_of_le_of_lt d.nearest_le Binary64.infinityMagnitude_lt
  rw [toBinary64_eq] at h
  rw [← Binary64.magnitude_ofSignMagnitude false hd, h,
    Binary64.magnitude_ofSignMagnitude false (Nat.lt_trans hm Binary64.infinityMagnitude_lt)]

/-- A decimal without a fraction is nearest to a whole number, or out of range. -/
theorem nearest_whole {d : Decimal} (h : 0 ≤ d.exponent) (hfinite : d.nearest < infinityMagnitude) :
    Binary64.magnitudeUnits d.nearest % unitsPerOne = 0 := by
  unfold nearest at hfinite ⊢
  by_cases hzero : d.mantissa = 0
  · rw [if_pos hzero, Binary64.magnitudeUnits_zero, Nat.zero_mod]
  · rw [if_neg hzero] at hfinite ⊢
    by_cases hlarge : 400 < d.exponent
    · rw [if_pos hlarge] at hfinite
      exact absurd hfinite (Nat.lt_irrefl _)
    · have hsmall : ¬ d.exponent < -((d.mantissa.log2 : Int) + 401) := by omega
      rw [if_neg hlarge, if_neg hsmall, if_pos h] at hfinite ⊢
      rw [Nat.min_eq_left (by omega)]
      exact Binary64.magnitudeUnits_roundUnits_mod _

/-- Each bit of a number is worth less than a decimal place. -/
theorem two_mul_lt_pow {m u p k : Nat} (hu : 0 < u) (hp : 4 * u ≤ 10 ^ p) (hk : m.log2 + p ≤ k) :
    2 * (m * u) < 10 ^ k := by
  have hlog : m < 2 ^ (m.log2 + 1) := Nat.lt_log2_self
  calc
    2 * (m * u) < 2 * (2 ^ (m.log2 + 1) * u) :=
      Nat.mul_lt_mul_of_pos_left (Nat.mul_lt_mul_of_pos_right hlog hu) (by decide)
    _ = 2 ^ m.log2 * (4 * u) := by
      rw [Nat.pow_succ, Nat.mul_assoc, Nat.mul_left_comm, ← Nat.mul_assoc 2 2 u]
    _ ≤ 10 ^ m.log2 * 10 ^ p := Nat.mul_le_mul (Nat.pow_le_pow_left (by decide) _) hp
    _ = 10 ^ (m.log2 + p) := (Nat.pow_add _ _ _).symm
    _ ≤ 10 ^ k := Nat.pow_le_pow_right (by decide) hk

/-- Without a positive exponent the nearest magnitude is that of one fraction: what is answered without
computing agrees with it. -/
theorem nearest_of_nonpos (m : Nat) {e : Int} (he : e ≤ 0) :
    nearest ⟨m, e⟩ =
      min (roundUnits (m * unitsPerOne) (Nat.pow 10 (-e).toNat)) infinityMagnitude := by
  by_cases hzero : m = 0
  · have hround : roundUnits (m * unitsPerOne) (Nat.pow 10 (-e).toNat) = 0 := by
      apply Binary64.roundUnits_eq_zero
      rw [hzero, Nat.zero_mul, Nat.mul_zero]
      exact Nat.pow_pos (by decide)
    rw [nearest, if_pos hzero, hround, Nat.zero_min]
  · have hlarge : ¬ 400 < e := by omega
    rw [nearest, if_neg hzero, if_neg hlarge]
    by_cases hsmall : e < -((m.log2 : Int) + 401)
    · -- Too small to compute: the fraction is below half a unit, since 4 · 2^1074 ≤ 10^402.
      have hround : roundUnits (m * unitsPerOne) (Nat.pow 10 (-e).toNat) = 0 := by
        apply Binary64.roundUnits_eq_zero
        refine two_mul_lt_pow Binary64.unitsPerOne_pos (p := 402) (by decide +kernel) ?_
        omega
      rw [if_pos hsmall, hround, Nat.zero_min]
    · rw [if_neg hsmall]
      by_cases hexponent : 0 ≤ e
      · obtain rfl : e = 0 := by omega
        have hone : Nat.pow 10 (0 : Int).toNat = 1 := rfl
        have hone' : Nat.pow 10 (-(0 : Int)).toNat = 1 := rfl
        rw [if_pos hexponent, hone, hone', Nat.mul_one]
      · rw [if_neg hexponent]

/-- A trailing zero of the mantissa may be moved to a negative exponent. -/
theorem nearest_trailing_zero (m : Nat) {e : Int} (he : e < 0) :
    nearest ⟨m * 10, e⟩ = nearest ⟨m, e + 1⟩ := by
  have hplaces : (-e).toNat = (-(e + 1)).toNat + 1 := by omega
  have hpow : Nat.pow 10 (-e).toNat = Nat.pow 10 (-(e + 1)).toNat * 10 := by
    rw [hplaces]
    exact Nat.pow_succ 10 _
  rw [nearest_of_nonpos _ (by omega), nearest_of_nonpos m (by omega), hpow,
    Nat.mul_right_comm, Binary64.roundUnits_mul_right _ _ (by decide)]

/-! ## The digits of a double that is not a whole number -/

/-- A neighbour is taken only if it is read back as the magnitude. -/
theorem nearest_of_neighbour? {m : Nat} {e : Int} {d : Decimal} (hm : m < infinityMagnitude)
    (h : neighbour? m e = some d) : d.nearest = m := by
  apply nearest_eq_of_toBinary64 hm
  unfold neighbour? at h
  dsimp only at h
  split at h
  · next hbelow =>
    cases h
    exact eq_of_beq (Bool.and_eq_true_iff.1 hbelow).1
  · split at h
    · next habove =>
      cases h
      exact eq_of_beq habove
    · cases h

/-- What the search finds is read back, whatever number of digits it ends with. -/
theorem nearest_of_search {m tries digits : Nat} {decade : Int} {d : Decimal}
    (hm : m < infinityMagnitude) (h : search m decade tries digits = some d) : d.nearest = m := by
  induction tries generalizing digits with
  | zero => cases h
  | succ tries ih =>
    simp only [search] at h
    split at h
    · next found hfound =>
      cases h
      exact nearest_of_neighbour? hm hfound
    · exact ih h

/-- The exact value reads back. -/
theorem nearest_exact {m : Nat} (hm : m < infinityMagnitude) : (exact m).nearest = m := by
  have hten : Nat.pow 10 (-(-1074 : Int)).toNat = 1 * (Nat.pow 5 1074 * unitsPerOne) := by
    decide +kernel
  have hpos : 0 < Nat.pow 5 1074 * unitsPerOne :=
    Nat.mul_pos (by decide +kernel) Binary64.unitsPerOne_pos
  rw [exact, nearest_of_nonpos _ (by decide), hten, Nat.mul_assoc,
    Binary64.roundUnits_mul_right _ _ hpos, Binary64.roundUnits_magnitudeUnits]
  exact Nat.min_eq_left (Nat.le_of_lt hm)

/-- A decimal nearest to a number with a fraction has places behind the point. -/
theorem exponent_neg_of_nearest {d : Decimal} (hfinite : d.nearest < infinityMagnitude)
    (hfraction : Binary64.magnitudeUnits d.nearest % unitsPerOne ≠ 0) : d.exponent < 0 := by
  by_cases hnonneg : 0 ≤ d.exponent
  · exact absurd (nearest_whole hnonneg hfinite) hfraction
  · omega

/-- Trimming zeros keeps what the decimal reads as; with a fraction it never gets to the point. -/
theorem nearest_trim (bound : Nat) {d : Decimal} (hfinite : d.nearest < infinityMagnitude)
    (hfraction : Binary64.magnitudeUnits d.nearest % unitsPerOne ≠ 0) :
    (trim bound d).nearest = d.nearest := by
  induction bound generalizing d with
  | zero => rfl
  | succ bound ih =>
    rw [trim]
    split
    · next hzero =>
      -- a fraction has a negative exponent, which a digit that is dropped raises by one
      have hneg := exponent_neg_of_nearest hfinite hfraction
      have hmod : d.mantissa % 10 = 0 := of_decide_eq_true (Bool.and_eq_true_iff.1 hzero).1
      have hmove : d.nearest = nearest ⟨d.mantissa / 10, d.exponent + 1⟩ := by
        rw [← nearest_trailing_zero _ hneg, Nat.div_mul_cancel (Nat.dvd_of_mod_eq_zero hmod)]
      rw [hmove] at hfinite hfraction ⊢
      exact ih hfinite hfraction
    · rfl

/-- The shortest decimal of a magnitude with a fraction is read back as this magnitude. -/
theorem nearest_shortest {m : Nat} (hm : m < infinityMagnitude)
    (hfraction : Binary64.magnitudeUnits m % unitsPerOne ≠ 0) : (shortest m).nearest = m := by
  unfold shortest
  generalize hfound : search m (decade (Binary64.magnitudeUnits m)) 17 1 = found
  cases found with
  | some d =>
    have hnearest := nearest_of_search hm hfound
    rw [← hnearest] at hm hfraction
    exact (nearest_trim 17 hm hfraction).trans hnearest
  | none => exact nearest_exact hm

/-- The shortest decimal of a magnitude with a fraction has digits behind the point. -/
theorem exponent_shortest_neg {m : Nat} (hm : m < infinityMagnitude)
    (hfraction : Binary64.magnitudeUnits m % unitsPerOne ≠ 0) : (shortest m).exponent < 0 := by
  have hnearest := nearest_shortest hm hfraction
  rw [← hnearest] at hm hfraction
  exact exponent_neg_of_nearest hm hfraction

end Decimal

/-! ## Numerals -/

namespace Numeral

open Text (isDigit)

/-- The sign that a numeral may start with. -/
def signChars (negative : Bool) : List Char :=
  if negative then ['-'] else []

theorem isDigit_eq (c : Char) : isDigit c = c.isDigit := by
  simp only [isDigit, Char.isDigit, ge_iff_le, Char.le_def]

theorem isDigit_of_mem_digits {n : Nat} {c : Char} (h : c ∈ Decimal.digits n) : isDigit c = true := by
  rw [isDigit_eq]
  exact Nat.isDigit_of_mem_toDigits (by decide) (by decide) h

theorem digitsValue_digits (n : Nat) : digitsValue (Decimal.digits n) = n :=
  Nat.ofDigitChars_ten_toDigits

/-- Zeros in front do not count. -/
theorem digitsValue_zeros (k : Nat) (ds : List Char) :
    digitsValue (List.replicate k '0' ++ ds) = digitsValue ds := by
  have hzeros : digitsValue (List.replicate k '0') = 0 := by
    have hreplicate : Nat.ofDigitChars 10 (List.replicate k '0') 0 = 10 ^ k * 0 :=
      Nat.ofDigitChars_replicate_zero
    exact hreplicate
  unfold digitsValue at hzeros ⊢
  rw [List.foldl_append, hzeros]

/-- A zero behind makes ten times as much. -/
theorem digitsValue_concat_zero (ds : List Char) : digitsValue (ds ++ ['0']) = digitsValue ds * 10 := by
  simp only [digitsValue, List.foldl_append, List.foldl_cons, List.foldl_nil]
  exact Nat.mul_comm 10 _

/-- Digits are taken up to the first character that is none. -/
theorem splitDigits_append {ds rest : List Char} (hds : ∀ c ∈ ds, isDigit c = true)
    (hrest : ∀ c ∈ rest.head?, isDigit c = false) : splitDigits (ds ++ rest) = (ds, rest) := by
  obtain ⟨hfront, hback⟩ := Text.cut_append hds hrest
  rw [splitDigits, hfront, hback]

/-- A sign is taken off, and nothing is if a digit comes first. -/
theorem splitSign_append (negative : Bool) {body : List Char}
    (hbody : ∀ c ∈ body.head?, isDigit c = true) :
    splitSign (signChars negative ++ body) = (negative, body) := by
  cases negative with
  | true => rfl
  | false =>
    cases body with
    | nil => rfl
    | cons c others =>
      have hc : isDigit c = true := hbody c rfl
      have hminus : c ≠ '-' := by
        rintro rfl
        exact absurd hc (by decide)
      have hplus : c ≠ '+' := by
        rintro rfl
        exact absurd hc (by decide)
      simp [signChars, splitSign, hminus, hplus]

/-- A row of digits with a sign is an integer numeral. -/
theorem integer?_signed (negative : Bool) {ds : List Char} (hne : ds ≠ [])
    (hds : ∀ c ∈ ds, isDigit c = true) :
    integer? (signChars negative ++ ds) = some (signed negative (digitsValue ds)) := by
  have hhead : ∀ c ∈ ds.head?, isDigit c = true := fun c hc => hds c (List.mem_of_mem_head? hc)
  have hall : ds.all isDigit = true := List.all_eq_true.2 hds
  rw [integer?, splitSign_append negative hhead]
  simp [hne, hall]

section Point

variable {whole fraction : List Char}

theorem head_point (hne : whole ≠ []) (hwhole : ∀ c ∈ whole, isDigit c = true) :
    ∀ c ∈ (whole ++ '.' :: fraction).head?, isDigit c = true := by
  intro c hc
  obtain ⟨first, others, rfl⟩ := List.exists_cons_of_ne_nil hne
  cases hc
  exact hwhole _ List.mem_cons_self

/-- A point makes a numeral no integer. -/
theorem integer?_point (negative : Bool) (hne : whole ≠ [])
    (hwhole : ∀ c ∈ whole, isDigit c = true) :
    integer? (signChars negative ++ (whole ++ '.' :: fraction)) = none := by
  have hpoint : isDigit '.' = false := by decide
  have hall : (whole ++ '.' :: fraction).all isDigit = false := by simp [hpoint]
  rw [integer?, splitSign_append negative (head_point hne hwhole)]
  simp only [hall, Bool.and_false, Bool.false_eq_true, if_false]

/-- Digits with a point among them are a decimal numeral with as many places as digits behind the
point. -/
theorem decimal?_point (negative : Bool) (hne : whole ≠ [])
    (hwhole : ∀ c ∈ whole, isDigit c = true) (hfraction : ∀ c ∈ fraction, isDigit c = true) :
    decimal? (signChars negative ++ (whole ++ '.' :: fraction)) =
      some (negative, ⟨digitsValue (whole ++ fraction), -(fraction.length : Int)⟩) := by
  have hsplit : splitDigits (whole ++ '.' :: fraction) = (whole, '.' :: fraction) :=
    splitDigits_append hwhole (by simp; decide)
  have hsplit' : splitDigits fraction = (fraction, []) := by
    have happend : splitDigits (fraction ++ []) = (fraction, []) :=
      splitDigits_append hfraction (by simp)
    rwa [List.append_nil] at happend
  rw [decimal?, splitSign_append negative (head_point hne hwhole)]
  simp [hsplit, splitFraction, hsplit', exponent?, hne]

end Point

end Numeral

namespace Decimal

open Numeral (signChars digitsValue)

/-! ## Written numbers are numerals -/

theorem digits_ne_nil (n : Nat) : digits n ≠ [] :=
  Nat.toDigits_ne_nil

/-- With places behind the point the written form is digits, the point and as many digits as there
are places. -/
theorem positional_of_neg {d : Decimal} (h : d.exponent < 0) :
    ∃ whole fraction : List Char,
      d.positional = whole ++ '.' :: fraction ∧ whole ≠ [] ∧
        (∀ c ∈ whole, Text.isDigit c = true) ∧ (∀ c ∈ fraction, Text.isDigit c = true) ∧
          (⟨digitsValue (whole ++ fraction), -(fraction.length : Int)⟩ : Decimal) = d := by
  have hplaces : (-d.exponent).toNat = -d.exponent := by omega
  have hdigits : ∀ c ∈ digits d.mantissa, Text.isDigit c = true :=
    fun c hc => Numeral.isDigit_of_mem_digits hc
  unfold positional
  rw [if_neg (by omega)]
  dsimp only
  generalize (-d.exponent).toNat = places at hplaces
  split
  · -- The point stands among the digits.
    next hlt =>
    refine ⟨_, _, rfl, ?_, ?_, ?_, ?_⟩
    · intro hnil
      rcases List.take_eq_nil_iff.1 hnil with hnone | hnone
      · omega
      · exact digits_ne_nil _ hnone
    · exact fun c hc => hdigits c (List.mem_of_mem_take hc)
    · exact fun c hc => hdigits c (List.mem_of_mem_drop hc)
    · have hlength : (((digits d.mantissa).drop ((digits d.mantissa).length - places)).length : Int) =
          places := by
        rw [List.length_drop]
        omega
      rw [List.take_append_drop, Numeral.digitsValue_digits, hlength, hplaces, Int.neg_neg]
  · -- All digits stand behind the point, and zeros fill the places before them.
    next hge =>
    have hzero : Text.isDigit '0' = true := by decide
    refine ⟨['0'], List.replicate (places - (digits d.mantissa).length) '0' ++ digits d.mantissa,
      rfl, List.cons_ne_nil _ _, ?_, ?_, ?_⟩
    · intro c hc
      rw [List.mem_singleton.1 hc]
      exact hzero
    · intro c hc
      rcases List.mem_append.1 hc with hc | hc
      · rw [List.eq_of_mem_replicate hc]
        exact hzero
      · exact hdigits c hc
    · have hlength : ((List.replicate (places - (digits d.mantissa).length) '0' ++
          digits d.mantissa).length : Int) = places := by
        rw [List.length_append, List.length_replicate]
        omega
      have hvalue := Numeral.digitsValue_zeros 1
        (List.replicate (places - (digits d.mantissa).length) '0' ++ digits d.mantissa)
      rw [hlength, hplaces, Int.neg_neg, ← List.replicate_one, hvalue, Numeral.digitsValue_zeros,
        Numeral.digitsValue_digits]

end Decimal

/-- An integer is written as its sign and the digits of its magnitude. -/
theorem integerText_eq (n : Int) :
    integerText n = Numeral.signChars (decide (n < 0)) ++ Decimal.digits n.natAbs := by
  by_cases hneg : n < 0 <;> simp [integerText, Numeral.signChars, hneg]

theorem Number.fit?_toInt (n : Int64) : Number.fit? n.toInt = some n := by
  have hlower : -9223372036854775808 ≤ n.toInt := n.le_toInt
  have hupper : n.toInt < 9223372036854775808 := n.toInt_lt
  rw [Number.fit?, if_pos (by omega), Int64.ofInt_toInt]

/-- A double is the number of a numeral only if it is finite. -/
theorem Number.isFinite_of_ofNumeral? {text : List Char} {x : Binary64}
    (h : Number.ofNumeral? text = some (.float x)) : x.isFinite = true := by
  unfold Number.ofNumeral? at h
  split at h
  · cases h
  · split at h
    · dsimp only at h
      split at h
      · next hfinite =>
        cases h
        exact hfinite
      · cases h
    · cases h

/-- The text of an integer is its numeral. -/
theorem Number.ofNumeral?_integerText (n : Int64) :
    Number.ofNumeral? (integerText n.toInt) = some (.int n) := by
  have hinteger : Numeral.integer? (integerText n.toInt) = some n.toInt := by
    rw [integerText_eq, Numeral.integer?_signed _ (Decimal.digits_ne_nil _)
      (fun c hc => Numeral.isDigit_of_mem_digits hc), Numeral.digitsValue_digits]
    by_cases hneg : n.toInt < 0
    · simp only [Numeral.signed, hneg, decide_true, if_true]
      congr 1
      omega
    · simp only [Numeral.signed, hneg, decide_false, Bool.false_eq_true, if_false]
      congr 1
      omega
  rw [Number.ofNumeral?, hinteger, Option.bind_some, Number.fit?_toInt]

namespace Binary64

open Numeral (signChars digitsValue)

/-- Digits with a point that stand for a finite double are its numeral. -/
theorem ofNumeral?_point {x : Binary64} (hx : x.isFinite = true) {whole fraction : List Char}
    (hne : whole ≠ []) (hwhole : ∀ c ∈ whole, Text.isDigit c = true)
    (hfraction : ∀ c ∈ fraction, Text.isDigit c = true)
    (hnearest : Decimal.nearest ⟨digitsValue (whole ++ fraction), -(fraction.length : Int)⟩ =
      x.magnitude) :
    Number.ofNumeral? (signChars x.isNegative ++ (whole ++ '.' :: fraction)) = some (.float x) := by
  rw [Number.ofNumeral?, Numeral.integer?_point _ hne hwhole,
    Numeral.decimal?_point _ hne hwhole hfraction]
  simp only [Option.bind_none, Decimal.toBinary64_eq, hnearest, ofSignMagnitude_self, hx, if_true]

/-- The form of the text of a finite double, and what its digits stand for. -/
theorem valueText_eq {x : Binary64} (hx : x.isFinite = true) :
    ∃ whole fraction : List Char,
      x.valueText = signChars x.isNegative ++ (whole ++ '.' :: fraction) ∧ whole ≠ [] ∧
        (∀ c ∈ whole, Text.isDigit c = true) ∧ (∀ c ∈ fraction, Text.isDigit c = true) ∧
          Decimal.nearest ⟨digitsValue (whole ++ fraction), -(fraction.length : Int)⟩ =
            x.magnitude := by
  have hm : x.magnitude < infinityMagnitude := of_decide_eq_true hx
  by_cases hwhole : x.units % unitsPerOne = 0
  · -- A whole number of ones: all its digits and one zero behind the point.
    refine ⟨Decimal.digits (x.units / unitsPerOne), ['0'], ?_, Decimal.digits_ne_nil _,
      fun c hc => Numeral.isDigit_of_mem_digits hc, ?_, ?_⟩
    · simp [valueText, isIntegral, hx, hwhole, signText, signChars]
    · intro c hc
      rw [List.mem_singleton.1 hc]
      decide
    · rw [Numeral.digitsValue_concat_zero, Numeral.digitsValue_digits]
      show Decimal.nearest ⟨x.units / unitsPerOne * 10, -1⟩ = x.magnitude
      rw [Decimal.nearest_trailing_zero _ (by decide), Decimal.nearest_of_nonpos _ (by decide),
        Nat.div_mul_cancel (Nat.dvd_of_mod_eq_zero hwhole)]
      show min (roundUnits (magnitudeUnits x.magnitude) 1) infinityMagnitude = x.magnitude
      rw [roundUnits_magnitudeUnits]
      exact Nat.min_eq_left (Nat.le_of_lt hm)
  · -- With a fraction: the shortest digits, which have places behind the point.
    have hzero : x.magnitude ≠ 0 := by
      intro hzero
      apply hwhole
      rw [units, hzero, magnitudeUnits_zero, Nat.zero_mod]
    obtain ⟨whole, fraction, htext, hne, hdigits, hdigits', hvalue⟩ :=
      Decimal.positional_of_neg (Decimal.exponent_shortest_neg hm hwhole)
    refine ⟨whole, fraction, ?_, hne, hdigits, hdigits', ?_⟩
    · have hnan : x.isNaN = false := decide_eq_false (by omega)
      have hinf : x.isInfinite = false := beq_false_of_ne (by omega)
      have hzero' : x.isZero = false := beq_false_of_ne hzero
      have hintegral : x.isIntegral = false := by
        rw [isIntegral, hx, Bool.true_and]
        exact beq_false_of_ne hwhole
      rw [valueText, hintegral, plainText, hnan, hinf, hzero', ← htext]
      rfl
    · rw [hvalue]
      exact Decimal.nearest_shortest hm hwhole

/-- The text of a finite double is its numeral: reading it gives the same bits. -/
theorem ofNumeral?_valueText {x : Binary64} (hx : x.isFinite = true) :
    Number.ofNumeral? x.valueText = some (.float x) := by
  obtain ⟨whole, fraction, htext, hne, hwhole, hfraction, hnearest⟩ := valueText_eq hx
  rw [htext]
  exact ofNumeral?_point hx hne hwhole hfraction hnearest

end Binary64

end SmallLisp

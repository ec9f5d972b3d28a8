import SmallLisp.Decimal.Basic

/-!
# The shortest decimal of a double

Among the decimals that read back as a given double, the one with the fewest digits is chosen, and of
two with equally many digits the nearer one; a tie goes up. For each number of digits only the two
neighbours of the double on that decimal grid need a test. Seventeen digits always suffice; the exact
expansion closes the search without an appeal to that fact, so the result reads back in any case.
-/

namespace SmallLisp.Decimal

/-- The number of decimal digits of a natural number; zero has none. The first argument bounds the
search. -/
def countDigits : Nat → Nat → Nat
  | 0, _ => 0
  | _, 0 => 0
  | bound + 1, n => countDigits bound (n / 10) + 1

/-- The exponent `k` with `10 ^ (k - 1) ≤ x < 10 ^ k` for a positive double of the given units. Every
such double has a digit before the 340th decimal place. -/
def decade (units : Nat) : Int :=
  let shifted := units * Nat.pow 10 340 / Binary64.unitsPerOne
  (countDigits (shifted.log2 + 1) shifted : Int) - 340

/-- The fraction `units / unitsPerOne / 10 ^ exponent`, as a numerator and a denominator. -/
def gridFraction (units : Nat) (exponent : Int) : Nat × Nat :=
  if 0 ≤ exponent then (units, Binary64.unitsPerOne * Nat.pow 10 exponent.toNat)
  else (units * Nat.pow 10 (-exponent).toNat, Binary64.unitsPerOne)

/-- The nearer of the two neighbours of a double on the grid of multiples of `10 ^ exponent` that
reads back as the double, if one does. -/
def neighbour? (magnitude : Nat) (exponent : Int) : Option Decimal :=
  let (numerator, denominator) := gridFraction (Binary64.magnitudeUnits magnitude) exponent
  let below : Decimal := ⟨numerator / denominator, exponent⟩
  let above : Decimal := ⟨numerator / denominator + 1, exponent⟩
  let target := Binary64.ofSignMagnitude false magnitude
  let belowReads := below.toBinary64 false == target
  let aboveReads := above.toBinary64 false == target
  let belowNearer : Bool := 2 * (numerator % denominator) < denominator
  if belowReads && (belowNearer || !aboveReads) then some below
  else if aboveReads then some above
  else none

/-- The first grid, from `digits` digits on, with a neighbour that reads back; `tries` grids are
searched. -/
def search (magnitude : Nat) (decade : Int) : Nat → Nat → Option Decimal
  | 0, _ => none
  | tries + 1, digits =>
    match neighbour? magnitude (decade - digits) with
    | some d => some d
    | none => search magnitude decade tries (digits + 1)

/-- The exact value of a double, written with a negative power of ten. -/
def exact (magnitude : Nat) : Decimal :=
  ⟨Binary64.magnitudeUnits magnitude * Nat.pow 5 1074, -1074⟩

/-- The same decimal with at most `bound` trailing zeros of its mantissa moved to the exponent. -/
def trim : Nat → Decimal → Decimal
  | 0, d => d
  | bound + 1, d =>
    if d.mantissa % 10 = 0 && d.mantissa != 0 then
      trim bound ⟨d.mantissa / 10, d.exponent + 1⟩
    else d

/-- The shortest decimal that reads back as the positive double with the given magnitude. -/
def shortest (magnitude : Nat) : Decimal :=
  let found := search magnitude (decade (Binary64.magnitudeUnits magnitude)) 17 1
  (found.map (trim 17)).getD (exact magnitude)

end SmallLisp.Decimal

import SmallLisp.Binary64.Basic

/-!
# Rounding to the nearest number

An exact result is a fraction of natural numbers, counted in units of 2^-1074. Rounding divides it by
the unit of its binade, takes the nearest integer (a tie goes to the even one) and adds the exponent.
Adding is right also when rounding carries into the next binade, because the bit patterns of adjacent
magnitudes are adjacent numbers.
-/

namespace SmallLisp.Binary64

/-- The integer nearest to a fraction; halfway between two integers, the even one. -/
def nearestEven (numerator denominator : Nat) : Nat :=
  let quotient := numerator / denominator
  let twice := 2 * (numerator % denominator)
  if twice < denominator then quotient
  else if denominator < twice then quotient + 1
  else if quotient % 2 = 0 then quotient else quotient + 1

/-- The magnitude nearest to `numerator / denominator` units, before the range is checked. -/
def roundUnits (numerator denominator : Nat) : Nat :=
  let exponent := (numerator / denominator).log2 - 52
  nearestEven numerator (denominator * Nat.pow 2 exponent) + exponent * fractionCount

/-- The number nearest to `numerator / denominator` units with the given sign; what lies beyond the
largest finite number is infinite. -/
def round (negative : Bool) (numerator denominator : Nat) : Binary64 :=
  ofSignMagnitude negative (min (roundUnits numerator denominator) infinityMagnitude)

/-- The number nearest to an integer. -/
def ofInt (n : Int) : Binary64 :=
  round (n < 0) (n.natAbs * unitsPerOne) 1

end SmallLisp.Binary64

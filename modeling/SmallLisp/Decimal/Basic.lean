import SmallLisp.Binary64.Rounding
import SmallLisp.Text.Blank

/-!
# Decimal numbers and the doubles nearest to them

A decimal is a natural number of powers of ten. Its nearest double is found by exact integer
arithmetic: the decimal is a fraction of units of 2^-1074, and `Binary64.round` rounds fractions.
-/

namespace SmallLisp

/-- The number `mantissa · 10 ^ exponent`. -/
structure Decimal where
  mantissa : Nat
  exponent : Int
deriving DecidableEq, Repr

namespace Decimal

/-- The double nearest to a decimal with a sign.

Exponents far outside the range of doubles are answered without computing the power of ten: above
10^400 every non-zero decimal is infinite, and a mantissa below `2 ^ (l + 1)`, hence below
`10 ^ (l + 1)`, times ten to less than `-(l + 401)` is far below half of the smallest double. -/
def toBinary64 (negative : Bool) (d : Decimal) : Binary64 :=
  if d.mantissa = 0 then Binary64.zero negative
  else if 400 < d.exponent then Binary64.infinity negative
  else if d.exponent < -((d.mantissa.log2 : Int) + 401) then Binary64.zero negative
  else if 0 ≤ d.exponent then
    Binary64.round negative (d.mantissa * Nat.pow 10 d.exponent.toNat * Binary64.unitsPerOne) 1
  else
    Binary64.round negative (d.mantissa * Binary64.unitsPerOne) (Nat.pow 10 (-d.exponent).toNat)

/-- The decimal digits of a natural number, without leading zeros. -/
def digits (n : Nat) : List Char :=
  Nat.toDigits 10 n

/-- The decimal written out in full: zeros fill the places between its digits and the point, and
there is a point only if a digit stands after it. -/
def positional (d : Decimal) : List Char :=
  let ds := digits d.mantissa
  if 0 ≤ d.exponent then
    ds ++ List.replicate d.exponent.toNat '0'
  else
    let places := (-d.exponent).toNat
    if places < ds.length then
      ds.take (ds.length - places) ++ '.' :: ds.drop (ds.length - places)
    else
      '0' :: '.' :: (List.replicate (places - ds.length) '0' ++ ds)

end Decimal

end SmallLisp

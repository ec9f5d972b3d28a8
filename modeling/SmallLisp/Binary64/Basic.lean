/-!
# Double-precision numbers as bit patterns

A number is its 64-bit interchange pattern: a sign, eleven bits of exponent and fifty-two of fraction.
A finite number is an integer multiple of 2^-1074, and `scaled` is that integer, so comparing and
computing with finite numbers is integer arithmetic. The bits below the sign, read as a natural
number, grow with the magnitude, which gives both orders below.
-/

namespace SmallLisp

/-- A double-precision number, held as its bit pattern. -/
structure Binary64 where
  bits : UInt64
deriving DecidableEq, Repr

namespace Binary64

/-- The weight of the sign bit. -/
def signWeight : Nat := 0x8000000000000000

/-- The number of fractions that share one exponent: 2^52. -/
def fractionCount : Nat := 0x10000000000000

/-- The bits below the sign of an infinity; everything above them is not a number. -/
def infinityMagnitude : Nat := 0x7FF0000000000000

/-- True for numbers with the sign bit set, negative zero included. -/
def isNegative (x : Binary64) : Bool :=
  signWeight ≤ x.bits.toNat

/-- The bits below the sign. -/
def magnitude (x : Binary64) : Nat :=
  x.bits.toNat % signWeight

def isNaN (x : Binary64) : Bool :=
  infinityMagnitude < x.magnitude

def isInfinite (x : Binary64) : Bool :=
  x.magnitude == infinityMagnitude

def isFinite (x : Binary64) : Bool :=
  x.magnitude < infinityMagnitude

def isZero (x : Binary64) : Bool :=
  x.magnitude == 0

/-- The number with a given sign and given bits below it. -/
def ofSignMagnitude (negative : Bool) (magnitude : Nat) : Binary64 :=
  ⟨UInt64.ofNat ((if negative then signWeight else 0) + magnitude)⟩

def zero (negative : Bool) : Binary64 := ofSignMagnitude negative 0

def infinity (negative : Bool) : Binary64 := ofSignMagnitude negative infinityMagnitude

/-- The value of the bits below the sign in units of 2^-1074: numbers below the normal range are
multiples of one unit, and each exponent step doubles the unit. -/
def magnitudeUnits (magnitude : Nat) : Nat :=
  let exponent := magnitude / fractionCount
  let fraction := magnitude % fractionCount
  if exponent = 0 then fraction else (fractionCount + fraction) * Nat.pow 2 (exponent - 1)

/-- The absolute value of a finite number in units of 2^-1074. -/
def units (x : Binary64) : Nat :=
  magnitudeUnits x.magnitude

/-- The value of a finite number in units of 2^-1074. -/
def scaled (x : Binary64) : Int :=
  if x.isNegative then -(x.units : Int) else x.units

/-- One whole in units of 2^-1074. -/
def unitsPerOne : Nat := Nat.pow 2 1074

/-- A finite number without a fractional part. -/
def isIntegral (x : Binary64) : Bool :=
  x.isFinite && x.units % unitsPerOne == 0

/-! ## Orders -/

/-- The place of a bit pattern in the total order of patterns: negative patterns come first, the
larger magnitude earlier, and negative zero comes just before zero. -/
def orderKey (x : Binary64) : Int :=
  if x.isNegative then -(x.magnitude : Int) - 1 else x.magnitude

/-- The total order of patterns; only equal patterns are equal in it. -/
def totalCompare (x y : Binary64) : Ordering :=
  compare x.orderKey y.orderKey

/-- The place of a number in the numeric order, where both zeros coincide. -/
def numericKey (x : Binary64) : Int :=
  if x.isNegative then -(x.magnitude : Int) else x.magnitude

/-- The numeric order; a NaN is not ordered with anything. -/
def compare? (x y : Binary64) : Option Ordering :=
  if x.isNaN || y.isNaN then none else some (compare x.numericKey y.numericKey)

/-- Numeric equality, in which both zeros are equal and a NaN is equal to any NaN. -/
def sameNumber (x y : Binary64) : Bool :=
  if x.isNaN || y.isNaN then x.isNaN && y.isNaN else x.numericKey == y.numericKey

end Binary64

end SmallLisp

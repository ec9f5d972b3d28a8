import SmallLisp.Binary64.Rounding

/-!
# Arithmetic on double-precision numbers

Each operation on finite numbers is the exact result, rounded once. The special cases come first: a
NaN operand is passed on, and an operation with no meaningful result (such as zero divided by zero)
gives the indefinite NaN.
-/

namespace SmallLisp.Binary64

/-- The NaN that an operation without a meaningful result gives. -/
def indefinite : Binary64 := ⟨0xFFF8000000000000⟩

/-- A NaN with its quiet bit set, which is how operations pass it on. -/
def quiet (x : Binary64) : Binary64 := ⟨x.bits ||| 0x0008000000000000⟩

/-- The number with the opposite sign. -/
def negate (x : Binary64) : Binary64 :=
  ofSignMagnitude (!x.isNegative) x.magnitude

/-- Runs an operation on two numbers that are not NaN; otherwise the first NaN is the result. -/
def onNumbers (operation : Binary64 → Binary64 → Binary64) (x y : Binary64) : Binary64 :=
  if x.isNaN then x.quiet else if y.isNaN then y.quiet else operation x y

/-- The sum of two finite numbers: an exact zero is positive unless both terms are negative. -/
def addFinite (x y : Binary64) : Binary64 :=
  let sum := x.scaled + y.scaled
  if sum = 0 then zero (x.isNegative && y.isNegative) else round (sum < 0) sum.natAbs 1

def add : Binary64 → Binary64 → Binary64 :=
  onNumbers fun x y =>
    if x.isInfinite then
      if y.isInfinite && x.isNegative != y.isNegative then indefinite else x
    else if y.isInfinite then y
    else addFinite x y

def sub : Binary64 → Binary64 → Binary64 :=
  onNumbers fun x y => add x y.negate

def mul : Binary64 → Binary64 → Binary64 :=
  onNumbers fun x y =>
    let negative := x.isNegative != y.isNegative
    if x.isInfinite || y.isInfinite then
      if x.isZero || y.isZero then indefinite else infinity negative
    else round negative (x.units * y.units) unitsPerOne

def div : Binary64 → Binary64 → Binary64 :=
  onNumbers fun x y =>
    let negative := x.isNegative != y.isNegative
    if x.isInfinite then
      if y.isInfinite then indefinite else infinity negative
    else if y.isInfinite then zero negative
    else if y.isZero then
      if x.isZero then indefinite else infinity negative
    else round negative (x.units * unitsPerOne) y.units

end SmallLisp.Binary64

import SmallLisp.Binary64.Arithmetic
import SmallLisp.Decimal.Numeral

/-!
# Numbers

A number is a 64-bit integer or a double. Integer results are computed over the mathematical integers
and kept only if they fit, so nothing wraps around; where the two kinds meet, the integer is replaced
by the double nearest to it.
-/

namespace SmallLisp

/-- A number: an integer of 64 bits or a double. -/
inductive Number where
  | int (n : Int64)
  | float (x : Binary64)
deriving DecidableEq, Repr

namespace Number

/-- The 64-bit integer with a given value, if there is one. -/
def fit? (n : Int) : Option Int64 :=
  if -9223372036854775808 ≤ n ∧ n ≤ 9223372036854775807 then some (Int64.ofInt n) else none

/-- A number as a double. -/
def toBinary64 : Number → Binary64
  | .int n => Binary64.ofInt n.toInt
  | .float x => x

/-- The order of two numbers: integers compare exactly, all other pairs as doubles. -/
def compare? : Number → Number → Option Ordering
  | .int m, .int n => some (compare m.toInt n.toInt)
  | x, y => x.toBinary64.compare? y.toBinary64

/-- The number that a numeral writes: an integer if it is an integer numeral that fits, otherwise the
nearest double, provided that it is finite. -/
def ofNumeral? (text : List Char) : Option Number :=
  match (Numeral.integer? text).bind fit? with
  | some n => some (.int n)
  | none =>
    match Numeral.decimal? text with
    | some (negative, d) =>
      let x := d.toBinary64 negative
      if x.isFinite then some (.float x) else none
    | none => none

end Number

/-- The decimal text of an integer. -/
def integerText (n : Int) : List Char :=
  if n < 0 then '-' :: Decimal.digits n.natAbs else Decimal.digits n.natAbs

end SmallLisp

import SmallLisp.Decimal.Shortest

/-!
# The text of a double

Numbers are written positionally, never with an exponent. A value's text keeps integral doubles apart
from integers: their exact digits are followed by `.0`. A token's text is plainer and shows the
shortest digits alone.
-/

namespace SmallLisp.Binary64

/-- The minus sign of a number that has one. -/
def signText (x : Binary64) : List Char :=
  if x.isNegative then ['-'] else []

/-- The shortest positional digits, without any mark that the number is a double. -/
def plainText (x : Binary64) : List Char :=
  if x.isNaN then ['N', 'a', 'N']
  else if x.isInfinite then x.signText ++ ['i', 'n', 'f']
  else if x.isZero then x.signText ++ ['0']
  else x.signText ++ (Decimal.shortest x.magnitude).positional

/-- The text of a double as a value: an integral double has all its digits and `.0`. -/
def valueText (x : Binary64) : List Char :=
  if x.isIntegral then x.signText ++ Decimal.digits (x.units / unitsPerOne) ++ ['.', '0']
  else x.plainText

end SmallLisp.Binary64

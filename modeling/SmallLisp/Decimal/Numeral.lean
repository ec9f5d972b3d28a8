import SmallLisp.Decimal.Basic

/-!
# Numerals

An integer numeral is an optional sign and digits. A decimal numeral adds an optional fraction and an
optional exponent. Reading either looks at the whole text and fails on anything left over.
-/

namespace SmallLisp.Numeral

open Text (isDigit)

/-- An optional sign in front of a text: whether it is a minus, and the text after it. -/
def splitSign : List Char → Bool × List Char
  | '-' :: rest => (true, rest)
  | '+' :: rest => (false, rest)
  | rest => (false, rest)

/-- The digits in front of a text, and what follows them. -/
def splitDigits (text : List Char) : List Char × List Char :=
  (text.takeWhile isDigit, text.dropWhile isDigit)

/-- The number that a row of digits writes in base ten. -/
def digitsValue (ds : List Char) : Nat :=
  ds.foldl (fun n c => 10 * n + (c.toNat - '0'.toNat)) 0

/-- The integer with a given sign and absolute value. -/
def signed (negative : Bool) (n : Nat) : Int :=
  if negative then -(n : Int) else n

/-- An optional sign followed by one digit or more. -/
def integer? (text : List Char) : Option Int :=
  let (negative, ds) := splitSign text
  if !ds.isEmpty && ds.all isDigit then some (signed negative (digitsValue ds)) else none

/-- The exponent part of a decimal numeral: nothing at all, or a letter `e` and an integer. -/
def exponent? : List Char → Option Int
  | [] => some 0
  | c :: rest => if c == 'e' || c == 'E' then integer? rest else none

/-- The fraction digits of a decimal numeral, if a point starts them, and what follows them. -/
def splitFraction : List Char → List Char × List Char
  | '.' :: rest => splitDigits rest
  | rest => ([], rest)

/-- An optional sign, digits with an optional point among them, and an optional exponent. -/
def decimal? (text : List Char) : Option (Bool × Decimal) :=
  let (negative, body) := splitSign text
  let (whole, afterWhole) := splitDigits body
  let (fraction, afterFraction) := splitFraction afterWhole
  if whole.isEmpty && fraction.isEmpty then none
  else
    (exponent? afterFraction).map fun e =>
      (negative, ⟨digitsValue (whole ++ fraction), e - fraction.length⟩)

end SmallLisp.Numeral

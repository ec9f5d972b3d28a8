import SmallLisp.Decimal.FloatText
import SmallLisp.Number
import SmallLisp.Text.Quoted
import SmallLisp.Value.Basic

/-!
# The text of a value

Every value has one text. The elements of a collection are separated by one space, strings are quoted,
and three characters are written by name. Functions have no text of their own.
-/

namespace SmallLisp.Value

/-- The text of a character after its backslash: blanks that would be hard to see have names. -/
def characterName : Char → List Char
  | '\n' => "newline".toList
  | ' ' => "space".toList
  | '\t' => "tab".toList
  | c => [c]

mutual

/-- The text of a value, as characters. -/
def chars : Value → List Char
  | .nil => "nil".toList
  | .bool true => "true".toList
  | .bool false => "false".toList
  | .int n => integerText n.toInt
  | .float x => x.valueText
  | .char c => '\\' :: characterName c
  | .string s => '"' :: (Text.escape s.toList ++ ['"'])
  | .symbol s => s.name.toList
  | .keyword k => ':' :: k.name.toList
  | .list items => '(' :: (itemChars items ++ [')'])
  | .vector items => '[' :: (itemChars items ++ [']'])
  | .map entries => '\x7b' :: (entryChars entries ++ ['\x7d'])
  | .set items => '#' :: '\x7b' :: (itemChars items ++ ['\x7d'])
  | .native _ => "Function".toList
  | .fn _ => "Function".toList

/-- Elements with one space between them. -/
def itemChars : List Value → List Char
  | [] => []
  | [v] => chars v
  | v :: rest => chars v ++ ' ' :: itemChars rest

/-- Keys and values in turn, with one space between them. -/
def entryChars : List (Value × Value) → List Char
  | [] => []
  | [(k, v)] => chars k ++ ' ' :: chars v
  | (k, v) :: rest => chars k ++ ' ' :: (chars v ++ ' ' :: entryChars rest)

end

/-- The text of a value. -/
def print (v : Value) : String :=
  String.ofList v.chars

/-- A description for diagnosis, which tells functions apart by arity or name. -/
def describe : Value → String
  | .fn f =>
    "#<fn/" ++ Nat.repr f.minArity ++ (if f.isVariadic then "+" else "") ++ ">"
  | .native f => "#<native-fn " ++ f.name ++ ">"
  | v => v.print

end SmallLisp.Value

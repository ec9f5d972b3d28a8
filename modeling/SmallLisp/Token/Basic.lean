import SmallLisp.Decimal.FloatText
import SmallLisp.Number
import SmallLisp.Value.Basic

/-!
# Tokens

A token opens a collection, closes one, or is an atom: a value without parts.
-/

namespace SmallLisp

/-- The kinds of collection that can be written. -/
inductive Shape where
  | list
  | vector
  | set
  | map
deriving DecidableEq, Repr

/-- The closing brackets. -/
inductive Closer where
  | paren
  | bracket
  | brace
deriving DecidableEq, Repr

/-- A value that one token writes. -/
inductive Atom where
  | nil
  | bool (b : Bool)
  | int (n : Int64)
  | float (x : Binary64)
  | char (c : Char)
  | string (s : String)
  | symbol (name : String)
  | keyword (name : String)
deriving DecidableEq, Repr

inductive Token where
  | opening (shape : Shape)
  | closing (closer : Closer)
  | atom (a : Atom)
deriving DecidableEq, Repr

namespace Shape

/-- What a collection is called in errors. -/
def name : Shape → String
  | .list => "list"
  | .vector => "vector"
  | .set => "set"
  | .map => "map"

/-- The bracket that closes a collection; sets and maps share theirs. -/
def closer : Shape → Closer
  | .list => .paren
  | .vector => .bracket
  | .set => .brace
  | .map => .brace

/-- The text that opens a collection. -/
def text : Shape → String
  | .list => "("
  | .vector => "["
  | .set => "#\x7b"
  | .map => "\x7b"

end Shape

namespace Closer

def char : Closer → Char
  | .paren => ')'
  | .bracket => ']'
  | .brace => '\x7d'

end Closer

namespace Atom

/-- The value that an atom writes. -/
def toValue : Atom → Value
  | .nil => .nil
  | .bool b => .bool b
  | .int n => .int n
  | .float x => .float x
  | .char c => .char c
  | .string s => .string s
  | .symbol name => .symbol ⟨name⟩
  | .keyword name => .keyword ⟨name⟩

/-- The plain text of an atom: digits without a mark of their kind, a string without escapes. -/
def text : Atom → String
  | .nil => "nil"
  | .bool true => "true"
  | .bool false => "false"
  | .int n => String.ofList (integerText n.toInt)
  | .float x => String.ofList x.plainText
  | .char c => "\\" ++ c.toString
  | .string s => "\"" ++ s ++ "\""
  | .symbol name => name
  | .keyword name => ":" ++ name

end Atom

namespace Token

/-- The plain text of a token. -/
def text : Token → String
  | .opening shape => shape.text
  | .closing closer => closer.char.toString
  | .atom a => a.text

end Token

end SmallLisp

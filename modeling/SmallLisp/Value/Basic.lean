import SmallLisp.Bindings
import SmallLisp.Binary64.Basic

/-!
# Values

Every datum of the language, and every form that can be evaluated, is a value. Sets hold their elements
in strictly increasing order and maps their entries in strictly increasing order of keys; the
operations that keep this are in `Value.Collection`.

A function is data too: a closure carries its code and the bindings it captured, and a native function
names what the host runs for it.
-/

namespace SmallLisp

/-- The functions that every session starts with. -/
inductive Builtin where
  | add | sub | mul | div
  | equal | less | greater | lessEqual | greaterEqual
  | list | isList | isEmpty | count
  | not | sequence | printLines
deriving DecidableEq, Repr

/-- What a native function runs: a builtin, or a function that the host registered in a slot. -/
inductive Procedure where
  | builtin (b : Builtin)
  | host (slot : Nat)
deriving DecidableEq, Repr

/-- A function that is not written in the language. Its name is its identity. -/
structure Native where
  name : String
  run : Procedure
deriving DecidableEq, Repr

/-- A function written in the language: parameters, body and captured bindings. No two closures are
created with the same identity. -/
structure Closure (α : Type) where
  identity : Nat
  params : List Symbol
  rest : Option Symbol
  body : List α
  env : Bindings α

/-- A datum of the language. -/
inductive Value where
  | nil
  | bool (b : Bool)
  | int (n : Int64)
  | float (x : Binary64)
  | char (c : Char)
  | string (s : String)
  | symbol (s : Symbol)
  | keyword (k : Keyword)
  | list (items : List Value)
  | vector (items : List Value)
  | map (entries : List (Value × Value))
  | set (items : List Value)
  | native (f : Native)
  | fn (f : Closure Value)

/-- An environment binds symbols to values. -/
abbrev Env := Bindings Value

namespace Closure

variable {α : Type}

/-- The number of arguments that a closure needs at least. -/
def minArity (f : Closure α) : Nat :=
  f.params.length

/-- Whether a closure takes further arguments as a list. -/
def isVariadic (f : Closure α) : Bool :=
  f.rest.isSome

/-- Whether a closure can be applied to a number of arguments. -/
def accepts (f : Closure α) (count : Nat) : Bool :=
  if f.isVariadic then f.minArity ≤ count else count == f.minArity

end Closure

namespace Value

instance : Inhabited Value := ⟨.nil⟩

/-- The name of a value's kind, as errors give it. -/
def kindName : Value → String
  | .nil => "nil"
  | .bool _ => "bool"
  | .int _ => "int"
  | .float _ => "float"
  | .char _ => "char"
  | .string _ => "string"
  | .symbol _ => "symbol"
  | .keyword _ => "keyword"
  | .list _ => "list"
  | .vector _ => "vector"
  | .map _ => "map"
  | .set _ => "set"
  | .native _ => "fn"
  | .fn _ => "fn"

/-- The number of elements of a collection. -/
def count? : Value → Option Nat
  | .list items => some items.length
  | .vector items => some items.length
  | .map entries => some entries.length
  | .set items => some items.length
  | _ => none

/-- Lists, vectors, maps and sets. -/
def isCollection (v : Value) : Bool :=
  v.count?.isSome

/-- What a condition takes for true: the boolean and every collection, even an empty one. -/
def isTruthy : Value → Bool
  | .bool b => b
  | v => v.isCollection

/-- The elements of a list, vector or set, in order. -/
def elements? : Value → Option (List Value)
  | .list items => some items
  | .vector items => some items
  | .set items => some items
  | _ => none

end Value

end SmallLisp

import SmallLisp.Value.Basic

/-!
# What a value feeds to a hash

A value is hashed by feeding a sequence of pieces: the rank of its kind and then its content.
Collections feed their elements one after the other, with neither a length nor an end mark, so values
of different shape can feed the same pieces; equal values always do.
-/

namespace SmallLisp

/-- One piece fed to a hash. -/
inductive HashPiece where
  | kind (rank : Nat)
  | truth (b : Bool)
  | integer (n : Int64)
  | bits (b : UInt64)
  | character (c : Char)
  | text (s : String)
  | identity (n : Nat)
deriving DecidableEq, Repr

namespace Value

mutual

/-- The pieces that a value feeds to a hash. -/
def hashPieces : Value → List HashPiece
  | .nil => [.kind 0]
  | .bool b => [.kind 1, .truth b]
  | .int n => [.kind 2, .integer n]
  | .float x => [.kind 3, .bits x.bits]
  | .char c => [.kind 4, .character c]
  | .string s => [.kind 5, .text s]
  | .symbol s => [.kind 6, .text s.name]
  | .keyword k => [.kind 7, .text k.name]
  | .list items => .kind 8 :: hashItems items
  | .vector items => .kind 9 :: hashItems items
  | .map entries => .kind 10 :: hashEntries entries
  | .set items => .kind 11 :: hashItems items
  | .native f => [.kind 12, .text f.name]
  | .fn f => [.kind 13, .identity f.identity]

/-- The pieces of the elements, one after the other. -/
def hashItems : List Value → List HashPiece
  | [] => []
  | v :: rest => hashPieces v ++ hashItems rest

/-- The pieces of the entries, each key before its value. -/
def hashEntries : List (Value × Value) → List HashPiece
  | [] => []
  | (k, v) :: rest => hashPieces k ++ (hashPieces v ++ hashEntries rest)

end

end Value

end SmallLisp

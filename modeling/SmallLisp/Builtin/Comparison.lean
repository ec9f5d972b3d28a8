import SmallLisp.Builtin.Arithmetic
import SmallLisp.Value.Equiv

/-!
# Comparison of arguments

The comparisons hold for a row of arguments when they hold for each argument and the next one. A row
of numbers is looked at from the left and no further than the first pair that fails.
-/

namespace SmallLisp

/-- The numeric comparisons. -/
inductive Comparison where
  | less
  | greater
  | lessEqual
  | greaterEqual
deriving DecidableEq, Repr

namespace Comparison

/-- The name of a comparison in the language and in errors. -/
def name : Comparison → String
  | .less => "<"
  | .greater => ">"
  | .lessEqual => "<="
  | .greaterEqual => ">="

/-- The orderings that a comparison admits. -/
def admits : Comparison → Ordering → Bool
  | .less, o => o == .lt
  | .greater, o => o == .gt
  | .lessEqual, o => o != .gt
  | .greaterEqual, o => o != .lt

/-- A comparison of two values, which must be numbers; a NaN compares with nothing. -/
def holds (c : Comparison) (a b : Value) : Except Error Bool := do
  let x ← a.toNumber c.name
  let y ← b.toNumber c.name
  return (x.compare? y).any c.admits

/-- Whether a comparison holds along a row of values, the first of which is given apart. -/
def chain (c : Comparison) : Value → List Value → Except Error Bool
  | _, [] => .ok true
  | a, b :: rest => do
    if ← c.holds a b then c.chain b rest else return false

/-- A comparison of its arguments. -/
def call (c : Comparison) : List Value → Except Error Value
  | [] => .ok (.bool true)
  | a :: rest => (c.chain a rest).map .bool

end Comparison

namespace Value

/-- Whether each value of a row is equivalent to the next one. -/
def allEquiv : List Value → Bool
  | a :: b :: rest => equiv a b && allEquiv (b :: rest)
  | _ => true

end Value

end SmallLisp

import SmallLisp.Value.Basic

/-!
# The order and the equality of values

Values are ordered by kind first and by content within a kind; collections compare element by element,
and a sequence comes before its extensions. Equality is kind-strict: a list never equals a vector, nor
an integer a double. Doubles are compared as bit patterns, native functions by name and closures by
identity. Which of two closures comes first is arbitrary, so the order takes an order of identities.
-/

namespace SmallLisp.Value

/-- The place of a value's kind in the order. -/
def rank : Value → Nat
  | .nil => 0
  | .bool _ => 1
  | .int _ => 2
  | .float _ => 3
  | .char _ => 4
  | .string _ => 5
  | .symbol _ => 6
  | .keyword _ => 7
  | .list _ => 8
  | .vector _ => 9
  | .map _ => 10
  | .set _ => 11
  | .native _ => 12
  | .fn _ => 13

section

variable (identities : Nat → Nat → Ordering)

mutual

/-- The order of values, given an order of the identities of closures. -/
def cmpUnder : Value → Value → Ordering
  | .nil, .nil => .eq
  | .bool a, .bool b => compare a b
  | .int a, .int b => compare a.toInt b.toInt
  | .float a, .float b => a.totalCompare b
  | .char a, .char b => compare a b
  | .string a, .string b => compare a b
  | .symbol a, .symbol b => compare a b
  | .keyword a, .keyword b => compare a b
  | .list as, .list bs => cmpItemsUnder as bs
  | .vector as, .vector bs => cmpItemsUnder as bs
  | .map as, .map bs => cmpEntriesUnder as bs
  | .set as, .set bs => cmpItemsUnder as bs
  | .native a, .native b => compare a.name b.name
  | .fn a, .fn b => identities a.identity b.identity
  | a, b => compare a.rank b.rank

/-- Sequences compare by their first difference. -/
def cmpItemsUnder : List Value → List Value → Ordering
  | [], [] => .eq
  | [], _ :: _ => .lt
  | _ :: _, [] => .gt
  | a :: as, b :: bs => (cmpUnder a b).then (cmpItemsUnder as bs)

/-- Entries compare by their first difference, the key before the value. -/
def cmpEntriesUnder : List (Value × Value) → List (Value × Value) → Ordering
  | [], [] => .eq
  | [], _ :: _ => .lt
  | _ :: _, [] => .gt
  | (k, v) :: as, (l, w) :: bs => (cmpUnder k l).then ((cmpUnder v w).then (cmpEntriesUnder as bs))

end

end

/-- The total order of values; closures come in the order in which they were created. -/
def cmp : Value → Value → Ordering :=
  cmpUnder compare

mutual

/-- Kind-strict equality. -/
def beq : Value → Value → Bool
  | .nil, .nil => true
  | .bool a, .bool b => a == b
  | .int a, .int b => a == b
  | .float a, .float b => a.bits == b.bits
  | .char a, .char b => a == b
  | .string a, .string b => a == b
  | .symbol a, .symbol b => a == b
  | .keyword a, .keyword b => a == b
  | .list as, .list bs => beqItems as bs
  | .vector as, .vector bs => beqItems as bs
  | .map as, .map bs => beqEntries as bs
  | .set as, .set bs => beqItems as bs
  | .native a, .native b => a.name == b.name
  | .fn a, .fn b => a.identity == b.identity
  | _, _ => false

/-- Equal sequences have equal elements in the same places. -/
def beqItems : List Value → List Value → Bool
  | [], [] => true
  | a :: as, b :: bs => beq a b && beqItems as bs
  | _, _ => false

/-- Equal entries have equal keys and values in the same places. -/
def beqEntries : List (Value × Value) → List (Value × Value) → Bool
  | [], [] => true
  | (k, v) :: as, (l, w) :: bs => beq k l && beq v w && beqEntries as bs
  | _, _ => false

end

instance : BEq Value := ⟨beq⟩

end SmallLisp.Value

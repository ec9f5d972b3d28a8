import SmallLisp.Value.Collection

/-!
# Equality in the language

The language compares more loosely than the value order does: lists, vectors and sets with equivalent
elements in the same places are equivalent, maps are equivalent when they have the same keys and
equivalent values, and doubles are compared as numbers. All else is compared by kind-strict equality.
-/

namespace SmallLisp.Value

mutual

/-- Equality as the language sees it. -/
def equiv : Value → Value → Bool
  | .map as, .map bs => as.length == bs.length && equivEntries as bs
  | .float a, .float b => a.sameNumber b
  | .list as, b => b.elements?.any (equivItems as)
  | .vector as, b => b.elements?.any (equivItems as)
  | .set as, b => b.elements?.any (equivItems as)
  | a, b => b.elements?.isNone && a == b

/-- Sequences of one length are equivalent when their elements in the same places are. -/
def equivItems : List Value → List Value → Bool
  | [], [] => true
  | a :: as, b :: bs => equiv a b && equivItems as bs
  | _, _ => false

/-- Every key of the first entries is one of the second, with an equivalent value. -/
def equivEntries : List (Value × Value) → List (Value × Value) → Bool
  | [], _ => true
  | (k, v) :: as, bs =>
    (match lookup? k bs with
      | some w => equiv v w
      | none => false) && equivEntries as bs

end

end SmallLisp.Value

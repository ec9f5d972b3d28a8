/-!
# Names

Symbols are looked up in an environment and keywords stand for themselves. Both are their names, so
two of one kind are equal exactly when their names are, and both are ordered by name.
-/

namespace SmallLisp

/-- An identifier. -/
structure Symbol where
  name : String
deriving DecidableEq, Repr

/-- A self-evaluating name; the colon in front of it is not part of the name. -/
structure Keyword where
  name : String
deriving DecidableEq, Repr

namespace Symbol

instance : Ord Symbol where
  compare := compareOn Symbol.name

instance : Std.TransOrd Symbol :=
  inferInstanceAs (Std.TransCmp (compareOn Symbol.name))

instance : Std.LawfulEqOrd Symbol where
  eq_of_compare {a b} h := by
    have hname : compare a.name b.name = .eq := h
    cases a
    cases b
    exact congrArg Symbol.mk (Std.LawfulEqCmp.eq_of_compare hname)

/-- The text of a symbol is its name. -/
def text (s : Symbol) : String := s.name

/-- The symbol that introduces the rest parameter of a function. -/
def ampersand : Symbol := ⟨"&"⟩

end Symbol

namespace Keyword

instance : Ord Keyword where
  compare := compareOn Keyword.name

instance : Std.TransOrd Keyword :=
  inferInstanceAs (Std.TransCmp (compareOn Keyword.name))

instance : Std.LawfulEqOrd Keyword where
  eq_of_compare {a b} h := by
    have hname : compare a.name b.name = .eq := h
    cases a
    cases b
    exact congrArg Keyword.mk (Std.LawfulEqCmp.eq_of_compare hname)

/-- The text of a keyword has a colon in front of the name. -/
def text (k : Keyword) : String := ":" ++ k.name

end Keyword

end SmallLisp

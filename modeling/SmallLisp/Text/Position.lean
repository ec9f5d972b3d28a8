/-!
# Positions in a text

A location is a line and a column, both counted from one; columns count characters. A position adds
the number of UTF-8 bytes before it. Both are folds over the text that was passed.
-/

namespace SmallLisp.Text

/-- A line and a column, counted from one. -/
structure Location where
  line : Nat
  column : Nat
deriving DecidableEq, Repr

/-- A location together with the number of UTF-8 bytes before it. -/
structure Position where
  line : Nat
  column : Nat
  offset : Nat
deriving DecidableEq, Repr

namespace Position

/-- Where every text begins. -/
def start : Position := ⟨1, 1, 0⟩

/-- The line and column of a position. -/
def location (p : Position) : Location := ⟨p.line, p.column⟩

/-- The position after one more character: a newline opens the next line. -/
def step (p : Position) (c : Char) : Position :=
  if c == '\n' then ⟨p.line + 1, 1, p.offset + c.utf8Size⟩
  else ⟨p.line, p.column + 1, p.offset + c.utf8Size⟩

/-- The position after a text. -/
def advance (p : Position) (text : List Char) : Position :=
  text.foldl step p

@[simp]
theorem advance_nil (p : Position) : p.advance [] = p := rfl

@[simp]
theorem advance_append (p : Position) (before after : List Char) :
    p.advance (before ++ after) = (p.advance before).advance after :=
  List.foldl_append

end Position

end SmallLisp.Text

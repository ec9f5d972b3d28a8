import SmallLisp.Token.Lexer

/-!
# A place in a text

A cursor holds the unread part of a text, the position it has reached, and where the latest token
began. Tokens are taken off one at a time and nothing beyond a token is read, so a caller can stop
between tokens and ask where the text stands. A cursor also moves over text that makes no token, and
can be used again after an error.
-/

namespace SmallLisp

open Text (Location Position)

/-- A place in a text. -/
structure Cursor where
  /-- The unread text. -/
  rest : List Char
  /-- The position of the unread text. -/
  position : Position
  /-- Where the latest token began, after the layout before it. -/
  tokenStart : Location
deriving DecidableEq, Repr

namespace Cursor

/-- The cursor at the beginning of a text. -/
def ofList (text : List Char) : Cursor :=
  ⟨text, Position.start, Position.start.location⟩

/-- The cursor at the beginning of a text. -/
def ofString (text : String) : Cursor :=
  ofList text.toList

/-- Skips the blanks and comments before the next token, which begins where they end. -/
def skipLayout (c : Cursor) : Cursor :=
  let start := c.position.advance (Text.splitLayout false c.rest).1
  ⟨(Text.splitLayout false c.rest).2, start, start.location⟩

/-- Takes the token that stands right here, if the text goes on. A fault is reported where the token
began. -/
def takeToken (c : Cursor) : Except ReadError (Option Token) × Cursor :=
  match c.rest with
  | [] => (.ok none, c)
  | first :: others =>
    let scan := Token.scan first others
    ((ReadError.locate c.tokenStart scan.outcome).map some,
      { c with rest := scan.rest, position := c.position.advance scan.lexeme })

/-- Takes the next token; at the end of the text there is none. -/
def next (c : Cursor) : Except ReadError (Option Token) × Cursor :=
  c.skipLayout.takeToken

/-- Skips the blanks and the comment on the rest of the current line. -/
def skipTrailer (c : Cursor) : Cursor :=
  let (trailer, body) := Text.splitTrailer false c.rest
  { c with rest := body, position := c.position.advance trailer }

/-- Whether the current line, or the text, ends here. -/
def atLineEnd (c : Cursor) : Bool :=
  match c.rest with
  | [] => true
  | first :: _ => first == '\n'

/-! ## Every token makes the unread text shorter -/

theorem length_rest_skipLayout_le (c : Cursor) : c.skipLayout.rest.length ≤ c.rest.length :=
  Text.length_splitLayout_le false c.rest

theorem length_rest_takeToken_le (c : Cursor) : c.takeToken.2.rest.length ≤ c.rest.length := by
  unfold takeToken
  split
  · exact Nat.le_refl _
  · next first others hrest =>
    have hscan := Token.length_rest_lt first others
    rw [hrest]
    exact Nat.le_of_lt hscan

theorem length_rest_takeToken_lt (c : Cursor) (h : c.takeToken.1 ≠ .ok none) :
    c.takeToken.2.rest.length < c.rest.length := by
  unfold takeToken at h ⊢
  split
  · next hrest => simp [hrest] at h
  · next first others hrest =>
    have hscan := Token.length_rest_lt first others
    rw [hrest]
    exact hscan

theorem length_rest_next_le (c : Cursor) : c.next.2.rest.length ≤ c.rest.length :=
  Nat.le_trans c.skipLayout.length_rest_takeToken_le c.length_rest_skipLayout_le

/-- A token, or an error in place of one, has a first character. -/
theorem length_rest_next_lt (c : Cursor) (h : c.next.1 ≠ .ok none) :
    c.next.2.rest.length < c.rest.length :=
  Nat.lt_of_lt_of_le (c.skipLayout.length_rest_takeToken_lt h) c.length_rest_skipLayout_le

theorem length_rest_of_next_some {c after : Cursor} {token : Token}
    (h : c.next = (.ok (some token), after)) : after.rest.length < c.rest.length := by
  have hlt := c.length_rest_next_lt (by simp [h])
  rwa [h] at hlt

theorem length_rest_skipTrailer_le (c : Cursor) : c.skipTrailer.rest.length ≤ c.rest.length :=
  Text.length_splitTrailer_le false c.rest

/-- All tokens of the unread text; an error loses the tokens before it. -/
def tokens (c : Cursor) : Except ReadError (List Token) × Cursor :=
  match _ : c.next with
  | (.error e, after) => (.error e, after)
  | (.ok none, after) => (.ok [], after)
  | (.ok (some token), after) =>
    let (others, final) := after.tokens
    (others.map (token :: ·), final)
termination_by c.rest.length
decreasing_by exact length_rest_of_next_some ‹_›

end Cursor

end SmallLisp

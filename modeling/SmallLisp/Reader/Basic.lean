import SmallLisp.Reader.Cursor
import SmallLisp.Reader.Frame

/-!
# Reading forms

`Cursor.read` reads one form and the layout on the rest of its line; `readAll` reads a whole text. A
read that gives a form or an error consumes at least one character, which is why both end.
-/

namespace SmallLisp

namespace Cursor

/-- Reads the tokens of one form, given the collections that are open already. -/
def readForm (stack : List Frame) (c : Cursor) : Except ReadError (Option Value) × Cursor :=
  match _ : c.next with
  | (.error e, after) => (.error e, after)
  | (.ok none, after) => (Progress.finish stack, after)
  | (.ok (some token), after) =>
    match Progress.step stack token after.tokenStart with
    | .error e => (.error e, after)
    | .ok (.done form) => (.ok (some form), after)
    | .ok (.reading stack) => after.readForm stack
termination_by c.rest.length
decreasing_by exact length_rest_of_next_some ‹_›

/-- Reads one form, or nothing at the end of the text. After a form the blanks and the comment on the
rest of its line are skipped; the newline stays. -/
def read (c : Cursor) : Except ReadError (Option Value) × Cursor :=
  match c.readForm [] with
  | (.ok (some form), after) => (.ok (some form), after.skipTrailer)
  | result => result

/-! ## One token at a time -/

theorem readForm_of_next_error {c after : Cursor} {e : ReadError} (stack : List Frame)
    (h : c.next = (.error e, after)) : c.readForm stack = (.error e, after) := by
  rw [readForm]
  split <;> simp_all

theorem readForm_of_next_none {c after : Cursor} (stack : List Frame)
    (h : c.next = (.ok none, after)) : c.readForm stack = (Progress.finish stack, after) := by
  rw [readForm]
  split <;> simp_all

theorem readForm_of_next_some {c after : Cursor} {token : Token} (stack : List Frame)
    (h : c.next = (.ok (some token), after)) :
    c.readForm stack =
      match Progress.step stack token after.tokenStart with
      | .error e => (.error e, after)
      | .ok (.done form) => (.ok (some form), after)
      | .ok (.reading stack) => after.readForm stack := by
  rw [readForm]
  split <;> simp_all

/-! ## Progress -/

theorem length_rest_readForm_le (stack : List Frame) (c : Cursor) :
    (c.readForm stack).2.rest.length ≤ c.rest.length := by
  fun_induction readForm stack c with
  | case5 stack c token after h inner hstep ih =>
    exact Nat.le_trans ih (Nat.le_of_lt (length_rest_of_next_some h))
  | _ stack c =>
    have hle := c.length_rest_next_le
    simp_all

/-- Whatever is read of one form, other than the absence of one, has a first character. -/
theorem length_rest_readForm_lt (c : Cursor) (h : (c.readForm []).1 ≠ .ok none) :
    (c.readForm []).2.rest.length < c.rest.length := by
  rw [readForm]
  split
  · next hnext =>
    have hlt := c.length_rest_next_lt (by simp [hnext])
    rwa [hnext] at hlt
  · next hnext =>
    rw [readForm] at h
    split at h <;> simp_all [Progress.finish]
  · next hnext =>
    have hlt := length_rest_of_next_some hnext
    split
    · exact hlt
    · exact hlt
    · next after _ inner _ =>
      exact Nat.lt_of_le_of_lt (length_rest_readForm_le inner after) hlt

theorem length_rest_read_lt (c : Cursor) (h : c.read.1 ≠ .ok none) :
    c.read.2.rest.length < c.rest.length := by
  have hlt := c.length_rest_readForm_lt
  unfold read at h ⊢
  split
  · next form after hform =>
    rw [hform] at hlt
    exact Nat.lt_of_le_of_lt (length_rest_skipTrailer_le after) (hlt (by simp))
  · simp_all

theorem length_rest_of_read_some {c after : Cursor} {form : Value}
    (h : c.read = (.ok (some form), after)) : after.rest.length < c.rest.length := by
  have hlt := c.length_rest_read_lt (by simp [h])
  rwa [h] at hlt

theorem length_rest_of_read_error {c after : Cursor} {e : ReadError}
    (h : c.read = (.error e, after)) : after.rest.length < c.rest.length := by
  have hlt := c.length_rest_read_lt (by simp [h])
  rwa [h] at hlt

/-- Reads all forms that are left. -/
def readAll (c : Cursor) : Except ReadError (List Value) :=
  match _ : c.read with
  | (.error e, _) => .error e
  | (.ok none, _) => .ok []
  | (.ok (some form), after) => after.readAll.map (form :: ·)
termination_by c.rest.length
decreasing_by exact length_rest_of_read_some ‹_›

end Cursor

namespace Value

/-- The first form of a text, if it has one. -/
def read (text : String) : Except ReadError (Option Value) :=
  (Cursor.ofString text).read.1

/-- All forms of a text. -/
def readAll (text : String) : Except ReadError (List Value) :=
  (Cursor.ofString text).readAll

end Value

end SmallLisp

import Mathlib.Data.List.Induction
import SmallLisp.Text.Position

/-!
# Where a text ends

The location right behind a text can be told from the text at once: its line by the newlines, its column by
the characters after the last newline (`Location.behind`). Counting character by character comes to the same
place (`location_advance_start`). Below other lines everything has the same column and a later line
(`Position.lower`, `advance_lower`), and every line begins like the first one (`advance_newline`).
-/

namespace SmallLisp.Text

namespace Location

/-- The location right behind a text: newlines end lines, and columns count characters. -/
def behind (text : List Char) : Location :=
  ⟨1 + text.count '\n', 1 + (text.reverse.takeWhile (· != '\n')).length⟩

/-- Behind a newline stands the first column of the next line. -/
theorem behind_newline (text : List Char) : behind (text ++ ['\n']) = ⟨(behind text).line + 1, 1⟩ := by
  simp [behind, Nat.add_assoc]

/-- Any other character moves on by one column. -/
theorem behind_concat {c : Char} (hc : c ≠ '\n') (text : List Char) :
    behind (text ++ [c]) = ⟨(behind text).line, (behind text).column + 1⟩ := by
  simp [behind, hc, Nat.add_assoc]

/-- The same column, some lines further down. -/
def lower (lines : Nat) (l : Location) : Location :=
  ⟨l.line + lines, l.column⟩

end Location

namespace Position

/-- The same column, some lines and bytes further down. -/
def lower (lines bytes : Nat) (p : Position) : Position :=
  ⟨p.line + lines, p.column, p.offset + bytes⟩

@[simp]
theorem location_lower (lines bytes : Nat) (p : Position) :
    (p.lower lines bytes).location = p.location.lower lines := rfl

/-- Counting character by character comes to the location behind the text. -/
theorem location_advance_start (text : List Char) :
    (start.advance text).location = Location.behind text := by
  induction text using List.reverseRecOn with
  | nil => rfl
  | append_singleton text c ih =>
    have hlast : start.advance (text ++ [c]) = (start.advance text).step c := advance_append start text [c]
    rw [hlast, step]
    by_cases hc : c = '\n'
    · -- a newline opens the next line, whatever the column was
      subst hc
      rw [Location.behind_newline, ← ih]
      rfl
    · rw [if_neg (by simpa using hc), Location.behind_concat hc, ← ih]
      rfl

/-- A character moves on alike wherever the text stands. -/
theorem step_lower (lines bytes : Nat) (p : Position) (c : Char) :
    (p.lower lines bytes).step c = (p.step c).lower lines bytes := by
  unfold step lower
  split
  · simp only [Position.mk.injEq, true_and]
    omega
  · simp only [Position.mk.injEq, true_and]
    omega

/-- Passing a text does the same below other lines. -/
theorem advance_lower (lines bytes : Nat) (p : Position) (text : List Char) :
    (p.lower lines bytes).advance text = (p.advance text).lower lines bytes := by
  induction text generalizing p with
  | nil => rfl
  | cons c rest ih =>
    show ((p.lower lines bytes).step c).advance rest = _
    rw [step_lower, ih]
    rfl

/-- A new line begins in the first column, below all lines of the text before it. -/
theorem advance_newline (text : List Char) :
    start.advance (text ++ ['\n']) =
      start.lower (1 + text.count '\n') (start.advance (text ++ ['\n'])).offset := by
  have hlocation := location_advance_start (text ++ ['\n'])
  rw [Location.behind_newline] at hlocation
  obtain ⟨hline, hcolumn⟩ := Location.mk.inj hlocation
  rcases hend : start.advance (text ++ ['\n']) with ⟨line, column, offset⟩
  rw [hend] at hline hcolumn
  dsimp only [Location.behind] at hline hcolumn
  simp only [lower, start, Position.mk.injEq]
  exact ⟨by omega, hcolumn, by omega⟩

end Position

end SmallLisp.Text

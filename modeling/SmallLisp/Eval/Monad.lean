import SmallLisp.Error
import SmallLisp.Value.Basic

/-!
# What an evaluation does besides giving a value

An evaluation prints lines, gives every closure it creates a new identity, and may fail. What it
printed before failing stays printed.
-/

namespace SmallLisp

/-- What evaluations leave behind. -/
structure World where
  /-- The identity of the next closure. -/
  nextIdentity : Nat := 0
  /-- The lines printed so far. -/
  printed : Array String := #[]
deriving DecidableEq, Repr

/-- Evaluations with a result. -/
abbrev Eval := EStateM Error World

/-- A function that the host offers to programs. -/
abbrev HostFunction := List Value → Except Error Value

/-- The functions of the host, found by their slots. -/
abbrev Host := Array HostFunction

namespace Eval

variable {α : Type}

/-- A result that needs no evaluation. -/
def ofExcept : Except Error α → Eval α
  | .ok a => pure a
  | .error e => throw e

/-- An identity that no closure has. -/
def newIdentity : Eval Nat :=
  modifyGet fun w => (w.nextIdentity, { w with nextIdentity := w.nextIdentity + 1 })

/-- Prints lines. -/
def printLines (lines : List String) : Eval Unit :=
  modify fun w => { w with printed := w.printed ++ lines }

end Eval

end SmallLisp

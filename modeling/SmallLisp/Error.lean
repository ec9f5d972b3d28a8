import SmallLisp.Name
import SmallLisp.Reader.Error

/-!
# Errors

Every way in which reading or evaluating can fail, as a cause with its data. The wording is in one
place, `Error.message`.
-/

namespace SmallLisp

/-- The number of arguments that a function takes. -/
inductive Arity where
  | exactly (n : Nat)
  | atLeast (n : Nat)
deriving DecidableEq, Repr

namespace Arity

def text : Arity → String
  | .exactly n => Nat.repr n
  | .atLeast n => "at least " ++ Nat.repr n

end Arity

/-- Why a text could not be read or a form not be evaluated. -/
inductive Error where
  | read (e : ReadError)
  | undefinedSymbol (s : Symbol)
  /-- A function got a wrong number of arguments. -/
  | wrongArity (function : Option String) (expected : Arity) (got : Nat)
  /-- A value of one kind was expected where another one was given. -/
  | wrongKind (context : Option String) (expected got : String)
  /-- Something that is no function was applied; it is given as text. -/
  | notCallable (text : String)
  | divisionByZero
  | overflow (operation : String)
  /-- Two keys of a map evaluated to equal values; the key is given as text. -/
  | duplicateKey (key : String)
  /-- A special form is malformed. -/
  | invalidForm (form : String) (reason : String)
  /-- A failure that a function of the host words itself. -/
  | failure (text : String)
  | internal (text : String)
  /-- Evaluation is nested more deeply than the evaluator allows. -/
  | nestingLimit
deriving DecidableEq, Repr

namespace Error

/-- The wording of an error. -/
def message : Error → String
  | .read e => e.message
  | .undefinedSymbol s => "Unable to resolve symbol: " ++ s.name ++ " in this context"
  | .wrongArity (some function) expected got =>
    "Wrong number of arguments to '" ++ function ++ "': expected " ++ expected.text ++ ", got " ++
      Nat.repr got
  | .wrongArity none expected got =>
    "Wrong number of arguments: expected " ++ expected.text ++ ", got " ++ Nat.repr got
  | .wrongKind (some context) expected got =>
    context ++ ": expected " ++ expected ++ ", got " ++ got
  | .wrongKind none expected got => "Type error: expected " ++ expected ++ ", got " ++ got
  | .notCallable text => "Invalid function: " ++ text
  | .divisionByZero => "Divide by zero"
  | .overflow operation => "Integer overflow in '" ++ operation ++ "'"
  | .duplicateKey key => "Duplicate key: " ++ key
  | .invalidForm form reason => "Invalid '" ++ form ++ "' syntax: " ++ reason
  | .failure text => text
  | .internal text => "Internal error: " ++ text
  | .nestingLimit => "Evaluation is nested too deeply"

end Error

end SmallLisp

import SmallLisp.Error
import SmallLisp.Value.Basic

/-!
# Parameter vectors

The parameters of a function are written as a vector of symbols. An ampersand before the last symbol
makes that one the rest parameter, which is bound to the list of all further arguments.
-/

namespace SmallLisp

/-- The parameters of a function. -/
structure Params where
  positional : List Symbol
  rest : Option Symbol
deriving DecidableEq, Repr

namespace Params

private def refuse {α : Type} (reason : String) : Except Error α :=
  .error (.invalidForm "fn" reason)

/-- The rest parameter after the ampersand: exactly one symbol, and not the ampersand again. -/
def restOfItems : List Value → Except Error Symbol
  | [] => refuse "& must be followed by a parameter"
  | [.symbol s] =>
    if s = Symbol.ampersand then refuse "only one parameter after &" else .ok s
  | _ => refuse "only one parameter after &"

/-- The parameters that the elements of a vector write. -/
def ofItems : List Value → Except Error Params
  | [] => .ok ⟨[], none⟩
  | .symbol s :: items =>
    if s = Symbol.ampersand then
      (restOfItems items).map fun rest => ⟨[], some rest⟩
    else
      (ofItems items).map fun params => { params with positional := s :: params.positional }
  | v :: _ => refuse ("parameter must be a symbol, got " ++ v.kindName)

/-- The parameters that a form writes, if it is a parameter vector. -/
def ofForm : Value → Except Error Params
  | .vector items => ofItems items
  | _ => refuse "first argument must be a parameter vector"

end Params

end SmallLisp

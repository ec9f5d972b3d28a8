import SmallLisp.Error
import SmallLisp.Number
import SmallLisp.Value.Basic

/-!
# Arithmetic on arguments

The four operations fold their arguments from the left. Two integers give the exact integer result or
an error when it does not fit; as soon as a double takes part, the running result is a double and
stays one.
-/

namespace SmallLisp

/-- The operations of arithmetic. -/
inductive Operation where
  | add
  | sub
  | mul
  | div
deriving DecidableEq, Repr

namespace Operation

/-- The name of an operation in the language and in errors. -/
def name : Operation → String
  | .add => "+"
  | .sub => "-"
  | .mul => "*"
  | .div => "/"

/-- The exact result on integers; division truncates toward zero and needs a divisor. -/
def onIntegers : Operation → Int → Int → Except Error Int
  | .add, m, n => .ok (m + n)
  | .sub, m, n => .ok (m - n)
  | .mul, m, n => .ok (m * n)
  | .div, m, n => if n = 0 then .error .divisionByZero else .ok (m.tdiv n)

/-- The result on doubles. -/
def onDoubles : Operation → Binary64 → Binary64 → Binary64
  | .add => Binary64.add
  | .sub => Binary64.sub
  | .mul => Binary64.mul
  | .div => Binary64.div

/-- The result on two numbers: exact on integers as long as it fits, otherwise on doubles. -/
def apply (op : Operation) : Number → Number → Except Error Number
  | .int m, .int n =>
    match op.onIntegers m.toInt n.toInt with
    | .error e => .error e
    | .ok result =>
      match Number.fit? result with
      | some fitting => .ok (.int fitting)
      | none => .error (.overflow op.name)
  | x, y => .ok (.float (op.onDoubles x.toBinary64 y.toBinary64))

end Operation

namespace Value

/-- The value of a number. -/
def ofNumber : Number → Value
  | .int n => .int n
  | .float x => .float x

/-- The number that a value is; `context` names the function that needs one. -/
def toNumber (context : String) : Value → Except Error Number
  | .int n => .ok (.int n)
  | .float x => .ok (.float x)
  | v => .error (.wrongKind (some context) "number" v.kindName)

end Value

namespace Operation

/-- Folds the remaining arguments into the running result. -/
def fold (op : Operation) : Number → List Value → Except Error Number
  | acc, [] => .ok acc
  | acc, v :: rest => do
    let x ← v.toNumber op.name
    let next ← op.apply acc x
    op.fold next rest

/-- An operation on its arguments, of which there must be one. -/
def call (op : Operation) : List Value → Except Error Value
  | [] => .error (.wrongArity (some op.name) (.atLeast 1) 0)
  | v :: rest => do
    let first ← v.toNumber op.name
    let result ← op.fold first rest
    return Value.ofNumber result

end Operation

end SmallLisp

import SmallLisp.Builtin.Basic
import SmallLisp.Eval.Monad
import SmallLisp.Eval.Params
import SmallLisp.Value.Collection

/-!
# Evaluation

Evaluating a form takes an environment and gives a value and the environment for what comes next; this
is how a definition reaches later forms. Every rule is written for an evaluator of the parts, and
`eval` closes the knot: its number bounds how deeply evaluations are nested.
-/

namespace SmallLisp

/-- Evaluates a form in an environment, and gives the environment to use next. -/
abbrev Evaluator := Value → Env → Eval (Value × Env)

/-- The forms that get their operands unevaluated. Their names cannot be bound to anything else. -/
inductive SpecialForm where
  | define
  | branch
  | scope
  | function
deriving DecidableEq, Repr

namespace SpecialForm

/-- The special form that a name calls for. -/
def ofName? (name : String) : Option SpecialForm :=
  if name == "def" then some .define
  else if name == "if" then some .branch
  else if name == "let" then some .scope
  else if name == "fn" then some .function
  else none

/-- The special form that the head of a list calls for. -/
def ofHead? : Value → Option SpecialForm
  | .symbol s => ofName? s.name
  | _ => none

end SpecialForm

namespace Eval

/-- Evaluates forms from left to right, each in the environment that the one before gave. -/
def each (ev : Evaluator) : List Value → Env → Eval (List Value × Env)
  | [], env => pure ([], env)
  | form :: forms, env => do
    let (value, env) ← ev form env
    let (values, env) ← each ev forms env
    pure (value :: values, env)

/-- Evaluates the forms of a body from left to right, given the value so far. -/
def bodyFrom (ev : Evaluator) : Value → List Value → Env → Eval (Value × Env)
  | value, [], env => pure (value, env)
  | _, form :: forms, env => do
    let (value, env) ← ev form env
    bodyFrom ev value forms env

/-- Evaluates the forms of a body; its value is the last one, or `nil`. -/
def body (ev : Evaluator) (forms : List Value) (env : Env) : Eval (Value × Env) :=
  bodyFrom ev .nil forms env

/-- Evaluates the entries of a map, each key before its value, on top of the entries so far. Two keys
that evaluate to equal values are an error. -/
def entries (ev : Evaluator) :
    List (Value × Value) → List (Value × Value) → Env → Eval (List (Value × Value) × Env)
  | done, [], env => pure (done, env)
  | done, (keyForm, valueForm) :: rest, env => do
    let (key, env) ← ev keyForm env
    let (value, env) ← ev valueForm env
    if (Value.lookup? key done).isSome then
      throw (.duplicateKey key.print)
    else
      entries ev (Value.insertEntry key value done) rest env

/-! ## Application -/

/-- The environment of a call: the caller's bindings, under those that the closure captured, under
the parameters. -/
def callEnv (f : Closure Value) (args : List Value) (caller : Env) : Env :=
  let bound := (f.params.zip args).foldl (fun env (param, arg) => env.insert param arg)
    (caller.merge f.env)
  match f.rest with
  | none => bound
  | some rest => bound.insert rest (.list (args.drop f.params.length))

/-- The number of arguments that a closure takes. -/
def closureArity (f : Closure Value) : Arity :=
  if f.isVariadic then .atLeast f.minArity else .exactly f.minArity

/-- Applies a closure to arguments. What its body defines does not outlive the call. -/
def applyClosure (ev : Evaluator) (f : Closure Value) (args : List Value) (caller : Env) :
    Eval Value := do
  if f.accepts args.length then
    let (value, _) ← body ev f.body (callEnv f args caller)
    pure value
  else
    throw (.wrongArity (some "fn") (closureArity f) args.length)

/-- Applies a native function to arguments. -/
def applyNative (host : Host) (f : Native) (args : List Value) : Eval Value :=
  match f.run with
  | .builtin b => do
    printLines (b.lines args)
    ofExcept (b.call args)
  | .host slot =>
    match host[slot]? with
    | some function => ofExcept (function args)
    | none => throw (.internal "no host function in this slot")

/-- Applies a value to arguments that are evaluated already. -/
def apply (host : Host) (ev : Evaluator) (f : Value) (args : List Value) (caller : Env) :
    Eval Value :=
  match f with
  | .fn f => applyClosure ev f args caller
  | .native f => applyNative host f args
  | v => throw (.notCallable v.print)

/-! ## Special forms -/

private def malformed {α : Type} (form reason : String) : Eval α :=
  throw (.invalidForm form reason)

/-- A definition binds a name to the value of a form. -/
def define (ev : Evaluator) (operands : List Value) (env : Env) : Eval (Value × Env) :=
  match operands with
  | [.symbol name, form] => do
    let (value, env) ← ev form env
    pure (value, env.insert name value)
  | [v, _] => malformed "def" ("first argument must be a symbol, got " ++ v.kindName)
  | _ => malformed "def" "requires a symbol and a value"

/-- A branch evaluates one of two forms; the second may be left out and is then `nil`. -/
def branch (ev : Evaluator) (operands : List Value) (env : Env) : Eval (Value × Env) :=
  match operands with
  | [condition, yes] => do
    let (test, env) ← ev condition env
    if test.isTruthy then ev yes env else pure (.nil, env)
  | [condition, yes, no] => do
    let (test, env) ← ev condition env
    if test.isTruthy then ev yes env else ev no env
  | _ => malformed "if" "requires 2 or 3 arguments"

/-- Binds names and forms in turn, each form seeing the names before it. -/
def bindings (ev : Evaluator) : List Value → Env → Eval Env
  | name :: form :: rest, env =>
    match name with
    | .symbol s => do
      let (value, env) ← ev form env
      bindings ev rest (env.insert s value)
    | v => malformed "let" ("binding name must be a symbol, got " ++ v.kindName)
  | _, env => pure env

/-- Local bindings last for a body; the environment afterwards is the one before. -/
def scope (ev : Evaluator) (operands : List Value) (env : Env) : Eval (Value × Env) :=
  match operands with
  | binders :: form :: forms =>
    match binders with
    | .vector items =>
      if items.length % 2 = 0 then do
        let inner ← bindings ev items env
        let (value, _) ← body ev (form :: forms) inner
        pure (value, env)
      else
        malformed "let" "binding vector must have even number of forms"
    | _ => malformed "let" "first argument must be a binding vector"
  | _ => malformed "let" "requires a binding vector and a body"

/-- A function form gives a new closure that captures the environment. -/
def function (operands : List Value) (env : Env) : Eval (Value × Env) :=
  match operands with
  | params :: form :: forms => do
    let params ← ofExcept (Params.ofForm params)
    let identity ← newIdentity
    pure (.fn ⟨identity, params.positional, params.rest, form :: forms, env⟩, env)
  | _ => malformed "fn" "requires a parameter vector and a body"

/-- Evaluates a special form. -/
def special (ev : Evaluator) (form : SpecialForm) (operands : List Value) (env : Env) :
    Eval (Value × Env) :=
  match form with
  | .define => define ev operands env
  | .branch => branch ev operands env
  | .scope => scope ev operands env
  | .function => function operands env

/-! ## Forms -/

/-- Evaluates a list that is not empty: a special form, or the application of its head to the other
elements, all evaluated from left to right. -/
def application (host : Host) (ev : Evaluator) (head : Value) (operands : List Value) (env : Env) :
    Eval (Value × Env) :=
  match SpecialForm.ofHead? head with
  | some form => special ev form operands env
  | none => do
    let (f, env) ← ev head env
    let (args, env) ← each ev operands env
    let value ← apply host ev f args env
    pure (value, env)

/-- Evaluates a form, given an evaluator for its parts. Symbols are looked up, collections evaluate
their elements, lists are applied, and all else stands for itself. -/
def form (host : Host) (ev : Evaluator) (v : Value) (env : Env) : Eval (Value × Env) :=
  match v with
  | .symbol s => do
    let value ← ofExcept (Env.lookup env s)
    pure (value, env)
  | .list [] => pure (.list [], env)
  | .list (head :: operands) => application host ev head operands env
  | .vector items => do
    let (values, env) ← each ev items env
    pure (.vector values, env)
  | .set items => do
    let (values, env) ← each ev items env
    pure (Value.ofItems values, env)
  | .map items => do
    let (done, env) ← entries ev [] items env
    pure (.map done, env)
  | v => pure (v, env)

end Eval

/-- Evaluates a form in an environment, with evaluations nested at most `depth` deep. -/
def eval (host : Host) (depth : Nat) : Evaluator :=
  match depth with
  | 0 => fun _ _ => throw .nestingLimit
  | depth + 1 => Eval.form host (eval host depth)

end SmallLisp

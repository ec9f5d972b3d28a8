import SmallLisp.Eval.Basic
import SmallLisp.Reader.Basic

/-!
# Sessions

A session keeps an environment from one evaluation to the next. A form that fails leaves the
environment as it was; only the identities it used up stay used.
-/

namespace SmallLisp

/-- An environment that lasts, and what evaluating in it needs. -/
structure Session where
  env : Env
  /-- The identity of the next closure. -/
  nextIdentity : Nat := 0
  host : Host := #[]
  /-- How deeply evaluations may be nested. -/
  depth : Nat := 100000

/-- The answer of a session: a result, the session afterwards, and the lines printed. -/
structure Reply (α : Type) where
  result : Except Error α
  session : Session
  printed : Array String

namespace Session

/-- A session with the builtins only. -/
def standard : Session :=
  { env := Env.standard }

/-- The evaluator of a session. -/
def evaluator (s : Session) : Evaluator :=
  eval s.host s.depth

/-- Runs an evaluation that gives a value and an environment; success keeps the environment. -/
def run (s : Session) (evaluation : Env → Eval (Value × Env)) : Reply Value :=
  match evaluation s.env { nextIdentity := s.nextIdentity } with
  | .ok (value, env) w => ⟨.ok value, { s with env, nextIdentity := w.nextIdentity }, w.printed⟩
  | .error e w => ⟨.error e, { s with nextIdentity := w.nextIdentity }, w.printed⟩

/-- Evaluates one form. -/
def evalForm (s : Session) (form : Value) : Reply Value :=
  s.run (s.evaluator form)

/-- Reads and evaluates the forms at a cursor one after the other, given the value and the printed
lines so far. The first error ends it; what was evaluated before keeps its effects. -/
def evalFrom (s : Session) (c : Cursor) (value : Value) (printed : Array String) : Reply Value :=
  match _ : c.read with
  | (.error e, _) => ⟨.error (.read e), s, printed⟩
  | (.ok none, _) => ⟨.ok value, s, printed⟩
  | (.ok (some form), after) =>
    let reply := s.evalForm form
    match reply.result with
    | .ok value => reply.session.evalFrom after value (printed ++ reply.printed)
    | .error e => ⟨.error e, reply.session, printed ++ reply.printed⟩
termination_by c.rest.length
decreasing_by exact Cursor.length_rest_of_read_some ‹_›

/-- Evaluates every form of a text; the value is the last one, or `nil`. -/
def evalText (s : Session) (text : String) : Reply Value :=
  s.evalFrom (Cursor.ofString text) .nil #[]

/-- Evaluates every form of a text and prints the last value. -/
def evalPrint (s : Session) (text : String) : Reply String :=
  let reply := s.evalText text
  ⟨reply.result.map Value.print, reply.session, reply.printed⟩

/-- The value of a name. -/
def get? (s : Session) (name : String) : Option Value :=
  s.env.get? ⟨name⟩

/-- Binds a name to a value. -/
def define (s : Session) (name : String) (value : Value) : Session :=
  { s with env := s.env.insert ⟨name⟩ value }

/-- Binds a name to a function of the host, which gets a slot of its own. -/
def defineNative (s : Session) (name : String) (function : HostFunction) : Session :=
  { s.define name (.native ⟨name, .host s.host.size⟩) with host := s.host.push function }

/-- Applies the function that a name is bound to; the environment stays as it is. -/
def call (s : Session) (name : String) (args : List Value) : Reply Value :=
  s.run fun env => do
    let f ← Eval.ofExcept (Env.lookup env ⟨name⟩)
    let value ← Eval.apply s.host s.evaluator f args env
    pure (value, env)

/-- A short description of a session. -/
def description (s : Session) : String :=
  "Session \x7b env: " ++ s.env.description ++ " \x7d"

end Session

end SmallLisp

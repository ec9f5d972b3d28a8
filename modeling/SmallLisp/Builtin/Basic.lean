import SmallLisp.Builtin.Comparison
import SmallLisp.Value.Printer

/-!
# The builtin functions

Every builtin is a function of its arguments alone: it gives a value or an error, and the lines it
prints. `Env.standard` binds each of them under its name.
-/

namespace SmallLisp.Builtin

/-- All builtins, in the order in which they are bound. -/
def all : List Builtin :=
  [.add, .sub, .mul, .div, .equal, .less, .greater, .lessEqual, .greaterEqual, .list, .isList,
    .isEmpty, .count, .not, .sequence, .printLines]

/-- The name of a builtin in the language. -/
def name : Builtin → String
  | .add => "+"
  | .sub => "-"
  | .mul => "*"
  | .div => "/"
  | .equal => "="
  | .less => "<"
  | .greater => ">"
  | .lessEqual => "<="
  | .greaterEqual => ">="
  | .list => "list"
  | .isList => "list?"
  | .isEmpty => "empty?"
  | .count => "count"
  | .not => "not"
  | .sequence => "do"
  | .printLines => "println"

/-- The only argument of a function that takes one. -/
def single (function : String) : List Value → Except Error Value
  | [v] => .ok v
  | args => .error (.wrongArity (some function) (.exactly 1) args.length)

/-- The number of elements of the only argument; `nil` has none. -/
def elementCount (function : String) (args : List Value) : Except Error Nat := do
  match ← single function args with
  | .nil => return 0
  | v =>
    match v.count? with
    | some n => return n
    | none => throw (.wrongKind (some function) "collection" v.kindName)

/-- The integer of a number of elements. -/
def countValue (n : Nat) : Except Error Value :=
  match Number.fit? n with
  | some fitting => .ok (.int fitting)
  | none => .error (.overflow "count")

/-- The opposite of the only argument, which must be a boolean. -/
def negation (args : List Value) : Except Error Value := do
  match ← single "not" args with
  | .bool b => return .bool (!b)
  | v => throw (.wrongKind (some "not") "bool" v.kindName)

/-- The last argument, or `nil`: the arguments were evaluated in order, so this is a sequence. -/
def last (args : List Value) : Value :=
  args.getLast?.getD .nil

/-- The result of a builtin on its arguments. -/
def call : Builtin → List Value → Except Error Value
  | .add, args => Operation.add.call args
  | .sub, args => Operation.sub.call args
  | .mul, args => Operation.mul.call args
  | .div, args => Operation.div.call args
  | .equal, args => .ok (.bool (Value.allEquiv args))
  | .less, args => Comparison.less.call args
  | .greater, args => Comparison.greater.call args
  | .lessEqual, args => Comparison.lessEqual.call args
  | .greaterEqual, args => Comparison.greaterEqual.call args
  | .list, args => .ok (.list args)
  | .isList, args => (single "list?" args).map fun v => .bool v.isCollection
  | .isEmpty, args => (elementCount "empty?" args).map fun n => .bool (n == 0)
  | .count, args => (elementCount "count" args).bind countValue
  | .not, args => negation args
  | .sequence, args => .ok (last args)
  | .printLines, _ => .ok .nil

/-- The lines that a builtin prints: each argument on a line of its own, for the one that prints. -/
def lines : Builtin → List Value → List String
  | .printLines, args => args.map Value.print
  | _, _ => []

/-- The function value of a builtin. -/
def toValue (b : Builtin) : Value :=
  .native ⟨b.name, .builtin b⟩

end SmallLisp.Builtin

namespace SmallLisp.Env

/-- Binds every builtin under its name. -/
def withBuiltins (env : Env) : Env :=
  Builtin.all.foldl (fun env b => env.insert ⟨b.name⟩ b.toValue) env

/-- The environment that sessions start with: the builtins and nothing else. -/
def standard : Env :=
  withBuiltins Bindings.empty

/-- The value of a symbol, which must be bound. -/
def lookup (env : Env) (s : Symbol) : Except Error Value :=
  match env.get? s with
  | some v => .ok v
  | none => .error (.undefinedSymbol s)

end SmallLisp.Env

import SmallLisp.Proofs.Value.Image

/-!
# Forgetting one captured name

`Value.forget x` takes the binding of `x` out of every environment that a closure in a value captured, at any
depth, and leaves everything else as it is. Values that differ only in such bindings become one value, which is an
image of each of them (`Image.forgetting`).
-/

namespace SmallLisp

namespace Value

mutual

/-- The value without the bindings of a name in the environments that its closures captured. -/
def forget (x : Symbol) : Value → Value
  | .list items => .list (forgetItems x items)
  | .vector items => .vector (forgetItems x items)
  | .map entries => .map (forgetEntries x entries)
  | .set items => .set (forgetItems x items)
  | .fn ⟨identity, params, rest, body, ⟨bound⟩⟩ =>
    .fn ⟨identity, params, rest, forgetItems x body, forgetBound x bound⟩
  | v => v

def forgetItems (x : Symbol) : List Value → List Value
  | [] => []
  | v :: rest => forget x v :: forgetItems x rest

def forgetEntries (x : Symbol) : List (Value × Value) → List (Value × Value)
  | [] => []
  | (k, v) :: rest => (forget x k, forget x v) :: forgetEntries x rest

/-- The bindings of all other names, put in order. -/
def forgetBound (x : Symbol) : List (Symbol × Value) → Bindings Value
  | [] => Bindings.empty
  | (s, v) :: rest =>
    if s = x then forgetBound x rest else (forgetBound x rest).insert s (forget x v)

end

variable {x : Symbol}

/-- The recursion through a row of values is `List.map`. -/
theorem forgetItems_eq (items : List Value) : forgetItems x items = items.map (forget x) := by
  induction items with
  | nil => rfl
  | cons v rest ih => rw [forgetItems, ih, List.map_cons]

theorem forgetEntries_eq (entries : List (Value × Value)) :
    forgetEntries x entries = entries.map (Prod.map (forget x) (forget x)) := by
  induction entries with
  | nil => rfl
  | cons entry rest ih => rw [forgetEntries, ih, List.map_cons, Prod.map]

/-- The recursion through what a closure captured builds the bindings again from the other names. -/
theorem forgetBound_eq (bound : List (Symbol × Value)) :
    forgetBound x bound = (Bindings.mk bound).rebuild (· ≠ x) (forget x) := by
  induction bound with
  | nil => rfl
  | cons entry rest ih =>
    obtain ⟨s, v⟩ := entry
    rw [forgetBound, ih, Bindings.rebuild, Bindings.rebuild, List.foldr_cons, ite_not]

/-- Forgetting replaces the parts of a value and keeps the numbers of closures. -/
theorem forget_eq_mapParts (v : Value) :
    v.forget x = v.mapParts (forget x) id (Bindings.rebuild (· ≠ x) (forget x)) := by
  cases v with
  | list items | vector items | set items => rw [forget, forgetItems_eq, mapParts]
  | map entries => rw [forget, forgetEntries_eq, mapParts]
  | fn f =>
    obtain ⟨identity, params, rest, body, ⟨bound⟩⟩ := f
    rw [forget, forgetItems_eq, forgetBound_eq, mapParts]
    rfl
  | _ => rfl

end Value

/-- Forgetting a name. -/
def Image.forgetting (x : Symbol) : Image :=
  .rebuilding (· ≠ x) id (Value.forget x) strictMono_id Value.forget_eq_mapParts

/-- Nothing that is forgotten was ever written. -/
theorem Value.print_forget {x : Symbol} (v : Value) : (v.forget x).print = v.print :=
  (Image.forgetting x).print_value v

namespace Env

/-- The environment without a name, also in what its other values captured. -/
def forget (x : Symbol) (env : Env) : Env :=
  Value.forgetBound x env.entries

variable {x : Symbol}

theorem forget_eq_rebuild (env : Env) : forget x env = env.rebuild (· ≠ x) (Value.forget x) :=
  Value.forgetBound_eq env.entries

/-- The name is unbound, and every other one is bound to its value with the name forgotten there. -/
theorem get?_forget (env : Env) (s : Symbol) :
    (forget x env).get? s = if s = x then none else (env.get? s).map (Value.forget x) := by
  rw [forget_eq_rebuild, Bindings.get?_rebuild, ite_not]

/-- The forgotten name may be bound to anything. -/
theorem forget_insert_self (env : Env) (v : Value) : forget x (env.insert x v) = forget x env := by
  rw [forget_eq_rebuild, forget_eq_rebuild, Bindings.rebuild_insert_of_not (not_not_intro rfl)]

end Env

end SmallLisp

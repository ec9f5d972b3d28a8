import SmallLisp.Proofs.Value.Collection
import SmallLisp.Proofs.Value.Equiv

/-!
# What occurs in a value

The parts of a value are the elements, keys and values of a collection, and the body and the captured values of
a closure. What can be reached through parts occurs in the value (`Occurs`), and a property holds deeply when it
holds of all that occurs (`Deeply`); it is enough to look at the value and at its parts (`deeply_iff`). A value is
canonical when every set and map that occurs in it is in order, and below a number when the numbers of all closures
that occur in it are. Environments have these properties when the values they bind have them.
-/

namespace SmallLisp

namespace Value

/-- The values that a value is made of. -/
def parts : Value → List Value
  | .list items => items
  | .vector items => items
  | .set items => items
  | .map entries => entries.flatMap fun entry => [entry.1, entry.2]
  | .fn f => f.body ++ f.env.entries.map Prod.snd
  | _ => []

/-- A value occurs in itself and in whatever has it in a part. -/
inductive Occurs : Value → Value → Prop where
  | self (v : Value) : Occurs v v
  | part {u v w : Value} (hw : w ∈ v.parts) (h : Occurs u w) : Occurs u v

/-- Something holds of all that occurs in a value. -/
def Deeply (p : Value → Prop) (v : Value) : Prop :=
  ∀ u, Occurs u v → p u

/-- Every set and every map in the value, at every depth, is in order. -/
def Canonical (v : Value) : Prop :=
  v.Deeply fun u => u.inOrder = true

/-- Every closure in the value has a number below the given one. -/
def Below (n : Nat) (v : Value) : Prop :=
  ∀ f, Occurs (.fn f) v → f.identity < n

variable {p q : Value → Prop}

/-- To look at all that occurs in a value it is enough to look at the value and deeply at its parts. -/
theorem deeply_iff {v : Value} : v.Deeply p ↔ p v ∧ ∀ part ∈ v.parts, part.Deeply p := by
  constructor
  · intro h
    exact ⟨h v (.self v), fun part hpart u hu => h u (.part hpart hu)⟩
  · rintro ⟨hself, hparts⟩ u hu
    cases hu with
    | self => exact hself
    | part hpart h => exact hparts _ hpart u h

theorem Deeply.self {v : Value} (h : v.Deeply p) : p v :=
  (deeply_iff.1 h).1

theorem Deeply.part {v part : Value} (h : v.Deeply p) (hpart : part ∈ v.parts) : part.Deeply p :=
  (deeply_iff.1 h).2 part hpart

/-- What follows from a property that holds deeply holds deeply. -/
theorem Deeply.mono {v : Value} (h : v.Deeply p) (himp : ∀ u, p u → q u) : v.Deeply q :=
  fun u hu => himp u (h u hu)

/-- The parts of a map are its keys and its values. -/
theorem mem_parts_map {part : Value} {entries : List (Value × Value)} :
    part ∈ (map entries).parts ↔ ∃ entry ∈ entries, part = entry.1 ∨ part = entry.2 := by
  simp [parts]

/-- The parts of a closure are the forms of its body and the values that it captured. -/
theorem mem_parts_fn {part : Value} {f : Closure Value} :
    part ∈ (fn f).parts ↔ part ∈ f.body ∨ ∃ entry ∈ f.env.entries, entry.2 = part := by
  simp [parts]

/-- What is deep in the keys and values of a map is deep in the map. -/
theorem deeply_map {entries : List (Value × Value)} (h : p (map entries))
    (hentries : ∀ entry ∈ entries, entry.1.Deeply p ∧ entry.2.Deeply p) : (map entries).Deeply p := by
  refine deeply_iff.2 ⟨h, ?_⟩
  intro part hpart
  obtain ⟨entry, hentry, rfl | rfl⟩ := mem_parts_map.1 hpart
  · exact (hentries entry hentry).1
  · exact (hentries entry hentry).2

/-- A set holds nothing but elements it was made of, so what is deep in these is deep in the set. -/
theorem deeply_ofItems {items : List Value} (h : p (ofItems items))
    (hitems : ∀ item ∈ items, item.Deeply p) : (ofItems items).Deeply p := by
  refine deeply_iff.2 ⟨h, ?_⟩
  intro part hpart
  exact hitems part (Sorted.mem_of_mem_collect hpart)

/-- A map holds nothing but entries it was made of, so what is deep in these is deep in the map. -/
theorem deeply_ofEntries {entries : List (Value × Value)} (h : p (ofEntries entries))
    (hentries : ∀ entry ∈ entries, entry.1.Deeply p ∧ entry.2.Deeply p) :
    (ofEntries entries).Deeply p := by
  apply deeply_map h
  intro entry hentry
  exact hentries entry (Sorted.mem_of_mem_collect hentry)

end Value

/-! ## Environments -/

namespace Env

/-- Something holds of all that occurs in the values of an environment. -/
def Deeply (p : Value → Prop) (env : Env) : Prop :=
  ∀ entry ∈ env.entries, entry.2.Deeply p

/-- An environment whose values are canonical. -/
def Canonical (env : Env) : Prop :=
  Deeply (fun u => u.inOrder = true) env

/-- Every closure in the environment has a number below the given one. -/
def Below (n : Nat) (env : Env) : Prop :=
  ∀ entry ∈ env.entries, entry.2.Below n

variable {p q : Value → Prop} {env : Env}

theorem Deeply.mono (h : Deeply p env) (himp : ∀ u, p u → q u) : Deeply q env :=
  fun entry hentry => (h entry hentry).mono himp

theorem deeply_empty : Deeply p Bindings.empty :=
  fun _ hentry => nomatch hentry

/-- What is deep in an environment and in one more value is deep in the environment with that value bound. -/
theorem Deeply.insert (h : Deeply p env) (name : Symbol) {v : Value} (hv : v.Deeply p) :
    Deeply p (env.insert name v) := by
  intro entry hentry
  rcases Sorted.mem_of_mem_insert hentry with rfl | hentry
  · exact hv
  · exact h entry hentry

/-- What is deep in two environments is deep in the one laid over the other. -/
theorem Deeply.merge (h : Deeply p env) {overlay : Env} (hoverlay : Deeply p overlay) :
    Deeply p (env.merge overlay) := by
  obtain ⟨entries⟩ := overlay
  induction entries with
  | nil => exact h
  | cons entry rest ih =>
    obtain ⟨hentry, hrest⟩ := List.forall_mem_cons.1 hoverlay
    exact (ih hrest).insert entry.1 hentry

/-- What is deep in an environment is deep in whatever a name is bound to there. -/
theorem Deeply.get? (h : Deeply p env) {name : Symbol} {v : Value} (hv : env.get? name = some v) :
    v.Deeply p := by
  obtain ⟨other, hmem, -⟩ := Sorted.exists_mem_of_lookup? hv
  -- a name that is found stands in one of the entries
  exact h _ hmem

/-- What is deep in an environment and in the arguments of a call is deep in the environment with the parameters
bound. -/
theorem Deeply.bind (h : Deeply p env) (params : List Symbol) {args : List Value}
    (hargs : ∀ arg ∈ args, arg.Deeply p) :
    Deeply p ((params.zip args).foldl (fun env (param, arg) => env.insert param arg) env) := by
  induction params generalizing args env with
  | nil => exact h
  | cons param params ih =>
    cases args with
    | nil => exact h
    | cons arg args =>
      obtain ⟨harg, hargs⟩ := List.forall_mem_cons.1 hargs
      exact ih (h.insert param harg) hargs

end Env

end SmallLisp

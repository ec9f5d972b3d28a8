import Mathlib.Data.List.Pairwise
import SmallLisp.Proofs.Eval.Canonical

/-!
# Copies of values

A value gets to another place when it is bound to a name, passed as an argument or put into a collection. What is
then found at that place is equal to it (`Eval.keepsCopies`). For a closure this says that a copy has its
identity.
-/

namespace SmallLisp

/-- A name is bound to a copy of a value. -/
def Env.Holds (env : Env) (name : Symbol) (v : Value) : Prop :=
  ∃ copy, env.get? name = some copy ∧ (copy == v) = true

/-- A value has a copy of another one among its parts. -/
def Value.Stores (v u : Value) : Prop :=
  ∃ copy ∈ v.parts, (copy == u) = true

namespace Env

theorem holds_of_get? {env : Env} {name : Symbol} {v : Value} (h : env.get? name = some v) :
    Holds env name v :=
  ⟨v, h, Value.beq_self v⟩

/-- A name is bound to a copy of what was put under it last. -/
theorem holds_insert (env : Env) (name : Symbol) (v : Value) : Holds (env.insert name v) name v :=
  holds_of_get? (Bindings.get?_insert_self env name v)

/-! ## Parameters -/

/-- Binding parameters leaves all other names as they are. -/
theorem get?_bind_of_notMem {params : List Symbol} {x : Symbol} (hx : x ∉ params) (args : List Value)
    (env : Env) :
    ((params.zip args).foldl (fun env (param, arg) => env.insert param arg) env).get? x = env.get? x := by
  induction params generalizing args env with
  | nil => rfl
  | cons param params ih =>
    cases args with
    | nil => rfl
    | cons arg args =>
      rw [List.mem_cons, not_or] at hx
      obtain ⟨hne, hx⟩ := hx
      exact (ih hx args _).trans ((Bindings.get?_insert env param x arg).trans (if_neg hne))

/-- A parameter is bound to its argument, unless a later one has the same name. -/
theorem get?_bind {params : List Symbol} {args : List Value} {i : Nat} {x : Symbol} {v : Value}
    (hparam : params[i]? = some x) (harg : args[i]? = some v) (hlater : x ∉ params.drop (i + 1))
    (env : Env) :
    ((params.zip args).foldl (fun env (param, arg) => env.insert param arg) env).get? x = some v := by
  induction params generalizing args i env with
  | nil => cases hparam
  | cons param params ih =>
    cases args with
    | nil => cases harg
    | cons arg args =>
      cases i with
      | zero =>
        obtain rfl := Option.some.inj hparam
        obtain rfl := Option.some.inj harg
        exact (get?_bind_of_notMem hlater args _).trans (Bindings.get?_insert_self env param arg)
      | succ i => exact ih hparam harg hlater _

end Env

namespace Value

theorem stores_of_mem {v u : Value} (h : u ∈ v.parts) : v.Stores u :=
  ⟨u, h, beq_self u⟩

/-- A set has a copy of each element it was made of, though not always the element itself. -/
theorem stores_ofItems {items : List Value} {u : Value} (h : u ∈ items) : (ofItems items).Stores u :=
  (exists_mem_ofItems_iff rfl u).2 ⟨u, h, beq_self u⟩

instance symm_distinctKeys : Std.Symm fun a b : Value × Value => (a.1 == b.1) = false where
  symm _ _ hab := Bool.eq_false_iff.2 fun hba => Bool.eq_false_iff.1 hab (beq_symm hba)

/-- A map of entries with distinct keys has all of them. -/
theorem stores_ofEntries {entries : List (Value × Value)}
    (hdistinct : entries.Pairwise fun a b => (a.1 == b.1) = false) {entry : Value × Value}
    (h : entry ∈ entries) : (ofEntries entries).Stores entry.1 ∧ (ofEntries entries).Stores entry.2 := by
  -- whatever is found under the key of the entry is the entry itself
  have hfind : (entries.reverse.find? fun other => other.1 == entry.1) = some entry := by
    cases hother : entries.reverse.find? fun other => other.1 == entry.1 with
    | none =>
      have hnone := List.find?_eq_none.1 hother entry (List.mem_reverse.2 h)
      exact absurd (beq_self entry.1) hnone
    | some other =>
      have hmem : other ∈ entries := List.mem_reverse.1 (List.mem_of_find?_eq_some hother)
      have hkey : (other.1 == entry.1) = true := by simpa using List.find?_some hother
      by_contra hne
      have hapart := hdistinct.forall hmem h fun heq => hne (congrArg some heq)
      exact Bool.eq_false_iff.1 hapart hkey
  obtain ⟨built, hbuilt⟩ : ∃ built, ofEntries entries = .map built := ⟨_, rfl⟩
  have hlookup := lookup?_ofEntries hbuilt entry.1
  rw [hfind] at hlookup
  obtain ⟨key, hmem, hkey⟩ := Sorted.exists_mem_of_lookup? hlookup
  rw [hbuilt]
  constructor
  · refine ⟨key, mem_parts_map.2 ⟨_, hmem, .inl rfl⟩, ?_⟩
    exact beq_symm ((cmp_eq_eq_iff _ _).1 hkey)
  · exact stores_of_mem (mem_parts_map.2 ⟨_, hmem, .inr rfl⟩)

end Value

namespace Eval

/-- A positional parameter holds its argument unless a later one, or the rest parameter, has its name. -/
theorem holds_callEnv {f : Closure Value} {args : List Value} {i : Nat} {x : Symbol} {v : Value}
    (hparam : f.params[i]? = some x) (harg : args[i]? = some v) (hlater : x ∉ f.params.drop (i + 1))
    (hrest : f.rest ≠ some x) (caller : Env) : Env.Holds (callEnv f args caller) x v := by
  have hbound := Env.get?_bind hparam harg hlater (caller.merge f.env)
  apply Env.holds_of_get?
  unfold callEnv
  dsimp only
  split
  · exact hbound
  · next rest heq =>
    have hne : x ≠ rest := fun h => hrest (h ▸ heq)
    exact (Bindings.get?_insert _ rest x _).trans ((if_neg hne).trans hbound)

/-- The rest parameter is bound to the list of the arguments that are left. -/
theorem get?_callEnv_rest {f : Closure Value} {x : Symbol} (h : f.rest = some x) (args : List Value)
    (caller : Env) : (callEnv f args caller).get? x = some (.list (args.drop f.params.length)) := by
  unfold callEnv
  rw [h]
  exact Bindings.get?_insert_self _ _ _

/-- A list with the head of a special form is evaluated by the rule of that form. -/
theorem eval_of_special {host : Host} {depth : Nat} {head : Value} {kind : SpecialForm}
    (h : SpecialForm.ofHead? head = some kind) (operands : List Value) (env : Env) :
    eval host (depth + 1) (.list (head :: operands)) env =
      special (eval host depth) kind operands env := by
  show application host (eval host depth) head operands env = _
  unfold application
  rw [h]

/-- A function form gives a closure with the next number. -/
theorem eval_function {host : Host} {depth : Nat} {head params : Value} {ps : Params}
    (hhead : SpecialForm.ofHead? head = some .function) (hparams : Params.ofForm params = .ok ps)
    (form : Value) (forms : List Value) (env : Env) (w : World) :
    eval host (depth + 1) (.list (head :: params :: form :: forms)) env w =
      .ok (.fn ⟨w.nextIdentity, ps.positional, ps.rest, form :: forms, env⟩, env)
        { w with nextIdentity := w.nextIdentity + 1 } := by
  have hok : ofExcept (Params.ofForm params) w = .ok ps w := by
    rw [hparams]
    rfl
  rw [eval_of_special hhead]
  exact bind_of_ok hok

/-- Every place that evaluation puts a value at has a copy of it, when the parts are evaluated at the depth. -/
structure KeepsCopies (host : Host) (depth : Nat) : Prop where
  /-- A definition gives a copy of the value and binds its name to one. -/
  define : ∀ (head form v : Value) (name : Symbol) (env env' : Env) (w w' : World),
    SpecialForm.ofHead? head = some .define → eval host depth form env w = .ok (v, env') w' →
    ∃ copy after, eval host (depth + 1) (.list [head, .symbol name, form]) env w = .ok (copy, after) w' ∧
      (copy == v) = true ∧ Env.Holds after name v
  /-- A local binding is a copy for the bindings after it and, if it is the last one, for the body. -/
  scope : ∀ (form v : Value) (name : Symbol) (env env' : Env) (w w' : World),
    eval host depth form env w = .ok (v, env') w' →
    ∃ inner, Env.Holds inner name v ∧
      (∀ rest, bindings (eval host depth) (.symbol name :: form :: rest) env w =
        bindings (eval host depth) rest inner w') ∧
      ∀ head first forms, SpecialForm.ofHead? head = some .scope →
        eval host (depth + 1) (.list (head :: .vector [.symbol name, form] :: first :: forms)) env w =
          (do
            let (value, _) ← body (eval host depth) (first :: forms) inner
            pure (value, env)) w'
  /-- The body of a closure sees copies of the arguments, the further ones in a list. -/
  call : ∀ (f : Closure Value) (args : List Value) (caller : Env), f.accepts args.length = true →
    ∃ inner, (∀ (i : Nat) (x : Symbol) (v : Value), f.params[i]? = some x → args[i]? = some v →
        x ∉ f.params.drop (i + 1) → f.rest ≠ some x → Env.Holds inner x v) ∧
      (∀ x, f.rest = some x → ∃ further, inner.get? x = some further ∧
        ∀ v ∈ args.drop f.params.length, further.Stores v) ∧
      apply host (eval host depth) (.fn f) args caller = do
        let (value, _) ← body (eval host depth) f.body inner
        pure value
  /-- Vectors and sets hold copies of the values of their elements. -/
  elements : ∀ (form : Value) (forms values : List Value) (env env' : Env) (w w' : World),
    form = .vector forms ∨ form = .set forms →
    each (eval host depth) forms env w = .ok (values, env') w' →
    ∃ collection, eval host (depth + 1) form env w = .ok (collection, env') w' ∧
      ∀ v ∈ values, collection.Stores v
  /-- Maps hold copies of the values of their keys and entries. -/
  entries : ∀ (items pairs : List (Value × Value)) (env env' : Env) (w w' : World),
    each (eval host depth) (items.flatMap fun item => [item.1, item.2]) env w =
      .ok (pairs.flatMap fun pair => [pair.1, pair.2], env') w' →
    (pairs.Pairwise fun a b => (a.1 == b.1) = false) →
    ∃ collection, eval host (depth + 1) (.map items) env w = .ok (collection, env') w' ∧
      ∀ pair ∈ pairs, collection.Stores pair.1 ∧ collection.Stores pair.2
  /-- The list of some arguments holds copies of them. -/
  list : ∀ (args : List Value) (caller : Env) (w : World),
    ∃ collection, apply host (eval host depth) Builtin.list.toValue args caller w = .ok collection w ∧
      ∀ arg ∈ args, collection.Stores arg

/-- Bindings, calls and collections all keep copies: each of them puts in the value itself, and only a set or a
map may have had an equal one before. -/
theorem keepsCopies (host : Host) (depth : Nat) : KeepsCopies host depth where
  define head form v name env env' w w' hhead h := by
    refine ⟨v, env'.insert name v, ?_, Value.beq_self v, Env.holds_insert env' name v⟩
    rw [eval_of_special hhead]
    exact bind_of_ok h
  scope form v name env env' w w' h := by
    refine ⟨env'.insert name v, Env.holds_insert env' name v, fun rest => bind_of_ok h, ?_⟩
    intro head first forms hhead
    -- one binding and the body in its environment, which is left again behind the body
    have hbindings : bindings (eval host depth) [.symbol name, form] env w = .ok (env'.insert name v) w' :=
      bind_of_ok h
    have heven : [Value.symbol name, form].length % 2 = 0 := Nat.mod_self 2
    have hscope : scope (eval host depth) (.vector [.symbol name, form] :: first :: forms) env =
        (do
          let inner ← bindings (eval host depth) [.symbol name, form] env
          let (value, _) ← body (eval host depth) (first :: forms) inner
          pure (value, env)) := if_pos heven
    rw [eval_of_special hhead]
    exact (congrFun hscope w).trans (bind_of_ok hbindings)
  call f args caller haccepts := by
    refine ⟨callEnv f args caller, ?_, ?_, ?_⟩
    · intro i x v hparam harg hlater hrest
      exact holds_callEnv hparam harg hlater hrest caller
    · intro x hrest
      exact ⟨_, get?_callEnv_rest hrest args caller, fun v hv => Value.stores_of_mem hv⟩
    · show applyClosure (eval host depth) f args caller = _
      unfold applyClosure
      rw [if_pos haccepts]
  elements form forms values env env' w w' hform h := by
    rcases hform with rfl | rfl
    · exact ⟨.vector values, bind_of_ok h, fun v hv => Value.stores_of_mem hv⟩
    · exact ⟨Value.ofItems values, bind_of_ok h, fun v hv => Value.stores_ofItems hv⟩
  entries items pairs env env' w w' h hdistinct :=
    ⟨Value.ofEntries pairs, (eval_map_of_each h).1 hdistinct,
      fun _ hpair => Value.stores_ofEntries hdistinct hpair⟩
  list args caller w := by
    refine ⟨.list args, ?_, fun arg harg => Value.stores_of_mem harg⟩
    -- the builtin prints no lines
    show EStateM.Result.ok (Value.list args) { w with printed := w.printed ++ ([] : List String) } = _
    simp

end Eval

end SmallLisp

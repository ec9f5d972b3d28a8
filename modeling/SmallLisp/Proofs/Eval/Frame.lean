import SmallLisp.Eval.Basic

/-!
# What an evaluation does to the environment

Only definitions change the environment, and only those that stand outside local scopes and function
bodies. `Value.defs` collects their names from a form, and `Bindings.Extends` says that an environment
grew by bindings of given names and in no other way. Each rule of the evaluator keeps this relation when
the evaluator of the parts does, so `eval` does at every depth (`eval_extends_defs`).
-/

namespace SmallLisp

/-! ## The names that a form may define -/

namespace Value

mutual

/-- The names of the definitions in a form that are not inside a local scope or a function. -/
def defs : Value → List Symbol
  | .list [] => []
  | .list (head :: operands) =>
    match SpecialForm.ofHead? head with
    | some .define =>
      match operands with
      | [.symbol name, form] => name :: defs form
      | _ => []
    | some .branch => itemDefs operands
    | some .scope => []
    | some .function => []
    | none => defs head ++ itemDefs operands
  | .vector items => itemDefs items
  | .set items => itemDefs items
  | .map entries => entryDefs entries
  | _ => []

def itemDefs : List Value → List Symbol
  | [] => []
  | form :: forms => defs form ++ itemDefs forms

def entryDefs : List (Value × Value) → List Symbol
  | [] => []
  | (key, value) :: rest => defs key ++ (defs value ++ entryDefs rest)

end

variable {head : Value}

/-- A definition may define its name and what its value form defines. -/
theorem defs_define (h : SpecialForm.ofHead? head = some .define) (name : Symbol) (form : Value) :
    defs (.list [head, .symbol name, form]) = name :: defs form := by
  conv => lhs; unfold defs
  rw [h]

/-- A conditional may define what its condition and its branches define. -/
theorem defs_branch (h : SpecialForm.ofHead? head = some .branch) (operands : List Value) :
    defs (.list (head :: operands)) = itemDefs operands := by
  unfold defs
  rw [h]

/-- A call may define what its head and its operands define; what the function does is its own matter. -/
theorem defs_application (h : SpecialForm.ofHead? head = none) (operands : List Value) :
    defs (.list (head :: operands)) = defs head ++ itemDefs operands := by
  conv => lhs; unfold defs
  rw [h]

end Value

/-! ## Environments that grow by given names -/

/-- The bindings after are those before, with some of the given names bound anew. -/
structure Bindings.Extends {α : Type} (names : List Symbol) (before after : Bindings α) : Prop where
  /-- No binding is lost. -/
  contains_of_contains : ∀ s, before.contains s = true → after.contains s = true
  /-- A name that is not given keeps its binding, or stays without one. -/
  get?_eq : ∀ s, s ∉ names → after.get? s = before.get? s
  /-- Without names nothing happens at all. -/
  eq_of_nil : names = [] → after = before

namespace Bindings.Extends

variable {α : Type} {names more : List Symbol} {a b c : Bindings α}

theorem refl (names : List Symbol) (a : Bindings α) : Extends names a a :=
  ⟨fun _ h => h, fun _ _ => rfl, fun _ => rfl⟩

theorem mono (h : Extends names a b) (hsub : ∀ s ∈ names, s ∈ more) : Extends more a b where
  contains_of_contains := h.contains_of_contains
  get?_eq s hs := h.get?_eq s fun hmem => hs (hsub s hmem)
  eq_of_nil hnil := h.eq_of_nil (List.eq_nil_iff_forall_not_mem.2 fun s hs => by simpa [hnil] using hsub s hs)

/-- One growth after the other needs the names of both. -/
theorem trans (hab : Extends names a b) (hbc : Extends more b c) : Extends (names ++ more) a c where
  contains_of_contains s hs := hbc.contains_of_contains s (hab.contains_of_contains s hs)
  get?_eq s hs := by
    rw [List.mem_append, not_or] at hs
    rw [hbc.get?_eq s hs.2, hab.get?_eq s hs.1]
  eq_of_nil hnil := by
    obtain ⟨hnames, hmore⟩ := List.append_eq_nil_iff.1 hnil
    rw [hbc.eq_of_nil hmore, hab.eq_of_nil hnames]

theorem insert (h : Extends names a b) (name : Symbol) (value : α) :
    Extends (name :: names) a (b.insert name value) where
  contains_of_contains s hs := by
    have hb := h.contains_of_contains s hs
    simp only [contains, get?_insert] at hb ⊢
    split
    · rfl
    · exact hb
  get?_eq s hs := by
    rw [List.mem_cons, not_or] at hs
    rw [get?_insert, if_neg hs.1, h.get?_eq s hs.2]
  eq_of_nil hnil := nomatch hnil

end Bindings.Extends

namespace Eval

/-! ## Taking a successful evaluation apart -/

/-- A sequence succeeds when its first part does and its second part does on that result. -/
theorem bind_eq_ok {α β : Type} {x : Eval α} {f : α → Eval β} {b : β} {w w' : World}
    (h : (x >>= f) w = .ok b w') : ∃ a v, x w = .ok a v ∧ f a v = .ok b w' := by
  change EStateM.bind x f w = .ok b w' at h
  unfold EStateM.bind at h
  split at h
  · next a v hx => exact ⟨a, v, hx, h⟩
  · cases h

theorem bind_of_ok {α β : Type} {x : Eval α} {f : α → Eval β} {a : α} {w w' : World}
    (h : x w = .ok a w') : (x >>= f) w = f a w' := by
  show EStateM.bind x f w = f a w'
  unfold EStateM.bind
  rw [h]

theorem bind_of_error {α β : Type} {x : Eval α} {f : α → Eval β} {e : Error} {w w' : World}
    (h : x w = .error e w') : (x >>= f) w = .error e w' := by
  show EStateM.bind x f w = .error e w'
  unfold EStateM.bind
  rw [h]

theorem pure_eq_ok {α : Type} {a b : α} {w w' : World} (h : (pure a : Eval α) w = .ok b w') :
    a = b := by
  change EStateM.Result.ok a w = .ok b w' at h
  exact (EStateM.Result.ok.inj h).1

theorem throw_ne_ok {α : Type} {e : Error} {b : α} {w w' : World} :
    (throw e : Eval α) w ≠ .ok b w' := by
  intro h
  change EStateM.Result.error e w = .ok b w' at h
  cases h

/-- An evaluator that binds no names but those that the form defines. -/
def ExtendsDefs (ev : Evaluator) : Prop :=
  ∀ ⦃form : Value⦄ ⦃env env' : Env⦄ ⦃v : Value⦄ ⦃w w' : World⦄,
    ev form env w = .ok (v, env') w' → Bindings.Extends form.defs env env'

namespace ExtendsDefs

variable {ev : Evaluator} (hev : ExtendsDefs ev) {env env' : Env} {v : Value} {w w' : World}

include hev

/-! ## One rule at a time -/

/-- Forms in turn bind the names that they define, each after the ones before. -/
theorem each {forms values : List Value} (h : each ev forms env w = .ok (values, env') w') :
    Bindings.Extends (Value.itemDefs forms) env env' := by
  induction forms generalizing env w w' values with
  | nil =>
    cases pure_eq_ok h
    exact .refl _ _
  | cons form forms ih =>
    obtain ⟨⟨value, env₁⟩, w₁, hform, h⟩ := bind_eq_ok h
    obtain ⟨⟨others, env₂⟩, w₂, hforms, h⟩ := bind_eq_ok h
    cases pure_eq_ok h
    exact (hev hform).trans (ih hforms)

/-- A map literal binds the names that its keys and values define. -/
theorem entries {items done result : List (Value × Value)}
    (h : entries ev done items env w = .ok (result, env') w') :
    Bindings.Extends (Value.entryDefs items) env env' := by
  induction items generalizing env w w' done with
  | nil =>
    cases pure_eq_ok h
    exact .refl _ _
  | cons item rest ih =>
    obtain ⟨keyForm, valueForm⟩ := item
    obtain ⟨⟨key, env₁⟩, w₁, hkey, h⟩ := bind_eq_ok h
    obtain ⟨⟨value, env₂⟩, w₂, hvalue, h⟩ := bind_eq_ok h
    dsimp only at h
    split at h
    · exact absurd h throw_ne_ok
    · exact (hev hkey).trans ((hev hvalue).trans (ih h))

/-- A definition keeps what its form binds and adds its own name, bound to the value. -/
theorem define {operands : List Value} (h : define ev operands env w = .ok (v, env') w') :
    ∃ name form, operands = [.symbol name, form] ∧
      Bindings.Extends (name :: form.defs) env env' ∧ env'.get? name = some v := by
  unfold Eval.define at h
  split at h
  · next name form =>
    obtain ⟨⟨value, env₁⟩, w₁, hform, h⟩ := bind_eq_ok h
    cases pure_eq_ok h
    exact ⟨name, form, rfl, (hev hform).insert name v, Bindings.get?_insert_self env₁ name v⟩
  · exact absurd h throw_ne_ok
  · exact absurd h throw_ne_ok

/-- A conditional binds names of the condition and of one branch. -/
theorem branch {operands : List Value} (h : branch ev operands env w = .ok (v, env') w') :
    Bindings.Extends (Value.itemDefs operands) env env' := by
  unfold Eval.branch at h
  split at h
  · next condition yes =>
    obtain ⟨⟨test, env₁⟩, w₁, hcondition, h⟩ := bind_eq_ok h
    dsimp only at h
    split at h
    · refine ((hev hcondition).trans (hev h)).mono ?_
      simp +contextual [Value.itemDefs]
    · cases pure_eq_ok h
      refine (hev hcondition).mono ?_
      simp +contextual [Value.itemDefs]
  · next condition yes no =>
    obtain ⟨⟨test, env₁⟩, w₁, hcondition, h⟩ := bind_eq_ok h
    dsimp only at h
    -- only one of the two branches runs, and its names are among those of both
    split at h
    · refine ((hev hcondition).trans (hev h)).mono ?_
      simp only [Value.itemDefs, List.mem_append]
      grind
    · refine ((hev hcondition).trans (hev h)).mono ?_
      simp only [Value.itemDefs, List.mem_append]
      grind
  · exact absurd h throw_ne_ok

omit hev in
/-- A local scope gives back the environment it was entered with. -/
theorem scope {operands : List Value} (h : scope ev operands env w = .ok (v, env') w') :
    env' = env := by
  unfold Eval.scope at h
  split at h
  · split at h
    · split at h
      · obtain ⟨inner, w₁, _, h⟩ := bind_eq_ok h
        obtain ⟨⟨value, _⟩, w₂, _, h⟩ := bind_eq_ok h
        cases pure_eq_ok h
        rfl
      · exact absurd h throw_ne_ok
    · exact absurd h throw_ne_ok
  · exact absurd h throw_ne_ok

omit hev in
/-- A function form binds nothing. -/
theorem function {operands : List Value} (h : function operands env w = .ok (v, env') w') :
    env' = env := by
  unfold Eval.function at h
  split at h
  · obtain ⟨params, w₁, _, h⟩ := bind_eq_ok h
    obtain ⟨identity, w₂, _, h⟩ := bind_eq_ok h
    cases pure_eq_ok h
    rfl
  · exact absurd h throw_ne_ok

/-- Each special form binds names that it defines and no others. -/
theorem special {kind : SpecialForm} {head : Value} {operands : List Value}
    (hhead : SpecialForm.ofHead? head = some kind)
    (h : special ev kind operands env w = .ok (v, env') w') :
    Bindings.Extends (Value.defs (.list (head :: operands))) env env' := by
  cases kind with
  | define =>
    obtain ⟨name, form, rfl, hextends, _⟩ := hev.define h
    rw [Value.defs_define hhead]
    exact hextends
  | branch =>
    rw [Value.defs_branch hhead]
    exact hev.branch h
  | scope => exact scope h ▸ .refl _ _
  | function => exact function h ▸ .refl _ _

/-- The operator and the operands thread the environment; the call itself only gives a value. -/
theorem application {host : Host} {head : Value} {operands : List Value}
    (h : application host ev head operands env w = .ok (v, env') w') :
    Bindings.Extends (Value.defs (.list (head :: operands))) env env' := by
  cases hhead : SpecialForm.ofHead? head with
  | some kind =>
    simp only [Eval.application, hhead] at h
    exact hev.special hhead h
  | none =>
    simp only [Eval.application, hhead] at h
    rw [Value.defs_application hhead]
    obtain ⟨⟨f, env₁⟩, w₁, hf, h⟩ := bind_eq_ok h
    obtain ⟨⟨args, env₂⟩, w₂, hargs, h⟩ := bind_eq_ok h
    obtain ⟨value, w₃, _, h⟩ := bind_eq_ok h
    cases pure_eq_ok h
    exact (hev hf).trans (hev.each hargs)

/-- An evaluator of the parts that binds only what they define makes one of whole forms. -/
theorem form (host : Host) : ExtendsDefs (form host ev) := by
  intro form env env' v w w' h
  unfold Eval.form at h
  split at h
  · obtain ⟨value, w₁, _, h⟩ := bind_eq_ok h
    cases pure_eq_ok h
    exact .refl _ _
  · cases pure_eq_ok h
    exact .refl _ _
  · exact hev.application h
  · obtain ⟨⟨values, env₁⟩, w₁, hitems, h⟩ := bind_eq_ok h
    cases pure_eq_ok h
    simpa [Value.defs] using hev.each hitems
  · obtain ⟨⟨values, env₁⟩, w₁, hitems, h⟩ := bind_eq_ok h
    cases pure_eq_ok h
    simpa [Value.defs] using hev.each hitems
  · obtain ⟨⟨done, env₁⟩, w₁, hitems, h⟩ := bind_eq_ok h
    cases pure_eq_ok h
    simpa [Value.defs] using hev.entries hitems
  · cases pure_eq_ok h
    exact .refl _ _

end ExtendsDefs

end Eval

/-- At every depth, evaluating a form binds no names but those that the form defines. -/
theorem eval_extendsDefs (host : Host) (depth : Nat) : Eval.ExtendsDefs (eval host depth) := by
  induction depth with
  | zero =>
    intro form env env' v w w' h
    exact absurd h Eval.throw_ne_ok
  | succ depth ih => exact Eval.ExtendsDefs.form ih host

/-- A call binds nothing: the environment after an application is the one after its operator and its
operands. -/
theorem eval_application_env {host : Host} {depth : Nat} {head v : Value} {operands : List Value}
    {env env' : Env} {w w' : World} (hhead : SpecialForm.ofHead? head = none)
    (h : eval host (depth + 1) (.list (head :: operands)) env w = .ok (v, env') w') :
    ∃ values w₁, Eval.each (eval host depth) (head :: operands) env w = .ok (values, env') w₁ := by
  change Eval.application host (eval host depth) head operands env w = .ok (v, env') w' at h
  simp only [Eval.application, hhead] at h
  obtain ⟨⟨f, env₁⟩, w₁, hf, h⟩ := Eval.bind_eq_ok h
  obtain ⟨⟨args, env₂⟩, w₂, hargs, h⟩ := Eval.bind_eq_ok h
  obtain ⟨value, w₃, _, h⟩ := Eval.bind_eq_ok h
  cases Eval.pure_eq_ok h
  refine ⟨f :: args, w₂, ?_⟩
  simp only [Eval.each, bind, EStateM.bind, hf, hargs]
  rfl

/-- A local scope and a function form leave the environment as it was. -/
theorem eval_scope_env {host : Host} {depth : Nat} {kind : SpecialForm} {head v : Value}
    {operands : List Value} {env env' : Env} {w w' : World}
    (hhead : SpecialForm.ofHead? head = some kind) (hkind : kind = .scope ∨ kind = .function)
    (h : eval host (depth + 1) (.list (head :: operands)) env w = .ok (v, env') w') :
    env' = env := by
  change Eval.application host (eval host depth) head operands env w = .ok (v, env') w' at h
  simp only [Eval.application, hhead] at h
  obtain rfl | rfl := hkind
  · exact Eval.ExtendsDefs.scope h
  · exact Eval.ExtendsDefs.function h

/-- A definition that succeeds binds its name to its value. -/
theorem eval_define_env {host : Host} {depth : Nat} {name : Symbol} {head form v : Value}
    {env env' : Env} {w w' : World} (hhead : SpecialForm.ofHead? head = some .define)
    (h : eval host (depth + 1) (.list [head, .symbol name, form]) env w = .ok (v, env') w') :
    env'.get? name = some v := by
  change Eval.application host (eval host depth) head [.symbol name, form] env w = _ at h
  simp only [Eval.application, hhead, Eval.special] at h
  obtain ⟨name', form', hoperands, _, hget⟩ := Eval.ExtendsDefs.define (eval_extendsDefs host depth) h
  cases hoperands
  exact hget

/-- Only definitions outside local scopes and functions change the environment. An evaluation that
succeeds loses no binding and leaves every symbol alone that its form does not define; a definition binds
its name; local scopes and function forms change nothing, and a call changes nothing beyond what its
operator and operands did, whatever the body of the called function defines. -/
theorem eval_changes_only_defs {host : Host} {depth : Nat} {form v : Value} {env env' : Env}
    {w w' : World} (h : eval host depth form env w = .ok (v, env') w') :
    (∀ s, env.contains s = true → env'.contains s = true) ∧
    (∀ s, s ∉ form.defs → env'.get? s = env.get? s) ∧
    (∀ head name value, SpecialForm.ofHead? head = some .define →
      form = .list [head, .symbol name, value] → env'.get? name = some v) ∧
    (∀ kind head operands, SpecialForm.ofHead? head = some kind → kind = .scope ∨ kind = .function →
      form = .list (head :: operands) → env' = env) ∧
    (∀ head operands, SpecialForm.ofHead? head = none → form = .list (head :: operands) →
      ∃ depth₁ values w₁,
        Eval.each (eval host depth₁) (head :: operands) env w = .ok (values, env') w₁) := by
  have hextends := eval_extendsDefs host depth h
  cases depth with
  | zero => exact absurd h Eval.throw_ne_ok
  | succ depth =>
    refine ⟨hextends.contains_of_contains, hextends.get?_eq, ?_, ?_, ?_⟩
    · rintro head name value hhead rfl
      exact eval_define_env hhead h
    · rintro kind head operands hhead hkind rfl
      exact eval_scope_env hhead hkind h
    · rintro head operands hhead rfl
      exact ⟨depth, eval_application_env hhead h⟩

/-- A definition beside a local scope and a call that both define names of their own. -/
theorem eval_changes_only_defs_mixed :
    let symbol : String → Value := fun name => .symbol ⟨name⟩
    let definition : Value := .list [symbol "def", symbol "x", .int 1]
    let localScope : Value :=
      .list [symbol "let", .vector [symbol "y", .int 2], .list [symbol "def", symbol "z", symbol "y"]]
    let function : Value :=
      .list [symbol "fn", .vector [symbol "a"], .list [symbol "def", symbol "q", symbol "a"]]
    let form : Value := .vector [definition, localScope, .list [function, .int 5]]
    let after : Env := ⟨[(⟨"x"⟩, .int 1)]⟩
    eval #[] 5 form Bindings.empty {} = .ok (.vector [.int 1, .int 2, .int 5], after) ⟨1, #[]⟩ ∧
      form.defs = [⟨"x"⟩] ∧ after.get? ⟨"z"⟩ = none ∧ after.get? ⟨"q"⟩ = none := by
  intro symbol definition localScope function form after
  have heval : eval #[] 5 form Bindings.empty {} =
      .ok (.vector [.int 1, .int 2, .int 5], after) ⟨1, #[]⟩ := by
    simp only [form, function, localScope, definition, symbol, after]
    rfl
  have hdefs : form.defs = [⟨"x"⟩] := by rfl
  have hframe := (eval_changes_only_defs heval).2.1
  rw [hdefs] at hframe
  exact ⟨heval, hdefs, hframe ⟨"z"⟩ (by decide), hframe ⟨"q"⟩ (by decide)⟩

end SmallLisp

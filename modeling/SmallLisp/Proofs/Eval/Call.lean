import SmallLisp.Proofs.Bindings
import SmallLisp.Proofs.Eval.Copies

/-!
# What a called closure sees

A call needs the right number of arguments and is refused before anything is evaluated otherwise. Then the body
runs in an environment of four layers: the rest parameter, the other parameters, the captured bindings and the
caller's bindings, each hiding those after it. `Eval.Resolves` says what a symbol stands for there, layer by
layer, and `resolves_callEnv` that the environment of a call is this one. So a caller is seen only through the
symbols that no layer above its own binds, and captured bindings may be laid over the caller's in any order.
Main statement: `apply_binds_layers`.
-/

namespace SmallLisp

/-- Sorted bindings are looked up alike in whatever order their entries are listed. -/
theorem Bindings.IsSorted.get?_of_perm {α : Type} {b : Bindings α} (h : b.IsSorted)
    {order : List (Symbol × α)} (horder : order.Perm b.entries) (s : Symbol) :
    (Bindings.mk order).get? s = b.get? s := by
  have hdistinct : b.entries.Pairwise fun a b => compare a.1 b.1 ≠ .eq :=
    List.Pairwise.imp (fun hlt heq => nomatch hlt.symm.trans heq) h
  have hdistinct' : order.Pairwise fun a b => compare a.1 b.1 ≠ .eq :=
    (horder.pairwise_iff fun hne heq => hne (Std.OrientedCmp.eq_symm heq)).2 hdistinct
  cases hget : b.get? s with
  | some v =>
    obtain ⟨other, hmem, heq⟩ := Sorted.exists_mem_of_lookup? hget
    exact Sorted.lookup?_of_mem hdistinct' (horder.mem_iff.2 hmem) heq
  | none =>
    cases hother : (Bindings.mk order).get? s with
    | none => rfl
    | some v =>
      obtain ⟨other, hmem, heq⟩ := Sorted.exists_mem_of_lookup? hother
      have hfound : b.get? s = some v := Sorted.lookup?_of_mem hdistinct (horder.mem_iff.1 hmem) heq
      rw [hget] at hfound
      cases hfound

instance {α : Type} (b : Bindings α) : Decidable b.IsSorted :=
  inferInstanceAs (Decidable (b.entries.Pairwise fun a b => compare a.1 b.1 = .lt))

/-- The arguments that a closure takes: one for each parameter, and more only with a rest parameter. -/
theorem Closure.accepts_iff {α : Type} {f : Closure α} {count : Nat} :
    f.accepts count = true ↔
      (f.rest = none → count = f.params.length) ∧ (f.rest ≠ none → f.params.length ≤ count) := by
  unfold accepts isVariadic minArity
  cases f.rest <;> simp

/-- A call that is accepted has an argument for each positional parameter. -/
theorem Closure.length_le_of_accepts {α : Type} {f : Closure α} {count : Nat}
    (h : f.accepts count = true) : f.params.length ≤ count := by
  obtain ⟨hexact, hatLeast⟩ := accepts_iff.1 h
  by_cases hnone : f.rest = none
  · exact (hexact hnone).ge
  · exact hatLeast hnone

namespace Eval

variable {f g : Closure Value} {args : List Value} {s : Symbol}

/-! ## The layers of a call -/

/-- What a symbol stands for in the body of a closure that is called with some arguments. -/
inductive Resolves (f : Closure Value) (args : List Value) (caller : Env) (s : Symbol) :
    Option Value → Prop where
  /-- The rest parameter stands for the list of the remaining arguments. -/
  | rest (hrest : f.rest = some s) :
      Resolves f args caller s (some (.list (args.drop f.params.length)))
  /-- Any other parameter stands for its argument, the last one of its name hiding those before it. -/
  | argument {i : Nat} {v : Value} (hrest : f.rest ≠ some s) (hparam : f.params[i]? = some s)
      (hlast : s ∉ f.params.drop (i + 1)) (harg : args[i]? = some v) :
      Resolves f args caller s (some v)
  | captured {v : Value} (hrest : f.rest ≠ some s) (hparams : s ∉ f.params)
      (hcaptured : f.env.get? s = some v) : Resolves f args caller s (some v)
  /-- All else is what it is for the caller, bound or not. -/
  | caller (hrest : f.rest ≠ some s) (hparams : s ∉ f.params) (hcaptured : f.env.get? s = none) :
      Resolves f args caller s (caller.get? s)

/-- A parameter has a last place, and an argument there. -/
theorem exists_argument {params : List Symbol} (hs : s ∈ params) (hargs : params.length ≤ args.length) :
    ∃ (i : Nat) (v : Value), params[i]? = some s ∧ s ∉ params.drop (i + 1) ∧ args[i]? = some v := by
  induction params generalizing args with
  | nil => cases hs
  | cons param params ih =>
    cases args with
    | nil => cases hargs
    | cons arg args =>
      by_cases hlater : s ∈ params
      · obtain ⟨i, v, hparam, hlast, harg⟩ := ih hlater (Nat.le_of_succ_le_succ hargs)
        exact ⟨i + 1, v, hparam, hlast, harg⟩
      · obtain rfl := (List.mem_cons.1 hs).resolve_right hlater
        exact ⟨0, arg, rfl, hlater, rfl⟩

/-- The rest parameter hides nothing but its own name. -/
theorem get?_callEnv_of_rest_ne (h : f.rest ≠ some s) (args : List Value) (caller : Env) :
    (callEnv f args caller).get? s =
      ((f.params.zip args).foldl (fun env (param, arg) => env.insert param arg)
        (caller.merge f.env)).get? s := by
  unfold callEnv
  dsimp only
  split
  · rfl
  · next rest hrest =>
    have hne : s ≠ rest := fun heq => h (heq ▸ hrest)
    exact (Bindings.get?_insert _ rest s _).trans (if_neg hne)

/-- The environment of a call is the one of the four layers. -/
theorem resolves_callEnv (hargs : f.params.length ≤ args.length) (caller : Env) (s : Symbol) :
    Resolves f args caller s ((callEnv f args caller).get? s) := by
  by_cases hrest : f.rest = some s
  · rw [get?_callEnv_rest hrest]
    exact .rest hrest
  · rw [get?_callEnv_of_rest_ne hrest]
    by_cases hparams : s ∈ f.params
    · obtain ⟨i, v, hparam, hlast, harg⟩ := exists_argument hparams hargs
      rw [Env.get?_bind hparam harg hlast]
      exact .argument hrest hparam hlast harg
    · rw [Env.get?_bind_of_notMem hparams, Bindings.get?_merge]
      cases hcaptured : f.env.get? s with
      | some v => exact .captured hrest hparams hcaptured
      | none => exact .caller hrest hparams hcaptured

/-! ## What a call does not see -/

/-- The environment of a call is in order when that of the caller is. -/
theorem isSorted_callEnv {caller : Env} (h : caller.IsSorted) (f : Closure Value) (args : List Value) :
    (callEnv f args caller).IsSorted := by
  have hbound : ((f.params.zip args).foldl (fun env (param, arg) => env.insert param arg)
      (caller.merge f.env)).IsSorted :=
    List.foldlRecOn _ _ (h.merge f.env) fun _ henv (param, arg) _ => henv.insert param arg
  unfold callEnv
  dsimp only
  split
  · exact hbound
  · exact hbound.insert _ _

/-- Closures with the same parameters, called with the same arguments, run in the same environment when the
layers below the parameters agree on all other symbols. -/
theorem callEnv_congr {caller other : Env} (hcaller : caller.IsSorted) (hother : other.IsSorted)
    (hparams : g.params = f.params) (hrest : g.rest = f.rest) (hargs : f.params.length ≤ args.length)
    (h : ∀ s, s ∉ f.params → f.rest ≠ some s → (other.merge g.env).get? s = (caller.merge f.env).get? s) :
    callEnv g args other = callEnv f args caller := by
  refine (isSorted_callEnv hother g args).eq_of_get?_eq (isSorted_callEnv hcaller f args) ?_
  intro s
  by_cases hs : f.rest = some s
  · rw [get?_callEnv_rest hs, get?_callEnv_rest (hrest.trans hs), hparams]
  · rw [get?_callEnv_of_rest_ne hs, get?_callEnv_of_rest_ne (hrest ▸ hs), hparams]
    by_cases hmem : s ∈ f.params
    · obtain ⟨i, v, hparam, hlast, harg⟩ := exists_argument hmem hargs
      rw [Env.get?_bind hparam harg hlast, Env.get?_bind hparam harg hlast]
    · rw [Env.get?_bind_of_notMem hmem, Env.get?_bind_of_notMem hmem, h s hmem hs]

theorem applyClosure_of_accepts (ev : Evaluator) (h : f.accepts args.length = true) (caller : Env) :
    applyClosure ev f args caller =
      (do
        let (value, _) ← body ev f.body (callEnv f args caller)
        pure value) := by
  unfold applyClosure
  rw [if_pos h]

theorem applyClosure_of_refuses (ev : Evaluator) (h : f.accepts args.length = false) (caller : Env) :
    applyClosure ev f args caller = throw (.wrongArity (some "fn") (closureArity f) args.length) := by
  unfold applyClosure
  rw [if_neg (Bool.eq_false_iff.1 h)]

/-- A call runs alike wherever the layers below the parameters agree. -/
theorem applyClosure_congr (ev : Evaluator) {caller other : Env} (hcaller : caller.IsSorted)
    (hother : other.IsSorted) (hparams : g.params = f.params) (hrest : g.rest = f.rest)
    (hbody : g.body = f.body)
    (h : ∀ s, s ∉ f.params → f.rest ≠ some s → (other.merge g.env).get? s = (caller.merge f.env).get? s) :
    applyClosure ev g args other = applyClosure ev f args caller := by
  have hsame : g.accepts args.length = f.accepts args.length := by
    unfold Closure.accepts Closure.isVariadic Closure.minArity
    rw [hparams, hrest]
  have harity : closureArity g = closureArity f := by
    unfold closureArity Closure.isVariadic Closure.minArity
    rw [hparams, hrest]
  cases haccepts : f.accepts args.length with
  | false => rw [applyClosure_of_refuses ev haccepts, applyClosure_of_refuses ev (hsame.trans haccepts), harity]
  | true =>
    have hargs := Closure.length_le_of_accepts haccepts
    rw [applyClosure_of_accepts ev haccepts, applyClosure_of_accepts ev (hsame.trans haccepts), hbody,
      callEnv_congr hcaller hother hparams hrest hargs h]

/-- Closure application binds exactly the right names. With a wrong number of arguments it fails at once, with the
closure's arity and the number given. Otherwise it gives what its body gives in the environment where each symbol
stands for what the innermost layer that binds it says: the rest parameter, the last parameter of its name, the
captured bindings or the caller. Callers that agree on every symbol that is neither captured nor a parameter get
the same result, and so does every order in which the captured bindings are laid over the caller's. -/
theorem apply_binds_layers (host : Host) (ev : Evaluator) (f : Closure Value) (args : List Value)
    (caller : Env) :
    (f.rest = none → args.length ≠ f.params.length → ∀ w, apply host ev (.fn f) args caller w =
      .error (.wrongArity (some "fn") (.exactly f.params.length) args.length) w) ∧
    (f.rest ≠ none → args.length < f.params.length → ∀ w, apply host ev (.fn f) args caller w =
      .error (.wrongArity (some "fn") (.atLeast f.params.length) args.length) w) ∧
    ((f.rest = none → args.length = f.params.length) → (f.rest ≠ none → f.params.length ≤ args.length) →
      (∀ s, Resolves f args caller s ((callEnv f args caller).get? s)) ∧
      apply host ev (.fn f) args caller =
        (do
          let (value, _) ← body ev f.body (callEnv f args caller)
          pure value)) ∧
    (caller.IsSorted →
      (∀ other : Env, other.IsSorted →
        (∀ s, s ∉ f.params → f.rest ≠ some s → f.env.get? s = none → other.get? s = caller.get? s) →
          apply host ev (.fn f) args other = apply host ev (.fn f) args caller) ∧
      ∀ order : List (Symbol × Value), f.env.IsSorted → order.Perm f.env.entries →
        apply host ev (.fn { f with env := ⟨order⟩ }) args caller = apply host ev (.fn f) args caller) := by
  refine ⟨?_, ?_, ?_, ?_⟩
  · intro hrest hcount w
    have hrefuses : f.accepts args.length = false :=
      Bool.eq_false_iff.2 fun h => hcount ((Closure.accepts_iff.1 h).1 hrest)
    have harity : closureArity f = .exactly f.params.length := by
      simp [closureArity, Closure.isVariadic, Closure.minArity, hrest]
    rw [← harity]
    exact congrFun (applyClosure_of_refuses ev hrefuses caller) w
  · intro hrest hcount w
    have hrefuses : f.accepts args.length = false :=
      Bool.eq_false_iff.2 fun h => Nat.not_le_of_lt hcount ((Closure.accepts_iff.1 h).2 hrest)
    have harity : closureArity f = .atLeast f.params.length := by
      simp [closureArity, Closure.isVariadic, Closure.minArity, Option.isSome_iff_ne_none, hrest]
    rw [← harity]
    exact congrFun (applyClosure_of_refuses ev hrefuses caller) w
  · intro hexact hatLeast
    have haccepts : f.accepts args.length = true := Closure.accepts_iff.2 ⟨hexact, hatLeast⟩
    exact ⟨resolves_callEnv (Closure.length_le_of_accepts haccepts) caller,
      applyClosure_of_accepts ev haccepts caller⟩
  · intro hcaller
    constructor
    · intro other hother hagree
      apply applyClosure_congr ev hcaller hother rfl rfl rfl
      intro s hparams hrest
      rw [Bindings.get?_merge, Bindings.get?_merge]
      -- the captured binding hides the caller's, and where there is none the callers agree
      cases hcaptured : f.env.get? s with
      | some v => rfl
      | none => exact hagree s hparams hrest hcaptured
    · intro order hsorted horder
      apply applyClosure_congr (f := f) (g := { f with env := ⟨order⟩ }) ev hcaller hcaller rfl rfl rfl
      intro s _ _
      rw [Bindings.get?_merge, Bindings.get?_merge, hsorted.get?_of_perm horder]

/-- Two parameters of one name, a captured binding that hides the caller's, and a rest parameter. -/
theorem apply_binds_layers_collisions :
    let symbol : String → Value := fun name => .symbol ⟨name⟩
    let captured : Env := ⟨[(⟨"a"⟩, .int 1), (⟨"b"⟩, .int 2)]⟩
    let f : Closure Value :=
      ⟨0, [⟨"a"⟩, ⟨"a"⟩], some ⟨"r"⟩, [.vector [symbol "a", symbol "b", symbol "c", symbol "r"]], captured⟩
    let caller : Env := ⟨[(⟨"b"⟩, .int 3), (⟨"c"⟩, .int 4), (⟨"r"⟩, .int 5)]⟩
    let other : Env := ⟨[(⟨"a"⟩, .int 6), (⟨"c"⟩, .int 4)]⟩
    let args : List Value := [.int 10, .int 20, .int 30, .int 40]
    let result : Value := .vector [.int 20, .int 2, .int 4, .list [.int 30, .int 40]]
    f.rest ≠ none ∧ f.params.length ≤ args.length ∧
      Resolves f args caller ⟨"a"⟩ (some (.int 20)) ∧
      apply #[] (eval #[] 2) (.fn f) args caller {} = .ok result {} ∧
      apply #[] (eval #[] 2) (.fn f) args other {} = .ok result {} ∧
      apply #[] (eval #[] 2) (.fn { f with env := ⟨captured.entries.reverse⟩ }) args caller {} =
        .ok result {} ∧
      apply #[] (eval #[] 2) (.fn f) [.int 10] caller {} =
        .error (.wrongArity (some "fn") (.atLeast 2) 1) {} := by
  intro symbol captured f caller other args result
  have hrest : f.rest ≠ none := nofun
  have hcaller : caller.IsSorted := by decide +kernel
  have hother : other.IsSorted := by decide +kernel
  have hcaptured : captured.IsSorted := by decide +kernel
  have hagree : ∀ s, s ∉ f.params → f.rest ≠ some s → captured.get? s = none → other.get? s = caller.get? s := by
    intro s hparams hname hfree
    have hinsert : ∀ (t : Symbol) (v : Value) (rest : List (Symbol × Value)),
        (Bindings.mk ((t, v) :: rest)).get? s = if s = t then some v else (Bindings.mk rest).get? s := by
      intro t v rest
      simp [Bindings.get?, Sorted.lookup?]
    simp only [f, captured, caller, other, hinsert] at hparams hname hfree ⊢
    grind
  obtain ⟨-, -, hbody, hsame⟩ := apply_binds_layers #[] (eval #[] 2) f args caller
  obtain ⟨hresolves, hcall⟩ := hbody (fun h => absurd h hrest) fun _ => by decide
  obtain ⟨hcallers, horders⟩ := hsame hcaller
  obtain ⟨-, hfew, -⟩ := apply_binds_layers #[] (eval #[] 2) f [.int 10] caller
  have hrun : apply #[] (eval #[] 2) (.fn f) args caller {} = .ok result {} := by
    rw [hcall]
    simp only [f, captured, caller, args, result, symbol]
    rfl
  have hget : (callEnv f args caller).get? ⟨"a"⟩ = some (.int 20) := by
    simp only [f, captured, caller, args, symbol]
    rfl
  refine ⟨hrest, by decide, hget ▸ hresolves ⟨"a"⟩, hrun, ?_, ?_, hfew hrest (by decide) {}⟩
  · rw [hcallers other hother hagree, hrun]
  · rw [horders captured.entries.reverse hcaptured (List.reverse_perm _), hrun]

end Eval

end SmallLisp

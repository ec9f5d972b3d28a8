import SmallLisp.Eval.Basic
import SmallLisp.Proofs.Builtin.Results
import SmallLisp.Proofs.Value.Occurs

/-!
# Where the values of an evaluation come from

Whatever occurs in a value that an evaluation gives was there before, or was built without being a closure, or is
a closure that the evaluation made (`Origin`). The closures that it has made so far are kept in a row, in the
order of their identities (`Fits`), and the row only grows (`Traces`). Each rule of the evaluator keeps this
account when the evaluator of the parts does, so `eval` does at every depth (`eval_traces`). Sets and maps are
built in order, so the same account says that they stay in order.
-/

namespace SmallLisp

/-- Where a value comes from, given what was there before and the closures that were made since. -/
inductive Origin (old : Value → Prop) (made : List (Closure Value)) : Value → Prop where
  | old {u : Value} (h : old u) : Origin old made u
  | built {u : Value} (hfn : ∀ f, u ≠ .fn f) (horder : u.inOrder = true) : Origin old made u
  | made {f : Closure Value} (hf : f ∈ made) : Origin old made (.fn f)

variable {old : Value → Prop} {made made' : List (Closure Value)} {base : Nat}

/-- An origin stays one when more closures are made. -/
theorem Origin.mono (h : made <+: made') {u : Value} (hu : Origin old made u) : Origin old made' u := by
  cases hu with
  | old hold => exact .old hold
  | built hfn horder => exact .built hfn horder
  | made hf => exact .made (h.subset hf)

/-- Everything that occurs in a value has an origin. -/
def Value.Traced (old : Value → Prop) (made : List (Closure Value)) (v : Value) : Prop :=
  v.Deeply (Origin old made)

/-- Everything that occurs in the values of an environment has an origin. -/
def Env.Traced (old : Value → Prop) (made : List (Closure Value)) (env : Env) : Prop :=
  Env.Deeply (Origin old made) env

/-- A value that is accounted for stays so when more closures are made. -/
theorem Value.Traced.mono {v : Value} (h : v.Traced old made) (hmade : made <+: made') :
    v.Traced old made' :=
  Deeply.mono h fun _ => Origin.mono hmade

theorem Env.Traced.mono {env : Env} (h : Env.Traced old made env) (hmade : made <+: made') :
    Env.Traced old made' env :=
  Deeply.mono h fun _ => Origin.mono hmade

namespace Value

/-- What is built of parts that have an origin has one. -/
theorem traced_of_parts {v : Value} (hfn : ∀ f, v ≠ .fn f) (horder : v.inOrder = true)
    (hparts : ∀ part ∈ v.parts, part.Traced old made) : v.Traced old made :=
  deeply_iff.2 ⟨.built hfn horder, hparts⟩

theorem traced_list {items : List Value} (h : ∀ item ∈ items, item.Traced old made) :
    (list items).Traced old made :=
  traced_of_parts nofun rfl h

theorem traced_vector {items : List Value} (h : ∀ item ∈ items, item.Traced old made) :
    (vector items).Traced old made :=
  traced_of_parts nofun rfl h

/-- A set of elements that are accounted for is built in order. -/
theorem traced_ofItems {items : List Value} (h : ∀ item ∈ items, item.Traced old made) :
    (ofItems items).Traced old made :=
  deeply_ofItems (.built nofun (inOrder_ofItems items)) h

theorem traced_nil : nil.Traced old made :=
  traced_of_parts nofun rfl nofun

/-- A builtin makes nothing but plain values and lists. -/
theorem traced_of_call {b : Builtin} {args : List Value} {v : Value} (h : b.call args = .ok v)
    (hargs : ∀ arg ∈ args, arg.Traced old made) : v.Traced old made := by
  cases Builtin.gives_of_call h with
  | argument hv => exact hargs v hv
  | list => exact traced_list hargs
  | nil => exact traced_nil
  | bool b => exact traced_of_parts nofun rfl nofun
  | number n => cases n <;> exact traced_of_parts nofun rfl nofun

end Value

/-- A name that is looked up with success is bound. -/
theorem Env.get?_of_lookup {env : Env} {s : Symbol} {v : Value} (h : Env.lookup env s = .ok v) :
    env.get? s = some v := by
  unfold Env.lookup at h
  split at h
  · next value hvalue =>
    cases h
    exact hvalue
  · cases h

/-- The functions of a host give nothing whose origin is unknown. -/
def Host.Traces (host : Host) (old : Value → Prop) : Prop :=
  ∀ (slot : Nat) (function : HostFunction), host[slot]? = some function →
    ∀ (made : List (Closure Value)) (args : List Value) (v : Value),
      (∀ arg ∈ args, arg.Traced old made) → function args = .ok v → v.Traced old made

namespace Eval

/-- The closures made since `base` was the next identity, in the order of their identities. -/
structure Fits (base : Nat) (made : List (Closure Value)) (w : World) : Prop where
  numbered : made.map Closure.identity = List.range' base made.length
  next : w.nextIdentity = base + made.length

/-- The closure that takes the next identity goes to the end of the row. -/
theorem Fits.concat {w w' : World} (h : Fits base made w) {f : Closure Value}
    (hf : f.identity = w.nextIdentity) (hw' : w'.nextIdentity = w.nextIdentity + 1) :
    Fits base (made ++ [f]) w' where
  numbered := by
    rw [List.map_append, h.numbered, List.map_singleton, hf, h.next, List.length_append,
      List.length_singleton, List.range'_concat, Nat.one_mul]
  next := by
    rw [hw', h.next, List.length_append, List.length_singleton, Nat.add_assoc]

/-- The evaluation only adds to the row of closures that were made, also when it fails; of the row and the result
afterwards something is known. -/
def Traces {α : Type} (base : Nat) (made : List (Closure Value))
    (post : List (Closure Value) → α → Prop) (run : Eval α) : Prop :=
  ∀ w, Fits base made w → match run w with
    | .ok a w' => ∃ made', made <+: made' ∧ Fits base made' w' ∧ post made' a
    | .error _ w' => ∃ made', made <+: made' ∧ Fits base made' w'

namespace Traces

variable {α β : Type} {post : List (Closure Value) → α → Prop} {post' : List (Closure Value) → β → Prop}

theorem pure {a : α} (h : post made a) : Traces base made post (pure a) :=
  fun _ hw => ⟨made, List.prefix_rfl, hw, h⟩

/-- An error leaves the row as it is. -/
theorem throw (e : Error) : Traces base made post (throw e) :=
  fun _ hw => ⟨made, List.prefix_rfl, hw⟩

/-- A computation without effects leaves the row as it is, so its result must be accounted for by itself. -/
theorem ofExcept {result : Except Error α} (h : ∀ a, result = .ok a → post made a) :
    Traces base made post (ofExcept result) := by
  cases result with
  | ok a => exact .pure (h a rfl)
  | error e => exact .throw e

theorem printLines (lines : List String) :
    Traces base made (fun made' _ => made' = made) (printLines lines) :=
  fun _ hw => ⟨made, List.prefix_rfl, ⟨hw.numbered, hw.next⟩, rfl⟩

/-- Evaluations that follow each other add to the row one after the other. -/
theorem bind {run : Eval α} {next : α → Eval β} (h : Traces base made post run)
    (hnext : ∀ made₁ a, made <+: made₁ → post made₁ a → Traces base made₁ post' (next a)) :
    Traces base made post' (run >>= next) := by
  intro w hw
  have hrun := h w hw
  show match EStateM.bind run next w with
    | .ok b w' => ∃ made', made <+: made' ∧ Fits base made' w' ∧ post' made' b
    | .error _ w' => ∃ made', made <+: made' ∧ Fits base made' w'
  -- both ways to fail leave a longer row: in the first evaluation, or in what follows it
  unfold EStateM.bind
  cases hresult : run w with
  | error e w₁ =>
    rw [hresult] at hrun
    exact hrun
  | ok a w₁ =>
    rw [hresult] at hrun
    obtain ⟨made₁, hgrows, hw₁, ha⟩ := hrun
    have hrest := hnext made₁ a hgrows ha w₁ hw₁
    dsimp only
    split
    · next b w₂ hb =>
      rw [hb] at hrest
      obtain ⟨made₂, hgrows₂, hw₂, hpost⟩ := hrest
      exact ⟨made₂, hgrows.trans hgrows₂, hw₂, hpost⟩
    · next e w₂ he =>
      rw [he] at hrest
      obtain ⟨made₂, hgrows₂, hw₂⟩ := hrest
      exact ⟨made₂, hgrows.trans hgrows₂, hw₂⟩

end Traces

/-- A value and an environment in which everything has an origin. -/
def Accounted (old : Value → Prop) (made : List (Closure Value)) (result : Value × Env) : Prop :=
  result.1.Traced old made ∧ Env.Traced old made result.2

/-- An evaluator that gives nothing whose origin is unknown. -/
def Tracing (base : Nat) (old : Value → Prop) (ev : Evaluator) : Prop :=
  ∀ made form env, form.Traced old made → Env.Traced old made env →
    Traces base made (Accounted old) (ev form env)

namespace Tracing

variable {ev : Evaluator} (hev : Tracing base old ev) {env : Env}

include hev

/-! ## One rule at a time -/

/-- Forms in turn give values that are all accounted for: those of the first forms stay so while the row grows.
-/
theorem each {forms : List Value} (hforms : ∀ form ∈ forms, form.Traced old made)
    (henv : Env.Traced old made env) :
    Traces base made (fun made' result =>
      (∀ v ∈ result.1, v.Traced old made') ∧ Env.Traced old made' result.2) (each ev forms env) := by
  induction forms generalizing made env with
  | nil => exact .pure ⟨by simp, henv⟩
  | cons form forms ih =>
    obtain ⟨hform, hforms⟩ := List.forall_mem_cons.1 hforms
    refine .bind (hev made form env hform henv) ?_
    intro made₁ ⟨value, env₁⟩ hgrows ⟨hvalue, henv₁⟩
    refine .bind (ih (fun v hv => (hforms v hv).mono hgrows) henv₁) ?_
    intro made₂ ⟨values, env₂⟩ hgrows₂ ⟨hvalues, henv₂⟩
    exact .pure ⟨List.forall_mem_cons.2 ⟨hvalue.mono hgrows₂, hvalues⟩, henv₂⟩

/-- The forms of a body are evaluated in turn, and the last value is accounted for. -/
theorem bodyFrom {value : Value} {forms : List Value} (hvalue : value.Traced old made)
    (hforms : ∀ form ∈ forms, form.Traced old made) (henv : Env.Traced old made env) :
    Traces base made (Accounted old) (bodyFrom ev value forms env) := by
  induction forms generalizing made value env with
  | nil => exact .pure ⟨hvalue, henv⟩
  | cons form forms ih =>
    obtain ⟨hform, hforms⟩ := List.forall_mem_cons.1 hforms
    refine .bind (hev made form env hform henv) ?_
    intro made₁ ⟨value₁, env₁⟩ hgrows ⟨hvalue₁, henv₁⟩
    exact ih hvalue₁ (fun v hv => (hforms v hv).mono hgrows) henv₁

/-- The entries of a map literal stay in order, and what their keys and values gave is accounted for. -/
theorem entries {items done : List (Value × Value)}
    (hitems : ∀ item ∈ items, item.1.Traced old made ∧ item.2.Traced old made)
    (horder : (Value.map done).inOrder = true)
    (hdone : ∀ entry ∈ done, entry.1.Traced old made ∧ entry.2.Traced old made)
    (henv : Env.Traced old made env) :
    Traces base made (fun made' result =>
      (Value.map result.1).Traced old made' ∧ Env.Traced old made' result.2)
      (entries ev done items env) := by
  induction items generalizing made done env with
  | nil => exact .pure ⟨Value.deeply_map (.built nofun horder) hdone, henv⟩
  | cons item rest ih =>
    obtain ⟨keyForm, valueForm⟩ := item
    obtain ⟨⟨hkeyForm, hvalueForm⟩, hrest⟩ := List.forall_mem_cons.1 hitems
    refine .bind (hev made keyForm env hkeyForm henv) ?_
    intro made₁ ⟨key, env₁⟩ hgrows₁ ⟨hkey, henv₁⟩
    refine .bind (hev made₁ valueForm env₁ (hvalueForm.mono hgrows₁) henv₁) ?_
    intro made₂ ⟨value, env₂⟩ hgrows₂ ⟨hvalue, henv₂⟩
    have hgrows := hgrows₁.trans hgrows₂
    dsimp only
    split
    · exact .throw _
    · apply ih
      · intro item hitem
        exact ⟨(hrest item hitem).1.mono hgrows, (hrest item hitem).2.mono hgrows⟩
      · -- inserting keeps the order
        exact decide_eq_true (Sorted.increasing_insert _ (of_decide_eq_true horder))
      · intro entry hentry
        rcases Sorted.mem_of_mem_insert hentry with rfl | hentry
        · exact ⟨hkey.mono hgrows₂, hvalue⟩
        · exact ⟨(hdone entry hentry).1.mono hgrows, (hdone entry hentry).2.mono hgrows⟩
      · exact henv₂

/-! ## Application -/

omit hev in
/-- A call sees the environments of the caller and of the closure, its arguments, and a list of the rest of
them. -/
theorem traced_callEnv {f : Closure Value} (hf : (Value.fn f).Traced old made) {args : List Value}
    (hargs : ∀ arg ∈ args, arg.Traced old made) {caller : Env} (hcaller : Env.Traced old made caller) :
    Env.Traced old made (callEnv f args caller) := by
  have hcaptured : Env.Traced old made f.env := by
    intro entry hentry
    exact hf.part (Value.mem_parts_fn.2 (.inr ⟨entry, hentry, rfl⟩))
  have hbound := Env.Deeply.bind (Env.Deeply.merge hcaller hcaptured) f.params hargs
  unfold callEnv
  dsimp only
  split
  · exact hbound
  · apply Env.Deeply.insert hbound
    exact Value.traced_list fun arg harg => hargs arg (List.mem_of_mem_drop harg)

/-- The body and the captured values of a closure are parts of it, so a call brings in nothing new. -/
theorem applyClosure {f : Closure Value} (hf : (Value.fn f).Traced old made) {args : List Value}
    (hargs : ∀ arg ∈ args, arg.Traced old made) (henv : Env.Traced old made env) :
    Traces base made (fun made' v => v.Traced old made') (applyClosure ev f args env) := by
  -- the closure may be older than the call, but what it is made of has an origin as it has
  have hbody : ∀ form ∈ f.body, form.Traced old made := by
    intro form hform
    exact hf.part (Value.mem_parts_fn.2 (.inl hform))
  unfold Eval.applyClosure
  split
  · refine .bind (hev.bodyFrom Value.traced_nil hbody (traced_callEnv hf hargs henv)) ?_
    intro made₁ ⟨value, inner⟩ _ ⟨hvalue, _⟩
    exact .pure hvalue
  · exact .throw _

omit hev in
/-- Builtins build values in order, and functions of the host are asked to keep the account. -/
theorem applyNative {host : Host} (hhost : host.Traces old) (f : Native) {args : List Value}
    (hargs : ∀ arg ∈ args, arg.Traced old made) :
    Traces base made (fun made' v => v.Traced old made') (applyNative host f args) := by
  unfold Eval.applyNative
  split
  · refine .bind (.printLines _) ?_
    intro made₁ _ hgrows _
    exact .ofExcept fun v hv => Value.traced_of_call hv fun arg harg => (hargs arg harg).mono hgrows
  · split
    · next slot _ function hslot =>
      exact .ofExcept fun v hv => hhost _ function hslot made args v hargs hv
    · exact .throw _

theorem apply {host : Host} (hhost : host.Traces old) {f : Value} (hf : f.Traced old made)
    {args : List Value} (hargs : ∀ arg ∈ args, arg.Traced old made) (henv : Env.Traced old made env) :
    Traces base made (fun made' v => v.Traced old made') (apply host ev f args env) := by
  cases f with
  | fn f => exact hev.applyClosure hf hargs henv
  | native f => exact applyNative hhost f hargs
  | _ => exact .throw _

/-! ## Special forms -/

/-- A definition gives its value and puts it into the environment. -/
theorem define {operands : List Value} (hoperands : ∀ v ∈ operands, v.Traced old made)
    (henv : Env.Traced old made env) :
    Traces base made (Accounted old) (define ev operands env) := by
  unfold Eval.define
  split
  · next name form =>
    refine .bind (hev made form env (hoperands form (by simp)) henv) ?_
    intro made₁ ⟨value, env₁⟩ _ ⟨hvalue, henv₁⟩
    exact .pure ⟨hvalue, Env.Deeply.insert henv₁ name hvalue⟩
  · exact .throw _
  · exact .throw _

/-- A conditional is evaluated in the environment that its condition leaves. -/
theorem branch {operands : List Value} (hoperands : ∀ v ∈ operands, v.Traced old made)
    (henv : Env.Traced old made env) :
    Traces base made (Accounted old) (branch ev operands env) := by
  unfold Eval.branch
  split
  · next condition yes =>
    refine .bind (hev made condition env (hoperands condition (by simp)) henv) ?_
    intro made₁ ⟨test, env₁⟩ hgrows ⟨_, henv₁⟩
    dsimp only
    split
    · exact hev made₁ yes env₁ ((hoperands yes (by simp)).mono hgrows) henv₁
    · exact .pure ⟨Value.traced_nil, henv₁⟩
  · next condition yes no =>
    refine .bind (hev made condition env (hoperands condition (by simp)) henv) ?_
    intro made₁ ⟨test, env₁⟩ hgrows ⟨_, henv₁⟩
    dsimp only
    split
    · exact hev made₁ yes env₁ ((hoperands yes (by simp)).mono hgrows) henv₁
    · exact hev made₁ no env₁ ((hoperands no (by simp)).mono hgrows) henv₁
  · exact .throw _

/-- Each local binding is evaluated with the ones before it bound. -/
theorem bindings {items : List Value} (hitems : ∀ v ∈ items, v.Traced old made)
    (henv : Env.Traced old made env) :
    Traces base made (fun made' env' => Env.Traced old made' env') (bindings ev items env) := by
  fun_induction Eval.bindings ev items env generalizing made with
  | case1 form rest env s ih =>
    refine .bind (hev made form env (hitems form (by simp)) henv) ?_
    intro made₁ ⟨value, env₁⟩ hgrows ⟨hvalue, henv₁⟩
    apply ih value env₁
    · intro v hv
      exact (hitems v (by simp [hv])).mono hgrows
    · exact Env.Deeply.insert henv₁ s hvalue
  | case2 => exact .throw _
  | case3 => exact .pure henv

theorem scope {operands : List Value} (hoperands : ∀ v ∈ operands, v.Traced old made)
    (henv : Env.Traced old made env) :
    Traces base made (Accounted old) (scope ev operands env) := by
  unfold Eval.scope
  split
  · next binders form forms =>
    obtain ⟨hbinders, hforms⟩ := List.forall_mem_cons.1 hoperands
    split
    · next items =>
      split
      · refine .bind (hev.bindings (fun v hv => hbinders.part hv) henv) ?_
        intro made₁ inner hgrows₁ hinner
        refine .bind (hev.bodyFrom Value.traced_nil (fun v hv => (hforms v hv).mono hgrows₁) hinner) ?_
        intro made₂ ⟨value, _⟩ hgrows₂ ⟨hvalue, _⟩
        -- the environment is the one before, with closures of the body among those made since
        exact .pure ⟨hvalue, henv.mono (hgrows₁.trans hgrows₂)⟩
      · exact .throw _
    · exact .throw _
  · exact .throw _

omit hev in
/-- A new closure takes the next identity and is added to the row. -/
theorem newClosure (params : Params) {body : List Value} (hbody : ∀ v ∈ body, v.Traced old made)
    (henv : Env.Traced old made env) :
    Traces base made (Accounted old) (do
      let identity ← newIdentity
      pure (.fn ⟨identity, params.positional, params.rest, body, env⟩, env)) := by
  intro w hw
  let f : Closure Value := ⟨w.nextIdentity, params.positional, params.rest, body, env⟩
  have hgrows : made <+: made ++ [f] := List.prefix_append made [f]
  have hf : (Value.fn f).Traced old (made ++ [f]) := by
    refine Value.deeply_iff.2 ⟨.made (by simp), ?_⟩
    intro part hpart
    rcases Value.mem_parts_fn.1 hpart with hpart | ⟨entry, hentry, rfl⟩
    · exact (hbody part hpart).mono hgrows
    · exact Value.Traced.mono (henv entry hentry) hgrows
  exact ⟨made ++ [f], hgrows, hw.concat rfl rfl, hf, henv.mono hgrows⟩

omit hev in
/-- A function form makes one closure, of forms and an environment that are accounted for. -/
theorem function {operands : List Value} (hoperands : ∀ v ∈ operands, v.Traced old made)
    (henv : Env.Traced old made env) :
    Traces base made (Accounted old) (function operands env) := by
  unfold Eval.function
  split
  · next binders form forms =>
    obtain ⟨-, hforms⟩ := List.forall_mem_cons.1 hoperands
    have hparams : Traces base made (fun _ _ => True) (ofExcept (Params.ofForm binders)) :=
      .ofExcept fun _ _ => trivial
    refine .bind hparams ?_
    intro made₁ params hgrows _
    exact newClosure params (fun v hv => (hforms v hv).mono hgrows) (henv.mono hgrows)
  · exact .throw _

theorem special (form : SpecialForm) {operands : List Value}
    (hoperands : ∀ v ∈ operands, v.Traced old made) (henv : Env.Traced old made env) :
    Traces base made (Accounted old) (special ev form operands env) := by
  cases form with
  | define => exact hev.define hoperands henv
  | branch => exact hev.branch hoperands henv
  | scope => exact hev.scope hoperands henv
  | function => exact function hoperands henv

/-! ## Forms -/

/-- A call is accounted for like the head, the operands and the application in turn. -/
theorem application {host : Host} (hhost : host.Traces old) {head : Value} {operands : List Value}
    (hhead : head.Traced old made) (hoperands : ∀ v ∈ operands, v.Traced old made)
    (henv : Env.Traced old made env) :
    Traces base made (Accounted old) (application host ev head operands env) := by
  unfold Eval.application
  split
  · next form _ => exact hev.special form hoperands henv
  · refine .bind (hev made head env hhead henv) ?_
    intro made₁ ⟨f, env₁⟩ hgrows₁ ⟨hf, henv₁⟩
    refine .bind (hev.each (fun v hv => (hoperands v hv).mono hgrows₁) henv₁) ?_
    intro made₂ ⟨args, env₂⟩ hgrows₂ ⟨hargs, henv₂⟩
    refine .bind (hev.apply hhost (hf.mono hgrows₂) hargs henv₂) ?_
    intro made₃ value hgrows₃ hvalue
    exact .pure ⟨hvalue, henv₂.mono hgrows₃⟩

/-- An evaluator of the parts that keeps the account makes one of whole forms. -/
theorem form {host : Host} (hhost : host.Traces old) : Tracing base old (form host ev) := by
  intro made form env hform henv
  unfold Eval.form
  split
  · next s =>
    -- a symbol gives what the environment has under it
    have hlookup : Traces base made (fun made' v => v.Traced old made') (ofExcept (Env.lookup env s)) :=
      .ofExcept fun value hvalue => Env.Deeply.get? henv (Env.get?_of_lookup hvalue)
    refine .bind hlookup ?_
    intro made₁ value hgrows hvalue
    exact .pure ⟨hvalue, henv.mono hgrows⟩
  · exact .pure ⟨hform, henv⟩
  · next head operands =>
    -- what a form is made of occurs in it
    have hitems : ∀ v ∈ head :: operands, v.Traced old made := fun v hv => hform.part hv
    obtain ⟨hhead, hoperands⟩ := List.forall_mem_cons.1 hitems
    exact hev.application hhost hhead hoperands henv
  · refine .bind (hev.each (fun v hv => hform.part hv) henv) ?_
    intro made₁ ⟨values, env₁⟩ _ ⟨hvalues, henv₁⟩
    exact .pure ⟨Value.traced_vector hvalues, henv₁⟩
  · refine .bind (hev.each (fun v hv => hform.part hv) henv) ?_
    intro made₁ ⟨values, env₁⟩ _ ⟨hvalues, henv₁⟩
    exact .pure ⟨Value.traced_ofItems hvalues, henv₁⟩
  · next items =>
    have hitems : ∀ item ∈ items, item.1.Traced old made ∧ item.2.Traced old made := by
      intro item hitem
      exact ⟨hform.part (Value.mem_parts_map.2 ⟨item, hitem, .inl rfl⟩),
        hform.part (Value.mem_parts_map.2 ⟨item, hitem, .inr rfl⟩)⟩
    refine .bind (hev.entries hitems rfl nofun henv) ?_
    intro made₁ ⟨done, env₁⟩ _ ⟨hdone, henv₁⟩
    exact .pure ⟨hdone, henv₁⟩
  · exact .pure ⟨hform, henv⟩

end Tracing

/-- Evaluation keeps the account at every depth. -/
theorem eval_traces {host : Host} (hhost : host.Traces old) (depth : Nat) :
    Tracing base old (eval host depth) := by
  induction depth with
  | zero => exact fun _ _ _ _ _ => .throw _
  | succ depth ih => exact ih.form hhost

end Eval

end SmallLisp

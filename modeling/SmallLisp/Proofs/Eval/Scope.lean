import SmallLisp.Proofs.Eval.Copies
import SmallLisp.Proofs.Eval.Depth
import SmallLisp.Proofs.Value.Relabel

/-!
# Local bindings as calls

A local binding can be written as the call of a function of one parameter where the function stands. The scope
evaluates all forms in one growing environment. The calls make a closure for each binding before its form is
evaluated, and lay the captured environment over that of the caller, which is the same one. So the closures made in
between get other numbers, in the same order, and what they capture is stored in another way. Values of both sides
are the same for every numbering of the closures yet to come (`Value.SameUpTo`), and each binding goes from such
environments to such environments (`Eval.immediateCall_corresponds`). Main statement:
`Eval.scope_corresponds_calls`.
-/

namespace SmallLisp

/-! ## The forms -/

namespace Value

/-- The form that binds names in turn for the forms of a body. -/
def scopeForm (binders : List (Symbol × Value)) (forms : List Value) : Value :=
  .list (.symbol ⟨"let"⟩ :: .vector (binders.flatMap fun binder => [.symbol binder.1, binder.2]) :: forms)

/-- The form that calls a function of one parameter where it is written. -/
def immediateCall (param : Symbol) (forms : List Value) (arg : Value) : Value :=
  .list [.list (.symbol ⟨"fn"⟩ :: .vector [.symbol param] :: forms), arg]

/-- The body that binds names by calls, each inside the function of the one before. -/
def nestedCalls (forms : List Value) : List (Symbol × Value) → List Value
  | [] => forms
  | (param, arg) :: rest => [immediateCall param (nestedCalls forms rest) arg]

theorem nestedCalls_ne_nil {forms : List Value} (h : forms ≠ []) (binders : List (Symbol × Value)) :
    nestedCalls forms binders ≠ [] := by
  cases binders with
  | nil => exact h
  | cons binder rest => exact List.cons_ne_nil _ _

end Value

/-! ## Numberings -/

/-- A numbering of closures that keeps their order. The old closures keep their numbers too, and each closure from
the number `next` on gets the number that comes by the given count later. -/
structure Numbering (old : Nat) (ι : Nat → Nat) (count next : Nat) : Prop where
  strictMono : StrictMono ι
  le : old ≤ next
  eq_self : ∀ i < old, ι i = i
  eq_add : ∀ i, next ≤ i → ι i = i + count

namespace Numbering

variable {old : Nat} {ι κ : Nat → Nat} {count next : Nat}

/-- Before anything is evaluated, all closures are old. -/
theorem refl (next : Nat) : Numbering next id 0 next :=
  ⟨strictMono_id, Nat.le_refl next, fun _ _ => rfl, fun _ _ => rfl⟩

theorem mono (h : Numbering old ι count next) {later : Nat} (hle : next ≤ later) : Numbering old ι count later :=
  ⟨h.strictMono, h.le.trans hle, h.eq_self, fun i hi => h.eq_add i (hle.trans hi)⟩

/-- However the closures to come are numbered, the old ones keep their numbers. -/
theorem eq_self_of_agree (h : Numbering old ι count next) (hagree : ∀ i < next, κ i = ι i) :
    ∀ i < old, κ i = i :=
  fun i hi => (hagree i (hi.trans_le h.le)).trans (h.eq_self i hi)

/-- One more number is left out. -/
theorem skip (h : Numbering old ι count next) :
    Numbering old (fun i => if i < next then ι i else i + (count + 1)) (count + 1) next where
  strictMono i j hij := by
    have hi := h.strictMono hij
    have hlater := h.eq_add j
    by_cases hnext : j < next
    · simpa only [if_pos hnext, if_pos (hij.trans hnext)] using hi
    · -- what is below the gap stays below the old number of the later closure
      dsimp only
      rw [if_neg hnext]
      split
      · omega
      · omega
  le := h.le
  eq_self i hi := (if_pos (hi.trans_le h.le)).trans (h.eq_self i hi)
  eq_add i hi := if_neg (Nat.not_lt.2 hi)

end Numbering

/-- Numberings that agree up to some numbers agree up to the least of them. -/
theorem agree_trans {ι κ μ : Nat → Nat} {next later : Nat} (hle : next ≤ later) (h : ∀ i < later, μ i = κ i)
    (h' : ∀ i < next, κ i = ι i) : ∀ i < next, μ i = ι i :=
  fun i hi => (h i (hi.trans_le hle)).trans (h' i hi)

/-! ## The same up to numbers -/

/-- Values that are the same when the closures of the first one are numbered anew, whatever numbers the closures from
the given number on get, and up to the way in which captured environments are stored. -/
def Value.SameUpTo (ι : Nat → Nat) (next : Nat) (v v' : Value) : Prop :=
  ∀ κ, StrictMono κ → (∀ i < next, κ i = ι i) → v.relabel κ = v'.relabel id

/-- Environments that bind the same names to values that are the same up to numbers. -/
def Env.SameUpTo (ι : Nat → Nat) (next : Nat) (env env' : Env) : Prop :=
  ∀ κ, StrictMono κ → (∀ i < next, κ i = ι i) → env.relabel κ = env'.relabel id

variable {ι κ : Nat → Nat} {next later : Nat}

namespace Value

/-- Values stay the same when the numbering goes on and more closures are left open. -/
theorem SameUpTo.mono {v v' : Value} (h : v.SameUpTo ι next v') (hle : next ≤ later)
    (hsame : ∀ i < next, κ i = ι i) : v.SameUpTo κ later v' :=
  fun μ hμ hagree => h μ hμ (agree_trans hle hagree hsame)

/-- A value is the same as itself when all its closures are numbered already. -/
theorem sameUpTo_of_below {v : Value} (h : v.Below next) : v.SameUpTo id next v :=
  fun _ _ hagree => relabel_congr v fun f hf => hagree f.identity (h f hf)

end Value

namespace Env

theorem SameUpTo.mono {env env' : Env} (h : SameUpTo ι next env env') (hle : next ≤ later)
    (hsame : ∀ i < next, κ i = ι i) : SameUpTo κ later env env' :=
  fun μ hμ hagree => h μ hμ (agree_trans hle hagree hsame)

theorem sameUpTo_of_below {env : Env} (h : Below next env) : SameUpTo id next env env :=
  fun _ _ hagree => relabel_congr env fun entry hentry f hf => hagree f.identity (h entry hentry f hf)

theorem relabel_insert (env : Env) (s : Symbol) (v : Value) :
    relabel ι (env.insert s v) = (relabel ι env).insert s (v.relabel ι) :=
  Bindings.rebuild_insert trivial env v

/-- Laying an environment over itself changes nothing. -/
theorem relabel_merge_self (env : Env) : relabel ι (env.merge env) = relabel ι env := by
  refine (Bindings.isSorted_rebuild _).eq_of_get?_eq (Bindings.isSorted_rebuild env) fun s => ?_
  have hmerged : (env.merge env).get? s = env.get? s := by
    rw [Bindings.get?_merge]
    cases env.get? s <;> rfl
  exact (get?_relabel _ s).trans (hmerged ▸ (get?_relabel env s).symm)

/-- What a call sees of its argument is what a local binding of it gives. -/
theorem SameUpTo.callEnv {env env' : Env} {v v' : Value} (h : SameUpTo ι next env env')
    (hv : v.SameUpTo ι next v') (number : Nat) (param : Symbol) (forms : List Value) :
    SameUpTo ι next (env.insert param v) (Eval.callEnv ⟨number, [param], none, forms, env'⟩ [v'] env') := by
  intro κ hκ hagree
  show relabel κ (env.insert param v) = relabel id ((env'.merge env').insert param v')
  rw [relabel_insert, relabel_insert, relabel_merge_self, h κ hκ hagree, hv κ hκ hagree]

end Env

/-! ## Evaluations of the same -/

/-- The functions of the host do not look at the numbers of closures from the given number on, and at the way in which
captured environments are stored. They may hold closures that were there before and give them. -/
def Host.IgnoresNumbers (host : Host) (next : Nat) : Prop :=
  ∀ ι (h : StrictMono ι), (∀ i < next, ι i = i) → (Image.relabeling ι h).Respected host

namespace Eval

variable {host : Host} {old count : Nat} {w : World} {env env' : Env}

/-- What two evaluations give is the same up to numbers, and the second one is ahead by the given count. -/
structure SameResult (ι : Nat → Nat) (count : Nat) (w : World) (result : Value × Env) (w₁ : World)
    (result' : Value × Env) (w₁' : World) : Prop where
  world : w₁' = w₁.shift count
  le : w.nextIdentity ≤ w₁.nextIdentity
  value : result.1.SameUpTo ι w₁.nextIdentity result'.1
  env : Env.SameUpTo ι w₁.nextIdentity result.2 result'.2

/-- Evaluations match if they have one image, however the closures to come are numbered. -/
theorem matching_of_alike {run run' image : Eval (Value × Env)} (hι : Numbering old ι count w.nextIdentity)
    (h : ∀ κ (hκ : StrictMono κ), (∀ i < w.nextIdentity, κ i = ι i) →
      Alike (.relabeling κ hκ) False run image)
    (h' : Alike (.relabeling id strictMono_id) False run' image) :
    Matching (SameResult ι count w) (run w) (run' (w.shift count)) := by
  have himage := (h ι hι.strictMono fun _ _ => rfl).image_eq hι.eq_add
  have himage' : image ((w.shift count).shift 0) = _ := h'.image_eq fun _ _ => rfl
  have hsame := himage.symm.trans himage'
  cases hrun : run w with
  | error e w₁ =>
    rw [hrun] at hsame
    cases hrun' : run' (w.shift count) with
    | error e' w₁' =>
      rw [hrun'] at hsame
      injection hsame with herror hworld
      have hprinted : (w₁.shift count).printed = (w₁'.shift 0).printed := congrArg World.printed hworld
      exact ⟨herror, hprinted⟩
    | ok result' w₁' =>
      rw [hrun'] at hsame
      cases hsame
  | ok result w₁ =>
    rw [hrun] at hsame
    cases hrun' : run' (w.shift count) with
    | error e' w₁' =>
      rw [hrun'] at hsame
      cases hsame
    | ok result' w₁' =>
      rw [hrun'] at hsame himage'
      injection hsame with _ hworld
      obtain ⟨hle, -, -⟩ := (h ι hι.strictMono fun _ _ => rfl).of_ok hrun
      -- the closures made here have their numbers, and those to come may get any
      have hresult : ∀ κ, StrictMono κ → (∀ i < w₁.nextIdentity, κ i = ι i) →
          Prod.map (Value.relabel κ) (Env.relabel κ) result =
            Prod.map (Value.relabel id) (Env.relabel id) result' := by
        intro κ hκ hagree
        obtain ⟨-, -, hκimage⟩ := (h κ hκ fun i hi => hagree i (hi.trans_le hle)).of_ok hrun
        have hshifts : Shifts (.relabeling κ hκ) count w w₁ :=
          fun i hi hi₁ => (hagree i hi₁).trans (hι.eq_add i hi)
        have hboth := (hκimage count hshifts).symm.trans himage'
        injection hboth
      exact ⟨hworld.symm, hle, fun κ hκ hagree => congrArg Prod.fst (hresult κ hκ hagree),
        fun κ hκ hagree => congrArg Prod.snd (hresult κ hκ hagree)⟩

/-- The forms of a body do the same in environments that are the same. -/
theorem body_matching (hhost : host.IgnoresNumbers old) (depth : Nat) (hι : Numbering old ι count w.nextIdentity)
    {forms : List Value} (hforms : ∀ form ∈ forms, form.SameUpTo ι w.nextIdentity form)
    (henv : Env.SameUpTo ι w.nextIdentity env env') :
    Matching (SameResult ι count w) (body (eval host depth) forms env w)
      (body (eval host depth) forms env' (w.shift count)) := by
  have hcommutes : ∀ κ (hκ : StrictMono κ), (∀ i < old, κ i = i) → ∀ env : Env,
      Alike (.relabeling κ hκ) False (body (eval host depth) forms env)
        (body (eval host depth) (forms.map (Value.relabel κ)) (Env.relabel κ env)) := by
    intro κ hκ hold env
    have hreads : ∀ form ∈ forms, (Image.relabeling κ hκ).Reads form := fun _ _ _ hx => absurd trivial hx
    have hspares : (Image.relabeling κ hκ).SparesEnv env := fun _ hx => absurd trivial hx
    exact (eval_commutes (hhost κ hκ hold) (.inl rfl)).body hreads hspares
  refine matching_of_alike hι ?_ (hcommutes id strictMono_id (fun _ _ => rfl) env')
  intro κ hκ hagree
  have himages : forms.map (Value.relabel κ) = forms.map (Value.relabel id) :=
    List.map_congr_left fun form hform => hforms form hform κ hκ hagree
  rw [← himages, ← henv κ hκ hagree]
  exact hcommutes κ hκ (hι.eq_self_of_agree hagree) env

theorem body_singleton (ev : Evaluator) (form : Value) (env : Env) : body ev [form] env = ev form env :=
  bind_pure (ev form env)

/-- The same form does the same in environments that are the same, and leaves them if it defines nothing. -/
theorem eval_matching (hhost : host.IgnoresNumbers old) (depth : Nat) (hι : Numbering old ι count w.nextIdentity)
    {form : Value} (hform : form.SameUpTo ι w.nextIdentity form) (hdefs : form.defs = [])
    (henv : Env.SameUpTo ι w.nextIdentity env env') :
    Matching (fun result w₁ result' w₁' =>
        SameResult ι count w result w₁ result' w₁' ∧ result.2 = env ∧ result'.2 = env')
      (eval host depth form env w) (eval host depth form env' (w.shift count)) := by
  -- a single form is a body of one form, for which the two runs correspond
  have hforms : ∀ other ∈ [form], other.SameUpTo ι w.nextIdentity other := by
    intro other hother
    rwa [List.mem_singleton.1 hother]
  have hmatching := body_matching hhost depth hι hforms henv
  rw [body_singleton, body_singleton] at hmatching
  cases hrun : eval host depth form env w with
  | error e w₁ =>
    rw [hrun] at hmatching
    obtain ⟨w₁', hrun', hprinted⟩ := hmatching.exists_error'
    rw [hrun']
    exact ⟨rfl, hprinted⟩
  | ok result w₁ =>
    rw [hrun] at hmatching
    obtain ⟨result', w₁', hrun', hsame⟩ := hmatching.exists_ok'
    rw [hrun']
    -- the form defines nothing, so each run leaves its own environment unchanged
    exact ⟨hsame, (eval_extendsDefs host depth hrun).eq_of_nil hdefs,
      (eval_extendsDefs host depth hrun').eq_of_nil hdefs⟩

/-! ## Both ways to bind -/

/-- Binds names to forms in turn and gives the value of a body. -/
def inTurn (ev : Evaluator) (forms : List Value) : List (Symbol × Value) → Env → Eval Value
  | [], env => do
    let (value, _) ← body ev forms env
    pure value
  | (name, form) :: rest, env => do
    let (value, env) ← ev form env
    inTurn ev forms rest (env.insert name value)

/-- Evaluates an argument and passes it to a closure of one parameter. -/
def passed (ev : Evaluator) (f : Closure Value) (arg : Value) (env : Env) : Eval (Value × Env) := do
  let (v, env) ← ev arg env
  let (value, _) ← body ev f.body (callEnv f [v] env)
  pure (value, env)

/-- Binding names in turn settles, by induction on the bindings. -/
theorem settles_inTurn (forms : List Value) (binders : List (Symbol × Value)) (env : Env) :
    Settles fun depth => inTurn (eval host depth) forms binders env := by
  induction binders generalizing env with
  | nil => exact (settles_body host forms env).bind fun _ => settles_const _
  | cons binder rest ih => exact (settles_eval host binder.2 env).bind fun _ => ih _

theorem settles_passed (f : Closure Value) (arg : Value) (env : Env) :
    Settles fun depth => passed (eval host depth) f arg env :=
  (settles_eval host arg env).bind fun _ => (settles_body host f.body _).bind fun _ => settles_const _

/-- A scope form binds its names in turn: one binding after the other, and then the body. -/
theorem bindings_inTurn (ev : Evaluator) (forms : List Value) (binders : List (Symbol × Value)) (env : Env) :
    (do
      let inner ← bindings ev (binders.flatMap fun binder => [.symbol binder.1, binder.2]) env
      let (value, _) ← body ev forms inner
      pure value) = inTurn ev forms binders env := by
  induction binders generalizing env with
  | nil => exact pure_bind env _
  | cons binder rest ih =>
    show ((ev binder.2 env >>= fun result => bindings ev _ _) >>= _) = _
    rw [bind_assoc]
    exact congrArg (ev binder.2 env >>= ·) (funext fun result => ih _)

/-- A scope binds its names in turn and leaves the environment as it is. -/
theorem eval_scopeForm (depth : Nat) (binders : List (Symbol × Value)) {forms : List Value} (hforms : forms ≠ [])
    (env : Env) :
    eval host (depth + 1) (.scopeForm binders forms) env =
      (inTurn (eval host depth) forms binders env >>= fun value => pure (value, env)) := by
  obtain ⟨form, forms, rfl⟩ := List.exists_cons_of_ne_nil hforms
  have hlength : (binders.flatMap fun binder => [Value.symbol binder.1, binder.2]).length = binders.length * 2 := by
    rw [List.length_flatMap, ← List.sum_replicate_nat, ← List.map_const']
    rfl
  have heven : (binders.flatMap fun binder => [Value.symbol binder.1, binder.2]).length % 2 = 0 := by
    rw [hlength, Nat.mul_mod_left]
  have hhead : SpecialForm.ofHead? (.symbol ⟨"let"⟩) = some .scope := rfl
  rw [← bindings_inTurn, Value.scopeForm, eval_of_special hhead, bind_assoc]
  refine (if_pos heven).trans ?_
  simp only [bind_assoc, pure_bind]

theorem ofForm_singleton {param : Symbol} (h : param ≠ Symbol.ampersand) :
    Params.ofForm (.vector [.symbol param]) = .ok ⟨[param], none⟩ := by
  show Params.ofItems [.symbol param] = _
  rw [Params.ofItems, if_neg h]
  rfl

/-- A call where the function is written makes a closure first, and then passes it the argument. -/
theorem eval_immediateCall (depth : Nat) {param : Symbol} (hparam : param ≠ Symbol.ampersand) {forms : List Value}
    (hforms : forms ≠ []) (arg : Value) (env : Env) (w : World) :
    eval host (depth + 2) (.immediateCall param forms arg) env w =
      passed (eval host (depth + 1)) ⟨w.nextIdentity, [param], none, forms, env⟩ arg env (w.shift 1) := by
  obtain ⟨form, forms, rfl⟩ := List.exists_cons_of_ne_nil hforms
  have hhead : SpecialForm.ofHead? (.symbol ⟨"fn"⟩) = some .function := rfl
  have hfunction : eval host (depth + 1) _ env w = _ :=
    eval_function hhead (ofForm_singleton hparam) form forms env w
  have haccepts : Closure.accepts ⟨w.nextIdentity, [param], none, form :: forms, env⟩ 1 = true := rfl
  refine (bind_of_ok hfunction).trans ?_
  simp only [each, bind_assoc, pure_bind, apply, applyClosure, List.length_singleton, if_pos haccepts]
  rfl

/-- An immediate call makes a closure, evaluates the argument and passes it. -/
theorem returns_immediateCall {param : Symbol} (hparam : param ≠ Symbol.ampersand) {forms : List Value}
    (hforms : forms ≠ []) (arg : Value) (env : Env) (w : World) (r : EStateM.Result Error World (Value × Env)) :
    Returns (fun depth => eval host depth (.immediateCall param forms arg) env) w r ↔
      Returns (fun depth => passed (eval host depth) ⟨w.nextIdentity, [param], none, forms, env⟩ arg env)
        (w.shift 1) r := by
  rw [← returns_add_iff (settles_eval host (.immediateCall param forms arg) env) 2,
    ← returns_add_iff (settles_passed _ arg env) 1]
  exact returns_congr fun depth => eval_immediateCall depth hparam hforms arg env w

/-- A scope form gives what binding the names in turn gives, and leaves the environment as it was. -/
theorem returns_scopeForm (binders : List (Symbol × Value)) {forms : List Value} (hforms : forms ≠ []) (env : Env)
    (w : World) (r : EStateM.Result Error World (Value × Env)) :
    Returns (fun depth => eval host depth (.scopeForm binders forms) env) w r ↔
      Returns (fun depth => inTurn (eval host depth) forms binders env >>= fun value => pure (value, env)) w r := by
  rw [← returns_add_iff (settles_eval host (.scopeForm binders forms) env) 1]
  exact returns_congr fun depth => congrFun (eval_scopeForm depth binders hforms env) w

/-! ## One binding after the other -/

/-- Values that are the same when the closures made since the given number are numbered anew, in the same order,
after the same lines were printed. -/
structure SameValue (ι : Nat → Nat) (next : Nat) (v : Value) (w : World) (v' : Value) (w' : World) : Prop where
  printed : w.printed = w'.printed
  value : ∃ κ, StrictMono κ ∧ (∀ i < next, κ i = ι i) ∧ v.relabel κ = v'.relabel id

/-- Values that are the same under a later numbering are the same under the one it goes on from. -/
theorem SameValue.mono {v v' : Value} {w' : World} (h : SameValue κ later v w v' w') (hle : next ≤ later)
    (hsame : ∀ i < next, κ i = ι i) : SameValue ι next v w v' w' := by
  obtain ⟨hprinted, μ, hμ, hagree, hvalue⟩ := h
  exact ⟨hprinted, μ, hμ, agree_trans hle hagree hsame, hvalue⟩

/-- Binding names in turn for a body corresponds to another body, from all environments that are the same and for
all numberings that go on from the given one. -/
def Simulates (host : Host) (old : Nat) (ι : Nat → Nat) (next : Nat) (forms : List Value)
    (binders : List (Symbol × Value)) (calls : List Value) : Prop :=
  ∀ (κ : Nat → Nat) (count : Nat) (w : World) (env env' : Env), next ≤ w.nextIdentity →
    (∀ i < next, κ i = ι i) → Numbering old κ count w.nextIdentity → Env.SameUpTo κ w.nextIdentity env env' →
    Corresponds (fun v w₁ result w₁' => SameValue κ w.nextIdentity v w₁ result.1 w₁')
      (fun depth => inTurn (eval host depth) forms binders env) w
      (fun depth => body (eval host depth) calls env') (w.shift count)

/-- What is simulated for a numbering is simulated for those that go on from it. -/
theorem Simulates.mono {forms calls : List Value} {binders : List (Symbol × Value)}
    (h : Simulates host old ι next forms binders calls) (hle : next ≤ later) (hsame : ∀ i < next, κ i = ι i) :
    Simulates host old κ later forms binders calls := by
  intro μ count w env env' hlater hagree hμ henv
  exact h μ count w env env' (hle.trans hlater) (agree_trans hle hagree hsame) hμ henv

/-- Without binders the two sides are the same body in environments that are the same. -/
theorem simulates_body (hhost : host.IgnoresNumbers old) {forms : List Value}
    (hforms : ∀ form ∈ forms, form.SameUpTo ι next form) : Simulates host old ι next forms [] forms := by
  intro κ count w env env' hle hagree hκ henv
  have hforms' : ∀ form ∈ forms, form.SameUpTo κ w.nextIdentity form :=
    fun form hform => (hforms form hform).mono hle hagree
  have hbody := Corresponds.of_forall_depth fun depth => body_matching hhost depth hκ hforms' henv
  refine hbody.map_left (settles_body host forms env) (settles_body host forms env') Prod.fst ?_
  intro result w₁ result' w₁' hresult
  obtain ⟨rfl, -, hvalue, -⟩ := hresult
  exact ⟨rfl, κ, hκ.strictMono, fun _ _ => rfl, hvalue κ hκ.strictMono fun _ _ => rfl⟩

/-- A binding corresponds to a call whose function has a body that does what comes after the binding. The closure of
the call is made first, so that all later ones get numbers that are greater by one. -/
theorem immediateCall_corresponds (hhost : host.IgnoresNumbers old) {forms inner : List Value}
    {binders : List (Symbol × Value)} (hinner : inner ≠ []) {param : Symbol} (hparam : param ≠ Symbol.ampersand)
    {arg : Value} (hdefs : arg.defs = []) (harg : arg.SameUpTo ι w.nextIdentity arg)
    (hrest : Simulates host old ι w.nextIdentity forms binders inner) (hι : Numbering old ι count w.nextIdentity)
    (henv : Env.SameUpTo ι w.nextIdentity env env') :
    Corresponds
      (fun v w₁ result w₁' => SameValue ι w.nextIdentity v w₁ result.1 w₁' ∧ result.2 = env')
      (fun depth => inTurn (eval host depth) forms ((param, arg) :: binders) env) w
      (fun depth => eval host depth (.immediateCall param inner arg) env') (w.shift count) := by
  have hκ := hι.skip
  have hagree : ∀ i < w.nextIdentity, (if i < w.nextIdentity then ι i else i + (count + 1)) = ι i :=
    fun i hi => if_pos hi
  -- the closure of the call has its number already when the argument is evaluated
  have hargs := Corresponds.of_forall_depth fun depth =>
    eval_matching hhost depth hκ (harg.mono (Nat.le_refl _) hagree) hdefs (henv.mono (Nat.le_refl _) hagree)
  refine Corresponds.congr ?_ (fun _ => Iff.rfl) (returns_immediateCall hparam hinner arg env' (w.shift count))
  refine hargs.bind (settles_eval host arg env) (settles_eval host arg env') (fun _ => settles_inTurn forms binders _)
    (fun _ => (settles_body host inner _).bind fun _ => settles_const _) ?_
  -- the argument defines nothing, so the caller's environment is the one that the closure captured
  rintro ⟨v, after⟩ w₁ ⟨v', after'⟩ w₁' ⟨hresult, rfl, rfl⟩
  obtain ⟨rfl, hle, hvalue, hafter⟩ := hresult
  have hnext := hrest _ (count + 1) w₁ _ _ hle hagree (hκ.mono hle)
    (hafter.callEnv hvalue (w.shift count).nextIdentity param inner)
  refine hnext.map_right (settles_inTurn forms binders _) (settles_body host inner _) (fun result => (result.1, after'))
    ?_
  intro value w₂ result w₂' hsame
  exact ⟨hsame.mono hle hagree, rfl⟩

/-- By induction on the binders, each of them is one more call around the rest. -/
theorem simulates_nestedCalls (hhost : host.IgnoresNumbers old) {forms : List Value} (hne : forms ≠ [])
    (hforms : ∀ form ∈ forms, form.SameUpTo ι next form) {binders : List (Symbol × Value)}
    (hbinders : ∀ binder ∈ binders, binder.1 ≠ Symbol.ampersand ∧ binder.2.defs = [] ∧
      binder.2.SameUpTo ι next binder.2) :
    Simulates host old ι next forms binders (Value.nestedCalls forms binders) := by
  induction binders with
  | nil => exact simulates_body hhost hforms
  | cons binder rest ih =>
    obtain ⟨⟨hparam, hdefs, harg⟩, hbinders⟩ := List.forall_mem_cons.1 hbinders
    intro κ count w env env' hle hagree hκ henv
    have hinner := Value.nestedCalls_ne_nil hne rest
    have hrest : Simulates host old κ w.nextIdentity forms rest (Value.nestedCalls forms rest) :=
      (ih hbinders).mono hle hagree
    have hcall := immediateCall_corresponds hhost hinner hparam hdefs (harg.mono hle hagree) hrest hκ henv
    simp only [Value.nestedCalls, body_singleton]
    exact hcall.mono fun _ _ _ _ h => h.1

/-- Local bindings agree with calls. Binding names in turn for a body does what the nested calls of functions of one
parameter do that are applied where they are written. If either evaluation returns then so does the other: with the
same error, or with values that are the same when the closures made since are numbered anew, in the same order, and
up to captured environments with equal bindings. Both print the same lines and leave the environment as it was. The
forms of the bindings must not define anything, and the closures that are there must have been made before. The
functions of the host may hold such closures, but must not look at the numbers of later ones. -/
theorem scope_corresponds_calls (host : Host) (first : Symbol × Value) (rest : List (Symbol × Value))
    (forms : List Value) (env : Env) (w : World) (hhost : host.IgnoresNumbers w.nextIdentity)
    (hne : forms ≠ [])
    (hparams : ∀ binder ∈ first :: rest, binder.1 ≠ Symbol.ampersand)
    (hdefs : ∀ binder ∈ first :: rest, binder.2.defs = [])
    (hargs : ∀ binder ∈ first :: rest, binder.2.Below w.nextIdentity)
    (hforms : ∀ form ∈ forms, form.Below w.nextIdentity) (henv : Env.Below w.nextIdentity env) :
    Corresponds
      (fun result w₁ result' w₁' => result.2 = env ∧ result'.2 = env ∧ w₁.printed = w₁'.printed ∧
        ∃ ι, StrictMono ι ∧ (∀ i < w.nextIdentity, ι i = i) ∧ result.1.relabel ι = result'.1.relabel id)
      (fun depth => eval host depth (.scopeForm (first :: rest) forms) env) w
      (fun depth => eval host depth (.immediateCall first.1 (Value.nestedCalls forms rest) first.2) env) w := by
  have hbinders : ∀ binder ∈ first :: rest, binder.1 ≠ Symbol.ampersand ∧ binder.2.defs = [] ∧
      binder.2.SameUpTo id w.nextIdentity binder.2 :=
    fun binder hbinder => ⟨hparams binder hbinder, hdefs binder hbinder,
      Value.sameUpTo_of_below (hargs binder hbinder)⟩
  obtain ⟨⟨hparam, hdefs, harg⟩, hbinders⟩ := List.forall_mem_cons.1 hbinders
  have hforms' : ∀ form ∈ forms, form.SameUpTo id w.nextIdentity form :=
    fun form hform => Value.sameUpTo_of_below (hforms form hform)
  have hcall := immediateCall_corresponds hhost (Value.nestedCalls_ne_nil hne rest) hparam hdefs harg
    (simulates_nestedCalls hhost hne hforms' hbinders) (.refl w.nextIdentity) (Env.sameUpTo_of_below henv)
  refine Corresponds.congr ?_ (returns_scopeForm (first :: rest) hne env w) fun _ => Iff.rfl
  refine hcall.map_left (settles_inTurn forms (first :: rest) env) (settles_eval host _ env)
    (fun value => (value, env)) ?_
  rintro v w₁ result w₁' ⟨⟨hprinted, hvalue⟩, henv⟩
  exact ⟨rfl, henv, hprinted, hvalue⟩

/-- A name is bound twice, the second time to a closure that captures its first value. The body gives that closure, one
that captures it, and the closure that a function of the host holds. -/
theorem scope_corresponds_calls_rebound :
    let x : Symbol := ⟨"x"⟩
    let f : Value := .list [.symbol ⟨"fn"⟩, .vector [.symbol ⟨"y"⟩], .symbol x]
    let forms : List Value :=
      [.vector [.symbol x, .list [.symbol ⟨"fn"⟩, .vector [], .symbol x], .list [.symbol ⟨"held"⟩]]]
    let g : Closure Value := ⟨0, [], none, [.int 7], Bindings.empty⟩
    let host : Host := #[fun _ => .ok (.fn g)]
    let env : Env := ⟨[(⟨"g"⟩, .fn g), (⟨"held"⟩, .native ⟨"held", .host 0⟩)]⟩
    let first : Value := .fn ⟨1, [⟨"y"⟩], none, [.symbol x], env.insert x (.int 1)⟩
    let second : Value := .fn ⟨2, [], none, [.symbol x], env.insert x first⟩
    host.IgnoresNumbers 1 ∧ x ≠ Symbol.ampersand ∧ f.defs = [] ∧ f.Below 1 ∧ (∀ form ∈ forms, form.Below 1) ∧
      Env.Below 1 env ∧
      ∃ v w, Returns (fun depth => eval host depth (.immediateCall x (Value.nestedCalls forms [(x, f)]) (.int 1)) env)
          ⟨1, #[]⟩ (.ok (v, env) w) ∧
        ∃ ι, StrictMono ι ∧ ι 0 = 0 ∧ Value.relabel ι (.vector [first, second, .fn g]) = v.relabel id := by
  intro x f forms g host env first second
  have hhost : host.IgnoresNumbers 1 := by
    intro ι hι hold _ slot function hslot args
    -- the closure that the function holds is old and keeps its number
    have hheld : Value.relabel ι (.fn g) = .fn g := by
      show Value.fn ⟨ι 0, [], none, [.int 7], Bindings.empty⟩ = .fn g
      rw [hold 0 Nat.one_pos]
    cases slot with
    | zero =>
      obtain rfl := Option.some.inj hslot
      exact congrArg Except.ok hheld.symm
    | succ slot => simp [host] at hslot
  have hx : x ≠ Symbol.ampersand := by decide
  have hclean : f.IsClean ∧ Value.IsClean (.int 1) ∧ Value.IsClean (.int 7) ∧ ∀ form ∈ forms, form.IsClean :=
    ⟨⟨by decide, by decide⟩, ⟨by decide, by decide⟩, ⟨by decide, by decide⟩,
      List.forall_mem_singleton.2 ⟨by decide, by decide⟩⟩
  obtain ⟨hf, hone, hseven, hforms⟩ := hclean
  have henv : Env.Below 1 env := by
    have hg : Value.Below 1 (.fn g) := by
      intro h hh
      cases hh with
      | self => exact Nat.one_pos
      | part hpart hh =>
        obtain rfl := List.mem_singleton.1 hpart
        exact hseven.below 1 h hh
    have hheld : Value.Below 1 (.native ⟨"held", .host 0⟩) := by
      intro h hh
      cases hh with
      | part hpart hh => cases hpart
    exact List.forall_mem_cons.2 ⟨hg, List.forall_mem_singleton.2 hheld⟩
  have hreturns : Returns (fun depth => eval host depth (.scopeForm [(x, .int 1), (x, f)] forms) env) ⟨1, #[]⟩
      (.ok (.vector [first, second, .fn g], env) ⟨3, #[]⟩) := by
    refine ⟨id, 4, ?_⟩
    simp only [x, f, forms, g, host, env, first, second]
    rfl
  have hcorresponds := scope_corresponds_calls host (x, .int 1) [(x, f)] forms env ⟨1, #[]⟩ hhost (by simp [forms])
    (by simp [hx]) (by decide) (by simp [hone.below, hf.below]) (fun form hform => (hforms form hform).below 1) henv
  obtain ⟨r, hr, hmatch⟩ := hcorresponds.left _ hreturns
  obtain ⟨⟨v, after⟩, w, rfl, -, rfl, -, ι, hι, hold, hvalue⟩ := hmatch.exists_ok'
  exact ⟨hhost, hx, by decide, hf.below 1, fun form hform => (hforms form hform).below 1, henv, v, w, hr, ι, hι,
    hold 0 Nat.one_pos, hvalue⟩

end Eval

end SmallLisp

import SmallLisp.Proofs.Eval.Depth

/-!
# Sequences of forms

A body evaluates its forms one after the other, each in the environment that the one before gave, and keeps the last
value. The function `do` has no rule of its own: it is looked up, its arguments are evaluated like those of every
function, and it gives the last one. Both go through the same environments (`Eval.bodyFrom_eq_each`), and `do` is
found before an argument can bind its name to something else. A body can be cut anywhere between its forms
(`Eval.bodyFrom_append`). Main statement: `Eval.sequence_agrees_body`.
-/

namespace SmallLisp

namespace Eval

variable {ev : Evaluator} {host : Host} {env : Env}

/-- A body gives the last of the values that its forms have, or what it started from. -/
theorem bodyFrom_eq_each (ev : Evaluator) (value : Value) (forms : List Value) (env : Env) :
    bodyFrom ev value forms env =
      each ev forms env >>= fun result => pure (result.1.getLast?.getD value, result.2) := by
  induction forms generalizing value env with
  | nil => rfl
  | cons form forms ih =>
    simp only [bodyFrom, each, ih, bind_assoc, pure_bind, List.getLast?_cons, Option.getD_some]

/-- A body in two parts: the second one goes on from the value and the environment of the first one. -/
theorem bodyFrom_append (ev : Evaluator) (value : Value) (xs ys : List Value) (env : Env) :
    bodyFrom ev value (xs ++ ys) env =
      bodyFrom ev value xs env >>= fun result => bodyFrom ev result.1 ys result.2 := by
  induction xs generalizing value env with
  | nil => rfl
  | cons form forms ih => simp only [List.cons_append, bodyFrom, ih, bind_assoc]

/-- Where there is a form, the value so far does not count. -/
theorem bodyFrom_of_ne_nil {ys : List Value} (h : ys ≠ []) (value : Value) (env : Env) :
    bodyFrom ev value ys env = body ev ys env := by
  cases ys with
  | nil => exact absurd rfl h
  | cons form forms => rfl

theorem body_append {ys : List Value} (h : ys ≠ []) (xs : List Value) (env : Env) :
    body ev (xs ++ ys) env = body ev xs env >>= fun result => body ev ys result.2 := by
  rw [body, bodyFrom_append]
  simp only [bodyFrom_of_ne_nil h]
  rfl

/-- The builtin `do` gives its last argument and prints nothing. -/
theorem apply_sequence (args : List Value) (env : Env) :
    apply host ev Builtin.sequence.toValue args env = pure (Builtin.last args) := by
  funext w
  show EStateM.Result.ok (Builtin.last args) { w with printed := w.printed ++ ([] : List String) } = _
  rw [Array.appendList_nil]
  rfl

/-- A `do` form is its body: the function is found in the environment before the first form is evaluated. -/
theorem eval_sequence (depth : Nat) (forms : List Value) (h : env.get? ⟨"do"⟩ = some Builtin.sequence.toValue) :
    eval host (depth + 2) (.list (.symbol ⟨"do"⟩ :: forms)) env = body (eval host (depth + 1)) forms env := by
  have hhead : eval host (depth + 1) (.symbol ⟨"do"⟩) env = pure (Builtin.sequence.toValue, env) := by
    show ofExcept (Env.lookup env ⟨"do"⟩) >>= (fun value => pure (value, env)) = _
    rw [Env.lookup, h]
    rfl
  show application host (eval host (depth + 1)) (.symbol ⟨"do"⟩) forms env = _
  simp only [application, show SpecialForm.ofHead? (.symbol ⟨"do"⟩) = none from rfl, hhead, pure_bind, apply_sequence,
    body, bodyFrom_eq_each, Builtin.last]

theorem returns_sequence_iff (forms : List Value) (h : env.get? ⟨"do"⟩ = some Builtin.sequence.toValue) {w : World}
    {r : EStateM.Result Error World (Value × Env)} :
    Returns (fun depth => eval host depth (.list (.symbol ⟨"do"⟩ :: forms)) env) w r ↔
      Returns (fun depth => body (eval host depth) forms env) w r := by
  rw [← returns_add_iff (settles_eval host _ env) 2, ← returns_add_iff (settles_body host forms env) 1]
  exact returns_congr fun depth => congrFun (eval_sequence depth forms h) w

/-- A body returns what its second part returns in the environment that its first part returned, or the error of
the first part. -/
theorem returns_body_append_iff {ys : List Value} (h : ys ≠ []) (xs : List Value) (env : Env) {w : World}
    {r : EStateM.Result Error World (Value × Env)} :
    Returns (fun depth => body (eval host depth) (xs ++ ys) env) w r ↔
      (∃ result w₁, Returns (fun depth => body (eval host depth) xs env) w (.ok result w₁) ∧
        Returns (fun depth => body (eval host depth) ys result.2) w₁ r) ∨
      ∃ e w₁, r = .error e w₁ ∧ Returns (fun depth => body (eval host depth) xs env) w (.error e w₁) := by
  simp only [body_append h]
  exact returns_bind_iff (settles_body host xs env) fun result => settles_body host ys result.2

theorem returns_body_append_of_ok {xs ys : List Value} {env' : Env} {v : Value} {w w' : World} (hne : ys ≠ [])
    (h : Returns (fun depth => body (eval host depth) xs env) w (.ok (v, env') w'))
    (r : EStateM.Result Error World (Value × Env)) :
    Returns (fun depth => body (eval host depth) (xs ++ ys) env) w r ↔
      Returns (fun depth => body (eval host depth) ys env') w' r := by
  rw [returns_body_append_iff hne]
  constructor
  · rintro (⟨result, w₁, hfirst, hrest⟩ | ⟨e, w₁, -, hfirst⟩)
    · cases hfirst.unique (settles_body host xs env) h
      exact hrest
    · cases hfirst.unique (settles_body host xs env) h
  · intro hrest
    exact .inl ⟨(v, env'), w', h, hrest⟩

/-- Forms that fail end the body, whatever stands after them. -/
theorem returns_body_append_of_error {xs : List Value} {e : Error} {w w' : World}
    (h : Returns (fun depth => body (eval host depth) xs env) w (.error e w')) (ys : List Value)
    (r : EStateM.Result Error World (Value × Env)) :
    Returns (fun depth => body (eval host depth) (xs ++ ys) env) w r ↔ r = .error e w' := by
  have hxs := settles_body host xs env
  by_cases hne : ys = []
  · rw [hne, List.append_nil]
    exact ⟨fun hr => hr.unique hxs h, fun hr => hr ▸ h⟩
  · rw [returns_body_append_iff hne]
    constructor
    · rintro (⟨result, w₁, hfirst, -⟩ | ⟨e', w₁, rfl, hfirst⟩)
      · cases hfirst.unique hxs h
      · exact hfirst.unique hxs h
    · rintro rfl
      exact .inr ⟨e, w', rfl, h⟩

/-- A body does not return unless its first forms do. -/
theorem exists_returns_of_append {xs ys : List Value} {w : World} {r : EStateM.Result Error World (Value × Env)}
    (h : Returns (fun depth => body (eval host depth) (xs ++ ys) env) w r) :
    ∃ r', Returns (fun depth => body (eval host depth) xs env) w r' := by
  by_cases hne : ys = []
  · rw [hne, List.append_nil] at h
    exact ⟨r, h⟩
  · rcases (returns_body_append_iff hne xs env).1 h with ⟨result, w₁, hfirst, -⟩ | ⟨e, w₁, -, hfirst⟩
    · exact ⟨_, hfirst⟩
    · exact ⟨_, hfirst⟩

/-- A `do` form returns what its forms return as a body, with the same value, environment, error and lines, whatever
the forms bind the name to. A body that goes on after some forms returns what the other forms return in the environment
after these, and their error if they fail; it returns only if they do. -/
theorem sequence_agrees_body (host : Host) (env : Env) :
    (env.get? ⟨"do"⟩ = some Builtin.sequence.toValue → ∀ (forms : List Value) (w : World) r,
      Returns (fun depth => eval host depth (.list (.symbol ⟨"do"⟩ :: forms)) env) w r ↔
        Returns (fun depth => body (eval host depth) forms env) w r) ∧
    ∀ (xs ys : List Value) (w : World),
      (∀ v env' w', ys ≠ [] → Returns (fun depth => body (eval host depth) xs env) w (.ok (v, env') w') →
        ∀ r, Returns (fun depth => body (eval host depth) (xs ++ ys) env) w r ↔
          Returns (fun depth => body (eval host depth) ys env') w' r) ∧
      (∀ e w', Returns (fun depth => body (eval host depth) xs env) w (.error e w') →
        ∀ r, Returns (fun depth => body (eval host depth) (xs ++ ys) env) w r ↔ r = .error e w') ∧
      ∀ r, Returns (fun depth => body (eval host depth) (xs ++ ys) env) w r →
        ∃ r', Returns (fun depth => body (eval host depth) xs env) w r' := by
  refine ⟨fun h forms w r => returns_sequence_iff forms h, fun xs ys w => ⟨?_, ?_, ?_⟩⟩
  · intro v env' w' hne hok
    exact returns_body_append_of_ok hne hok
  · intro e w' herror
    exact returns_body_append_of_error herror ys
  · intro r hr
    exact exists_returns_of_append hr

/-- The name `do` is bound to a number by a form of a `do`, which goes on. A form after it that calls the number
fails, and what was printed stays printed. -/
theorem sequence_agrees_body_rebound :
    let name : Value := .symbol ⟨"do"⟩
    let env : Env := ⟨[(⟨"do"⟩, Builtin.sequence.toValue), (⟨"println"⟩, Builtin.printLines.toValue)]⟩
    let xs : List Value := [.list [.symbol ⟨"def"⟩, name, .int 5], .list [.symbol ⟨"println"⟩, name], name]
    let after : Env := env.insert ⟨"do"⟩ (.int 5)
    let w : World := ⟨0, #["5"]⟩
    env.get? ⟨"do"⟩ = some Builtin.sequence.toValue ∧
      Returns (fun depth => eval #[] depth (.list (name :: xs)) env) {} (.ok (.int 5, after) w) ∧
      Returns (fun depth => eval #[] depth (.list (name :: (xs ++ [.list [name]]))) env) {}
        (.error (.notCallable "5") w) := by
  intro name env xs after w
  have hdo : env.get? ⟨"do"⟩ = some Builtin.sequence.toValue := rfl
  obtain ⟨hsequence, happend⟩ := sequence_agrees_body #[] env
  have hxs : Returns (fun depth => body (eval #[] depth) xs env) {} (.ok (.int 5, after) w) := by
    refine ⟨id, 3, ?_⟩
    simp only [name, env, xs, after, w]
    rfl
  have hys : Returns (fun depth => body (eval #[] depth) [.list [name]] after) w (.error (.notCallable "5") w) := by
    refine ⟨nofun, 3, ?_⟩
    simp only [name, env, after, w]
    rfl
  refine ⟨hdo, (hsequence hdo xs {} _).2 hxs, (hsequence hdo _ {} _).2 ?_⟩
  exact ((happend xs [.list [name]] {}).1 _ after w (List.cons_ne_nil _ _) hxs _).2 hys

end Eval

end SmallLisp

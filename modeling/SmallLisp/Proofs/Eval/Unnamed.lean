import SmallLisp.Proofs.Eval.Image
import SmallLisp.Proofs.Value.Forget

/-!
# A binding that nobody names cannot be observed

Every call merges the caller's bindings into those that the closure captured, so a new binding flows into
every call and every closure that is created from then on. It is seen only by a form that names it. Where
neither the form nor any function in reach names a symbol, evaluation commutes with forgetting the symbol
(`Eval.Forgets`), as it does with all images (`eval_commutes`). An environment and the same environment with the
symbol bound have one image. Main statement: `eval_insert_unnamed`.
-/

namespace SmallLisp

namespace Eval

/-! ## Evaluations that run alike -/

/-- Both evaluations do the same to the world and fail alike; the second gives the image of what the first
gives, of which something is known. -/
def Mirrors {α β : Type} (f : α → β) (P : α → Prop) (run : Eval α) (image : Eval β) : Prop :=
  ∀ w, match run w with
    | .ok a w' => image w = .ok (f a) w' ∧ P a
    | .error e w' => image w = .error e w'

namespace Mirrors

variable {α β : Type} {f : α → β} {P : α → Prop}

/-- Two evaluations with one image do the same to the world, and either both fail with the same error or give
results with one image. -/
theorem same_image {run run' : Eval α} {image : Eval β} (h : Mirrors f P run image)
    (h' : Mirrors f P run' image) (w : World) :
    match run w, run' w with
    | .ok a w₁, .ok b w₂ => w₁ = w₂ ∧ f a = f b
    | .error e w₁, .error e' w₂ => e = e' ∧ w₁ = w₂
    | _, _ => False := by
  have hw := h w
  have hw' := h' w
  cases hrun : run w with
  | ok a w₁ =>
    rw [hrun] at hw
    rw [hw.1] at hw'
    cases hrun' : run' w with
    | ok b w₂ =>
      rw [hrun'] at hw'
      injection hw'.1 with hresult hworld
      exact ⟨hworld, hresult⟩
    | error e w₂ =>
      rw [hrun'] at hw'
      cases hw'
  | error e w₁ =>
    rw [hrun] at hw
    rw [hw] at hw'
    cases hrun' : run' w with
    | ok b w₂ =>
      rw [hrun'] at hw'
      cases hw'.1
    | error e' w₂ =>
      rw [hrun'] at hw'
      injection hw' with herror hworld
      exact ⟨herror, hworld⟩

end Mirrors

/-- An evaluation and its image under forgetting a symbol run alike, and what it gives leads to no function
that names the symbol. -/
def Agrees (x : Symbol) (run image : Eval (Value × Env)) : Prop :=
  Mirrors (Prod.map (Value.forget x) (Env.forget x))
    (fun result => result.1.ignores x = true ∧ Env.ignores x result.2 = true) run image

/-- An evaluator that commutes with forgetting a symbol, on forms and environments that do not name it. -/
def Forgets (x : Symbol) (ev : Evaluator) : Prop :=
  ∀ ⦃form : Value⦄ ⦃env : Env⦄, form.Omits x → Env.ignores x env = true →
    Agrees x (ev form env) (ev (form.forget x) (Env.forget x env))

end Eval

/-- At every depth, evaluation commutes with forgetting a symbol that nothing in reach names. -/
theorem eval_forgets (x : Symbol) (host : Host) (depth : Nat) : Eval.Forgets x (eval host depth) := by
  have hx : ¬(Image.forgetting x).keeps x := fun h => h rfl
  have hhost : (Image.forgetting x).Respected host := fun hkeeps => absurd (hkeeps x) hx
  intro form env hform henv w
  have hreads : (Image.forgetting x).Reads form := by
    intro y hy
    rwa [not_not.1 hy]
  have hspares : (Image.forgetting x).SparesEnv env := by
    intro y hy
    rwa [not_not.1 hy]
  -- no closure gets another number, so nothing is shifted
  have hshifts : ∀ w w', Eval.Shifts (Image.forgetting x) 0 w w' := fun _ _ _ _ _ => rfl
  have htracks := eval_commutes hhost (.inl rfl : depth = depth ∨ False ∧ _) hreads hspares
  rw [Env.forget_eq_rebuild]
  cases hrun : eval host depth form env w with
  | ok result w' =>
    obtain ⟨-, ⟨hvalue, hafter⟩, himage⟩ := htracks.of_ok hrun
    refine ⟨?_, hvalue x hx, hafter x hx⟩
    rw [Prod.map, Env.forget_eq_rebuild]
    exact himage 0 (hshifts w w')
  | error e w' =>
    obtain ⟨-, ⟨hfalse, -⟩ | himage⟩ := htracks.of_error hrun
    · exact hfalse.elim
    · exact himage 0 (hshifts w w')

/-- A binding that nobody names cannot be observed. Where neither the form nor any function that can be
reached from it or from the environment names a symbol, other than to call for a special form, binding the
symbol to any value does not change what an evaluation prints, whether and how it fails, the value it gives or
the environment it leaves, up to what closures captured under that very symbol. -/
theorem eval_insert_unnamed (host : Host) (depth : Nat) {x : Symbol} {form : Value} {env : Env}
    (v : Value) (w : World) (hmentions : form.mentions x = false) (hignores : form.ignores x = true)
    (henv : Env.ignores x env = true) :
    match eval host depth form env w, eval host depth form (env.insert x v) w with
    | .ok (a, env₁) w₁, .ok (b, env₂) w₂ =>
      w₁ = w₂ ∧ a.print = b.print ∧ a.forget x = b.forget x ∧
        ∀ s, s ≠ x → (env₁.get? s).map (Value.forget x) = (env₂.get? s).map (Value.forget x)
    | .error e w₁, .error e' w₂ => e = e' ∧ w₁ = w₂
    | _, _ => False := by
  have hinsert : Env.ignores x (env.insert x v) = true := Env.ignores_insert henv fun hne => absurd rfl hne
  have hplain := eval_forgets x host depth ⟨hmentions, hignores⟩ henv
  have hbound := eval_forgets x host depth ⟨hmentions, hignores⟩ hinsert
  rw [Env.forget_insert_self] at hbound
  -- both environments have one image, and so do both evaluations
  have hsame := hplain.same_image hbound w
  split
  · next a env₁ w₁ b env₂ w₂ hrun hrun' =>
    rw [hrun, hrun'] at hsame
    obtain ⟨hworld, himage⟩ := hsame
    injection himage with hvalue hafter
    refine ⟨hworld, ?_, hvalue, ?_⟩
    · rw [← Value.print_forget (x := x) a, hvalue, Value.print_forget]
    · intro s hs
      have hget := Env.get?_forget (x := x) env₁ s
      rw [if_neg hs] at hget
      rw [← hget, hafter, Env.get?_forget, if_neg hs]
  · next hrun hrun' =>
    rw [hrun, hrun'] at hsame
    exact hsame
  · next hok herror =>
    split at hsame
    · next hrun hrun' => exact hok _ _ _ _ _ _ hrun hrun'
    · next hrun hrun' => exact herror _ _ _ _ hrun hrun'
    · exact hsame

/-- The name of a special form is bound, which neither a function of the environment nor a new closure that
captures the binding notices. -/
theorem eval_insert_unnamed_special_form :
    let symbol : String → Value := fun name => .symbol ⟨name⟩
    let choice : Value := .list [symbol "if", symbol "n", .int 1, .int 2]
    let env : Env := ⟨[(⟨"g"⟩, .fn ⟨0, [⟨"n"⟩], none, [choice], Bindings.empty⟩)]⟩
    let form : Value := .vector [.list [symbol "g", .bool true],
      .list [symbol "fn", .vector [symbol "m"], .list [symbol "g", symbol "m"]]]
    form.mentions ⟨"if"⟩ = false ∧ form.ignores ⟨"if"⟩ = true ∧ Env.ignores ⟨"if"⟩ env = true ∧
      ∃ b after, eval #[] 5 form (env.insert ⟨"if"⟩ (.int 0)) ⟨1, #[]⟩ = .ok (b, after) ⟨2, #[]⟩ ∧
        b.print = "[1 Function]" := by
  intro symbol choice env form
  have hmentions : form.mentions ⟨"if"⟩ = false := by decide
  have hignores : form.ignores ⟨"if"⟩ = true := by decide
  have henv : Env.ignores ⟨"if"⟩ env = true := by decide
  let created : Value := .fn ⟨1, [⟨"m"⟩], none, [.list [symbol "g", symbol "m"]], env⟩
  have hrun : eval #[] 5 form env ⟨1, #[]⟩ = .ok (.vector [.int 1, created], env) ⟨2, #[]⟩ := by
    simp only [form, created, env, choice, symbol]
    rfl
  have hsame := eval_insert_unnamed #[] 5 (.int 0) ⟨1, #[]⟩ hmentions hignores henv
  rw [hrun] at hsame
  refine ⟨hmentions, hignores, henv, ?_⟩
  split at hsame
  · next b env₂ w₂ hfirst hsecond =>
    cases hfirst
    obtain ⟨rfl, hprint, -⟩ := hsame
    exact ⟨b, env₂, hsecond, hprint.symm.trans (by decide +kernel)⟩
  · next hfirst _ => cases hfirst
  · exact hsame.elim

end SmallLisp

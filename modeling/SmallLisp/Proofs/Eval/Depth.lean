import SmallLisp.Proofs.Eval.Image

/-!
# Evaluations that return

The depth of an evaluation only bounds how deeply evaluations are nested: what is found without running into the
limit is found at every greater depth too (`Settles`). An evaluation returns a result if it gives it at some depth
(`Returns`), and then it returns no other one. Sequences return what their parts return one after the other
(`returns_bind_iff`), whatever depth each part needs. Two evaluations correspond if either of them returns whenever
the other does, with results that match (`Corresponds`).
-/

namespace SmallLisp

namespace Eval

variable {α β γ δ : Type}

/-- The result of an evaluation that ran into the limit. -/
def IsLimit : EStateM.Result Error World α → Prop
  | .ok _ _ => False
  | .error e _ => e = .nestingLimit

/-- At a greater depth an evaluation gives the same result, unless it ran into the limit. -/
def Settles (run : Nat → Eval α) : Prop :=
  ∀ depth depth', depth ≤ depth' → ∀ w, IsLimit (run depth w) ∨ run depth' w = run depth w

/-- An evaluation gives a result at some depth, other than by running into the limit. -/
def Returns (run : Nat → Eval α) (w : World) (r : EStateM.Result Error World α) : Prop :=
  ¬IsLimit r ∧ ∃ depth, run depth w = r

/-! ## More depth -/

theorem settles_const (run : Eval α) : Settles fun _ => run :=
  fun _ _ _ _ => .inr rfl

/-- Evaluations that settle settle one after the other. -/
theorem Settles.bind {run : Nat → Eval α} {next : Nat → α → Eval β} (h : Settles run)
    (hnext : ∀ a, Settles fun depth => next depth a) : Settles fun depth => run depth >>= next depth := by
  intro depth depth' hle w
  cases hrun : run depth w with
  | ok a w₁ =>
    have hrun' : run depth' w = .ok a w₁ := by
      rcases h depth depth' hle w with hlimit | hsame
      · rw [hrun] at hlimit
        exact hlimit.elim
      · rw [hsame, hrun]
    rcases hnext a depth depth' hle w₁ with hlimit | hsame
    · exact .inl (cast (congrArg IsLimit (bind_of_ok hrun).symm) hlimit)
    · exact .inr ((bind_of_ok hrun').trans (hsame.trans (bind_of_ok hrun).symm))
  | error e w₁ =>
    rcases h depth depth' hle w with hlimit | hsame
    · rw [hrun] at hlimit
      exact .inl (cast (congrArg IsLimit (bind_of_error hrun).symm) hlimit)
    · exact .inr ((bind_of_error (hsame.trans hrun)).trans (bind_of_error hrun).symm)

/-- A family whose runs track each other as they get deeper settles. -/
theorem Tracks.settles {run : Nat → Eval α} {P : α → Prop}
    (h : ∀ depth depth', depth ≤ depth' → Tracks .id True id P (run depth) (run depth')) : Settles run := by
  intro depth depth' hle w
  have hshifts : ∀ w', Shifts .id 0 w w' := fun _ _ _ _ => rfl
  cases hrun : run depth w with
  | ok a w' =>
    obtain ⟨-, -, hsame⟩ := (h depth depth' hle).of_ok hrun
    exact .inr (hsame 0 (hshifts w'))
  | error e w' =>
    obtain ⟨-, ⟨-, hlimit⟩ | hsame⟩ := (h depth depth' hle).of_error hrun
    · exact .inl hlimit
    · exact .inr (hsame 0 (hshifts w'))

theorem respected_id (host : Host) : Image.id.Respected host := by
  intro _ slot function _ args
  have hmap : ∀ result : Except Error Value, result.map Image.id.value = result := by
    intro result
    cases result <;> rfl
  rw [hmap]
  exact congrArg function (List.map_id args)

/-- At a greater depth evaluation goes on alike until the first one runs into the limit. -/
theorem commutes_of_le (host : Host) {depth depth' : Nat} (h : depth ≤ depth') :
    Commutes .id True (eval host depth) (eval host depth') :=
  eval_commutes (respected_id host) (.inr ⟨trivial, h⟩)

/-- More depth does not change the result of an evaluation that did not run into the limit. -/
theorem settles_eval (host : Host) (form : Value) (env : Env) : Settles fun depth => eval host depth form env :=
  Tracks.settles fun _ _ hle =>
    commutes_of_le host hle (fun _ hx => absurd trivial hx) fun _ hx => absurd trivial hx

/-- The forms of a body settle. -/
theorem settles_body (host : Host) (forms : List Value) (env : Env) :
    Settles fun depth => body (eval host depth) forms env := by
  have hforms : forms.map Image.id.value = forms := List.map_id forms
  have hbody : ∀ depth depth', depth ≤ depth' →
      Alike .id True (body (eval host depth) forms env) (body (eval host depth') forms env) := by
    intro depth depth' hle
    have hreads : ∀ form ∈ forms, Image.id.Reads form := fun _ _ _ hx => absurd trivial hx
    have hspares : Image.id.SparesEnv env := fun _ hx => absurd trivial hx
    have hbody := (commutes_of_le host hle).body hreads hspares
    rwa [hforms] at hbody
  exact Tracks.settles hbody

/-! ## What is returned -/

namespace Returns

variable {run : Nat → Eval α} {w : World} {r s : EStateM.Result Error World α}

/-- A result other than the limit is the result at every greater depth. -/
theorem of_le (hrun : Settles run) {depth depth' : Nat} (h : run depth w = r) (hr : ¬IsLimit r)
    (hle : depth ≤ depth') : run depth' w = r := by
  rcases hrun depth depth' hle w with hlimit | hsame
  · exact absurd (h ▸ hlimit) hr
  · exact hsame.trans h

/-- An evaluation that settles returns one result only: of two depths the greater one has both results. -/
theorem unique (hrun : Settles run) (hr : Returns run w r) (hs : Returns run w s) : r = s := by
  obtain ⟨hr, depth, hdepth⟩ := hr
  obtain ⟨hs, depth', hdepth'⟩ := hs
  have hmax := of_le hrun hdepth hr (Nat.le_max_left depth depth')
  have hmax' := of_le hrun hdepth' hs (Nat.le_max_right depth depth')
  exact hmax.symm.trans hmax'

end Returns

theorem returns_congr {run run' : Nat → Eval α} {w w' : World} (h : ∀ depth, run depth w = run' depth w')
    {r : EStateM.Result Error World α} : Returns run w r ↔ Returns run' w' r := by
  simp only [Returns, h]

/-- Leaving out small depths changes nothing. -/
theorem returns_add_iff {run : Nat → Eval α} (hrun : Settles run) (count : Nat) {w : World}
    {r : EStateM.Result Error World α} : Returns (fun depth => run (depth + count)) w r ↔ Returns run w r := by
  constructor
  · rintro ⟨hr, depth, h⟩
    exact ⟨hr, depth + count, h⟩
  · rintro ⟨hr, depth, h⟩
    exact ⟨hr, depth, Returns.of_le hrun h hr (Nat.le_add_right depth count)⟩

/-- A sequence returns what its second part returns on what its first part returned, or the error of the first. -/
theorem returns_bind_iff {run : Nat → Eval α} {next : Nat → α → Eval β} (hrun : Settles run)
    (hnext : ∀ a, Settles fun depth => next depth a) {w : World} {r : EStateM.Result Error World β} :
    Returns (fun depth => run depth >>= next depth) w r ↔
      (∃ a w₁, Returns run w (.ok a w₁) ∧ Returns (fun depth => next depth a) w₁ r) ∨
        ∃ e w₁, r = .error e w₁ ∧ Returns run w (.error e w₁) := by
  constructor
  · rintro ⟨hr, depth, h⟩
    cases hfirst : run depth w with
    | ok a w₁ => exact .inl ⟨a, w₁, ⟨id, depth, hfirst⟩, hr, depth, (bind_of_ok hfirst).symm.trans h⟩
    | error e w₁ =>
      obtain rfl := (bind_of_error hfirst).symm.trans h
      exact .inr ⟨e, w₁, rfl, hr, depth, hfirst⟩
  · rintro (⟨a, w₁, ⟨hok, depth, hfirst⟩, hr, depth', hsecond⟩ | ⟨e, w₁, rfl, hr, depth, hfirst⟩)
    · -- the greater of both depths is enough for either part
      refine ⟨hr, max depth depth', ?_⟩
      have hfirst' := Returns.of_le hrun hfirst hok (Nat.le_max_left depth depth')
      exact (bind_of_ok hfirst').trans (Returns.of_le (hnext a) hsecond hr (Nat.le_max_right depth depth'))
    · exact ⟨hr, depth, bind_of_error hfirst⟩

/-! ## Evaluations that correspond -/

/-- Results that match: both are results of some kind, or the same error after the same lines. -/
def Matching (R : α → World → β → World → Prop) :
    EStateM.Result Error World α → EStateM.Result Error World β → Prop
  | .ok a w, .ok b w' => R a w b w'
  | .error e w, .error e' w' => e = e' ∧ w.printed = w'.printed
  | _, _ => False

/-- Either evaluation returns whenever the other one does, with results that match. -/
structure Corresponds (R : α → World → β → World → Prop) (run : Nat → Eval α) (w : World)
    (run' : Nat → Eval β) (w' : World) : Prop where
  left : ∀ r, Returns run w r → ∃ r', Returns run' w' r' ∧ Matching R r r'
  right : ∀ r', Returns run' w' r' → ∃ r, Returns run w r ∧ Matching R r r'

namespace Matching

variable {R : α → World → β → World → Prop} {r : EStateM.Result Error World α}
  {r' : EStateM.Result Error World β}

/-- Of two matching results both are limits or none is. -/
theorem isLimit_iff (h : Matching R r r') : IsLimit r ↔ IsLimit r' := by
  cases r <;> cases r'
  · exact Iff.rfl
  · exact h.elim
  · exact h.elim
  · exact iff_of_eq (congrArg (· = Error.nestingLimit) h.1)

theorem mono {S : α → World → β → World → Prop} (h : Matching R r r')
    (himp : ∀ a w b w', R a w b w' → S a w b w') : Matching S r r' := by
  cases r <;> cases r'
  · exact himp _ _ _ _ h
  · exact h
  · exact h
  · exact h

/-- What matches a value is a value. -/
theorem exists_ok {b : β} {w' : World} (h : Matching R r (.ok b w')) : ∃ a w, r = .ok a w ∧ R a w b w' := by
  cases r with
  | ok a w => exact ⟨a, w, rfl, h⟩
  | error e w => exact h.elim

theorem exists_ok' {a : α} {w : World} (h : Matching R (.ok a w) r') : ∃ b w', r' = .ok b w' ∧ R a w b w' := by
  cases r' with
  | ok b w' => exact ⟨b, w', rfl, h⟩
  | error e w' => exact h.elim

/-- What matches an error is this error, with the same lines printed. -/
theorem exists_error {e : Error} {w' : World} (h : Matching R r (.error e w')) :
    ∃ w, r = .error e w ∧ w.printed = w'.printed := by
  cases r with
  | ok a w => exact h.elim
  | error e' w => exact ⟨w, by rw [h.1], h.2⟩

theorem exists_error' {e : Error} {w : World} (h : Matching R (.error e w) r') :
    ∃ w', r' = .error e w' ∧ w.printed = w'.printed := by
  cases r' with
  | ok b w' => exact h.elim
  | error e' w' => exact ⟨w', by rw [h.1], h.2⟩

end Matching

namespace Corresponds

variable {R : α → World → β → World → Prop} {run : Nat → Eval α} {run' : Nat → Eval β} {w w' : World}

/-- Evaluations correspond if their results match at every depth. -/
theorem of_forall_depth (h : ∀ depth, Matching R (run depth w) (run' depth w')) :
    Corresponds R run w run' w' where
  left r hr := by
    obtain ⟨hlimit, depth, rfl⟩ := hr
    exact ⟨run' depth w', ⟨fun hlimit' => hlimit ((h depth).isLimit_iff.2 hlimit'), depth, rfl⟩, h depth⟩
  right r' hr' := by
    obtain ⟨hlimit, depth, rfl⟩ := hr'
    exact ⟨run depth w, ⟨fun hlimit' => hlimit ((h depth).isLimit_iff.1 hlimit'), depth, rfl⟩, h depth⟩

theorem mono {S : α → World → β → World → Prop} (h : Corresponds R run w run' w')
    (himp : ∀ a w b w', R a w b w' → S a w b w') : Corresponds S run w run' w' where
  left r hr := by
    obtain ⟨r', hr', hmatch⟩ := h.left r hr
    exact ⟨r', hr', hmatch.mono himp⟩
  right r' hr' := by
    obtain ⟨r, hr, hmatch⟩ := h.right r' hr'
    exact ⟨r, hr, hmatch.mono himp⟩

/-- Only what is returned counts. -/
theorem congr {other : Nat → Eval α} {other' : Nat → Eval β} {v v' : World} (h : Corresponds R run w run' w')
    (hrun : ∀ r, Returns other v r ↔ Returns run w r) (hrun' : ∀ r, Returns other' v' r ↔ Returns run' w' r) :
    Corresponds R other v other' v' where
  left r hr := by
    obtain ⟨r', hr', hmatch⟩ := h.left r ((hrun r).1 hr)
    exact ⟨r', (hrun' r').2 hr', hmatch⟩
  right r' hr' := by
    obtain ⟨r, hr, hmatch⟩ := h.right r' ((hrun' r').1 hr')
    exact ⟨r, (hrun r).2 hr, hmatch⟩

/-- What corresponds step by step corresponds as a whole. -/
theorem bind {S : γ → World → δ → World → Prop} {next : Nat → α → Eval γ} {next' : Nat → β → Eval δ}
    (hrun : Settles run) (hrun' : Settles run') (hnext : ∀ a, Settles fun depth => next depth a)
    (hnext' : ∀ b, Settles fun depth => next' depth b) (h : Corresponds R run w run' w')
    (hrest : ∀ a w₁ b w₁', R a w₁ b w₁' →
      Corresponds S (fun depth => next depth a) w₁ (fun depth => next' depth b) w₁') :
    Corresponds S (fun depth => run depth >>= next depth) w (fun depth => run' depth >>= next' depth) w' where
  left r hr := by
    rcases (returns_bind_iff hrun hnext).1 hr with ⟨a, w₁, hfirst, hsecond⟩ | ⟨e, w₁, rfl, hfirst⟩
    · obtain ⟨r₁, hr₁, hmatch⟩ := h.left _ hfirst
      obtain ⟨b, w₁', rfl, hR⟩ := hmatch.exists_ok'
      obtain ⟨r', hr', hmatch'⟩ := (hrest a w₁ b w₁' hR).left r hsecond
      exact ⟨r', (returns_bind_iff hrun' hnext').2 (.inl ⟨b, w₁', hr₁, hr'⟩), hmatch'⟩
    · obtain ⟨r₁, hr₁, hmatch⟩ := h.left _ hfirst
      obtain ⟨w₁', rfl, hprinted⟩ := hmatch.exists_error'
      exact ⟨_, (returns_bind_iff hrun' hnext').2 (.inr ⟨e, w₁', rfl, hr₁⟩), rfl, hprinted⟩
  right r' hr' := by
    rcases (returns_bind_iff hrun' hnext').1 hr' with ⟨b, w₁', hfirst, hsecond⟩ | ⟨e, w₁', rfl, hfirst⟩
    · obtain ⟨r₁, hr₁, hmatch⟩ := h.right _ hfirst
      obtain ⟨a, w₁, rfl, hR⟩ := hmatch.exists_ok
      obtain ⟨r, hr, hmatch'⟩ := (hrest a w₁ b w₁' hR).right r' hsecond
      exact ⟨r, (returns_bind_iff hrun hnext).2 (.inl ⟨a, w₁, hr₁, hr⟩), hmatch'⟩
    · obtain ⟨r₁, hr₁, hmatch⟩ := h.right _ hfirst
      obtain ⟨w₁, rfl, hprinted⟩ := hmatch.exists_error
      exact ⟨_, (returns_bind_iff hrun hnext).2 (.inr ⟨e, w₁, rfl, hr₁⟩), rfl, hprinted⟩

/-- Results may be changed on both sides at the end. -/
theorem map {S : γ → World → δ → World → Prop} (h : Corresponds R run w run' w') (hrun : Settles run)
    (hrun' : Settles run') (f : α → γ) (g : β → δ) (himp : ∀ a w b w', R a w b w' → S (f a) w (g b) w') :
    Corresponds S (fun depth => run depth >>= fun a => pure (f a)) w
      (fun depth => run' depth >>= fun b => pure (g b)) w' :=
  bind hrun hrun' (fun _ => settles_const _) (fun _ => settles_const _) h
    fun a w₁ b w₁' hR => of_forall_depth fun _ => himp a w₁ b w₁' hR

theorem map_left {S : γ → World → β → World → Prop} (h : Corresponds R run w run' w') (hrun : Settles run)
    (hrun' : Settles run') (f : α → γ) (himp : ∀ a w b w', R a w b w' → S (f a) w b w') :
    Corresponds S (fun depth => run depth >>= fun a => pure (f a)) w run' w' := by
  have hmap := h.map hrun hrun' f (fun b => b) himp
  simpa only [bind_pure] using hmap

theorem map_right {S : α → World → δ → World → Prop} (h : Corresponds R run w run' w') (hrun : Settles run)
    (hrun' : Settles run') (g : β → δ) (himp : ∀ a w b w', R a w b w' → S a w (g b) w') :
    Corresponds S run w (fun depth => run' depth >>= fun b => pure (g b)) w' := by
  have hmap := h.map hrun hrun' (fun a => a) g himp
  simpa only [bind_pure] using hmap

end Corresponds

end Eval

end SmallLisp

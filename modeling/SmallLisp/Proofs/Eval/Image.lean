import SmallLisp.Proofs.Eval.Frame
import SmallLisp.Proofs.Eval.Names
import SmallLisp.Proofs.Value.Image

/-!
# Evaluation commutes with images

Evaluating the image of a form in the image of an environment runs like evaluating the form: it prints the same
lines, fails with the same error, and gives the images of the value and of the environment (`Tracks`). New closures
get the numbers that the image gives to those of the first run, so the second run starts with its numbers shifted.
The names that an image drops must not be named by anything in reach. The second evaluator may also have more depth
left; then it goes on where the first one ran into the limit. One rule of the evaluator after the other keeps this
(`Commutes`), and so `eval` has it at all depths. Main statement: `eval_commutes`.
-/

namespace SmallLisp

/-- The world in which the given number of closures more was made. -/
def World.shift (w : World) (count : Nat) : World :=
  { w with nextIdentity := w.nextIdentity + count }

namespace Image

variable (φ : Image)

/-! ## Names that are dropped -/

/-- A form that names nothing that the image drops, and from which no function is reached that does. -/
def Reads (form : Value) : Prop :=
  ∀ x, ¬φ.keeps x → form.Omits x

/-- A value from which no function is reached that names what the image drops. -/
def Spares (v : Value) : Prop :=
  ∀ x, ¬φ.keeps x → v.ignores x = true

/-- An environment from which no function is reached that names what the image drops. -/
def SparesEnv (env : Env) : Prop :=
  ∀ x, ¬φ.keeps x → Env.ignores x env = true

/-- The functions of the host commute with an image that drops nothing. -/
def Respected (host : Host) : Prop :=
  (∀ s, φ.keeps s) → ∀ (slot : Nat) (function : HostFunction), host[slot]? = some function →
    ∀ args, function (args.map φ.value) = (function args).map φ.value

variable {φ : Image} {form v : Value} {items : List Value} {env : Env}

/-- A symbol that may be read is kept. -/
theorem Reads.keeps_symbol {s : Symbol} (h : φ.Reads (.symbol s)) : φ.keeps s := by
  by_contra hs
  exact (h s hs).symbol_ne rfl

theorem Reads.spares (h : φ.Reads form) : φ.Spares form :=
  fun x hx => (h x hx).ignores_eq

theorem Reads.vector (h : φ.Reads (.vector items)) : ∀ v ∈ items, φ.Reads v :=
  fun v hv x hx => (h x hx).vector v hv

theorem Reads.set (h : φ.Reads (.set items)) : ∀ v ∈ items, φ.Reads v :=
  fun v hv x hx => (h x hx).set v hv

theorem Reads.map {entries : List (Value × Value)} (h : φ.Reads (.map entries)) :
    ∀ entry ∈ entries, φ.Reads entry.1 ∧ φ.Reads entry.2 :=
  fun entry hentry => ⟨fun x hx => ((h x hx).map entry hentry).1, fun x hx => ((h x hx).map entry hentry).2⟩

/-- The operands of a form may be read when the form may. -/
theorem Reads.of_operands {head : Value} (h : φ.Reads (.list (head :: items))) : ∀ v ∈ items, φ.Reads v :=
  fun v hv x hx => (h x hx).of_operands v hv

/-- The head of a call is evaluated, so it may be read; the head of a special form is only recognised. -/
theorem Reads.of_head {head : Value} (h : φ.Reads (.list (head :: items)))
    (hhead : SpecialForm.ofHead? head = none) : φ.Reads head :=
  fun x hx => (h x hx).of_head hhead

theorem spares_list (h : ∀ v ∈ items, φ.Spares v) : φ.Spares (.list items) :=
  fun x hx => Value.ignoresItems_iff.2 fun v hv => h v hv x hx

theorem spares_vector (h : ∀ v ∈ items, φ.Spares v) : φ.Spares (.vector items) :=
  fun x hx => Value.ignoresItems_iff.2 fun v hv => h v hv x hx

theorem spares_ofItems (h : ∀ v ∈ items, φ.Spares v) : φ.Spares (Value.ofItems items) :=
  fun x hx => Value.ignores_ofItems fun v hv => h v hv x hx

/-- One more binding leads nowhere but where its value leads. -/
theorem SparesEnv.insert (h : φ.SparesEnv env) (hv : φ.Spares v) (s : Symbol) :
    φ.SparesEnv (env.insert s v) :=
  fun x hx => Env.ignores_insert (h x hx) fun _ => hv x hx

theorem SparesEnv.merge {overlay : Env} (h : φ.SparesEnv env) (hoverlay : φ.SparesEnv overlay) :
    φ.SparesEnv (env.merge overlay) :=
  fun x hx => Env.ignores_merge (h x hx) (hoverlay x hx)

/-- What is known of a closure that leads to nothing that the image drops. -/
theorem Spares.fn {f : Closure Value} (h : φ.Spares (.fn f)) :
    (∀ s ∈ f.params, φ.keeps s) ∧ (∀ s, f.rest = some s → φ.keeps s) ∧ (∀ form ∈ f.body, φ.Reads form) ∧
      φ.SparesEnv f.env := by
  refine ⟨?_, ?_, ?_, ?_⟩
  · intro s hs
    by_contra hdropped
    exact (Value.ignores_fn.1 (h s hdropped)).1 hs
  · intro s hs
    by_contra hdropped
    exact (Value.ignores_fn.1 (h s hdropped)).2.1 hs
  · exact fun form hform x hx => (Value.ignores_fn.1 (h x hx)).2.2.1 form hform
  · exact fun x hx => (Value.ignores_fn.1 (h x hx)).2.2.2

variable (φ)

/-! ## Lookups and parameters -/

/-- A kept name is bound to the image of its value, or it is unbound on both sides. -/
theorem lookup_env {s : Symbol} (hs : φ.keeps s) (env : Env) :
    Env.lookup (φ.env env) s = (Env.lookup env s).map φ.value := by
  rw [Env.lookup, φ.get?_env env s hs, Env.lookup]
  cases env.get? s <;> rfl

/-- A special form is recognised by a symbol, and an image keeps symbols. -/
theorem ofHead?_value (head : Value) : SpecialForm.ofHead? (φ.value head) = SpecialForm.ofHead? head := by
  rw [φ.value_eq]
  cases head <;> rfl

theorem restOfItems_value (items : List Value) :
    Params.restOfItems (items.map φ.value) = Params.restOfItems items := by
  cases items with
  | nil => rfl
  | cons v others =>
    rw [List.map_cons, φ.value_eq]
    cases others <;> cases v <;> rfl

/-- A parameter vector is read alike, and refused with the same text. -/
theorem paramsOfItems_value (items : List Value) :
    Params.ofItems (items.map φ.value) = Params.ofItems items := by
  induction items with
  | nil => rfl
  | cons v rest ih =>
    rw [List.map_cons, φ.value_eq]
    cases v with
    | symbol s =>
      show Params.ofItems (.symbol s :: rest.map φ.value) = _
      rw [Params.ofItems, restOfItems_value, ih, Params.ofItems]
    | _ => rfl

theorem ofForm_value (form : Value) : Params.ofForm (φ.value form) = Params.ofForm form := by
  rw [φ.value_eq]
  cases form with
  | vector items => exact φ.paramsOfItems_value items
  | _ => rfl

/-! ## The environment of a call -/

/-- Binding parameters that are kept commutes with the image. -/
theorem env_bind {params : List Symbol} (h : ∀ s ∈ params, φ.keeps s) (args : List Value) (env : Env) :
    (params.zip (args.map φ.value)).foldl (fun env (param, arg) => env.insert param arg) (φ.env env) =
      φ.env ((params.zip args).foldl (fun env (param, arg) => env.insert param arg) env) := by
  induction params generalizing args env with
  | nil => rfl
  | cons param params ih =>
    obtain ⟨hparam, hparams⟩ := List.forall_mem_cons.1 h
    cases args with
    | nil => rfl
    | cons arg args =>
      simp only [List.map_cons, List.zip_cons_cons, List.foldl_cons]
      rw [← φ.env_insert env param arg hparam, ih hparams]

/-- The environment of a call has as its image that of the call of the image. -/
theorem env_callEnv {f : Closure Value} (hparams : ∀ s ∈ f.params, φ.keeps s)
    (hrest : ∀ s, f.rest = some s → φ.keeps s) (args : List Value) (caller : Env) :
    Eval.callEnv (φ.closure f) (args.map φ.value) (φ.env caller) = φ.env (Eval.callEnv f args caller) := by
  simp only [Eval.callEnv, closure, ← φ.env_merge, φ.env_bind hparams]
  cases hname : f.rest with
  | none => rfl
  | some rest =>
    dsimp only
    rw [φ.env_insert _ _ _ (hrest rest hname), value_list, List.map_drop]

variable {φ}

/-- Binding arguments that lead to nothing dropped keeps the environment from leading there. -/
theorem SparesEnv.bind (h : φ.SparesEnv env) (params : List Symbol) {args : List Value}
    (hargs : ∀ v ∈ args, φ.Spares v) :
    φ.SparesEnv ((params.zip args).foldl (fun env (param, arg) => env.insert param arg) env) := by
  induction params generalizing args env with
  | nil => exact h
  | cons param params ih =>
    cases args with
    | nil => exact h
    | cons arg args =>
      obtain ⟨harg, hargs⟩ := List.forall_mem_cons.1 hargs
      exact ih (h.insert harg param) hargs

/-- The environment of a call leads to nothing that is dropped when the closure, the arguments and the caller do
not. -/
theorem SparesEnv.callEnv {f : Closure Value} (hcaptured : φ.SparesEnv f.env) {args : List Value}
    (hargs : ∀ v ∈ args, φ.Spares v) {caller : Env} (hcaller : φ.SparesEnv caller) :
    φ.SparesEnv (Eval.callEnv f args caller) := by
  have hbound := (hcaller.merge hcaptured).bind f.params hargs
  simp only [Eval.callEnv]
  split
  · exact hbound
  · exact hbound.insert (spares_list fun v hv => hargs v (List.mem_of_mem_drop hv)) _

end Image

namespace Eval

/-! ## Evaluations that run alike -/

/-- The closures made between two worlds get numbers that are shifted by the given count. -/
def Shifts (φ : Image) (count : Nat) (w w' : World) : Prop :=
  ∀ i, w.nextIdentity ≤ i → i < w'.nextIdentity → φ.identity i = i + count

/-- The second evaluation runs like the first one, with shifted numbers, and gives the image of what that gives, of
which something is known. With `slack` it may go on where the first one ran into the limit. -/
def Tracks {α β : Type} (φ : Image) (slack : Prop) (f : α → β) (P : α → Prop) (run : Eval α) (image : Eval β) :
    Prop :=
  ∀ w, match run w with
    | .ok a w' => w.nextIdentity ≤ w'.nextIdentity ∧ P a ∧
        ∀ count, Shifts φ count w w' → image (w.shift count) = .ok (f a) (w'.shift count)
    | .error e w' => w.nextIdentity ≤ w'.nextIdentity ∧
        (slack ∧ e = .nestingLimit ∨
          ∀ count, Shifts φ count w w' → image (w.shift count) = .error e (w'.shift count))

/-- The result of the second evaluation. -/
def imageResult {α β : Type} (f : α → β) (count : Nat) :
    EStateM.Result Error World α → EStateM.Result Error World β
  | .ok a w => .ok (f a) (w.shift count)
  | .error e w => .error e (w.shift count)

variable {φ : Image} {slack : Prop}

namespace Tracks

variable {α β γ δ : Type} {f : α → β} {g : γ → δ} {P : α → Prop} {Q : γ → Prop}

/-- Where the first evaluation gives a value, the second one gives its image in the shifted world. -/
theorem of_ok {run : Eval α} {image : Eval β} (h : Tracks φ slack f P run image) {a : α} {w w' : World}
    (hrun : run w = .ok a w') : w.nextIdentity ≤ w'.nextIdentity ∧ P a ∧
      ∀ count, Shifts φ count w w' → image (w.shift count) = .ok (f a) (w'.shift count) := by
  have hw := h w
  rwa [hrun] at hw

/-- Where the first evaluation fails, the second one fails alike, or the first one ran into the limit. -/
theorem of_error {run : Eval α} {image : Eval β} (h : Tracks φ slack f P run image) {e : Error} {w w' : World}
    (hrun : run w = .error e w') : w.nextIdentity ≤ w'.nextIdentity ∧ (slack ∧ e = .nestingLimit ∨
      ∀ count, Shifts φ count w w' → image (w.shift count) = .error e (w'.shift count)) := by
  have hw := h w
  rwa [hrun] at hw

/-- Without slack the second evaluation is told by the first one. -/
theorem image_eq {run : Eval α} {image : Eval β} (h : Tracks φ False f P run image) {w : World} {count : Nat}
    (hcount : ∀ i, w.nextIdentity ≤ i → φ.identity i = i + count) :
    image (w.shift count) = imageResult f count (run w) := by
  cases hrun : run w with
  | ok a w' =>
    obtain ⟨-, -, himage⟩ := h.of_ok hrun
    exact himage count fun i hi _ => hcount i hi
  | error e w' =>
    obtain ⟨-, ⟨hfalse, -⟩ | himage⟩ := h.of_error hrun
    · exact hfalse.elim
    · exact himage count fun i hi _ => hcount i hi

theorem pure {a : α} (h : P a) : Tracks φ slack f P (pure a) (pure (f a)) :=
  fun _ => ⟨Nat.le_refl _, h, fun _ _ => rfl⟩

/-- With slack nothing is said once the first evaluation has run into the limit. -/
theorem limit (h : slack) (image : Eval β) : Tracks φ slack f P (throw .nestingLimit) image :=
  fun _ => ⟨Nat.le_refl _, .inl ⟨h, rfl⟩⟩

theorem throw (e : Error) : Tracks φ slack f P (throw e) (throw e) :=
  fun _ => ⟨Nat.le_refl _, .inr fun _ _ => rfl⟩

/-- Computations without effects run alike when their results are images. -/
theorem ofExcept {result : Except Error α} {image : Except Error β} (himage : image = result.map f)
    (h : ∀ a, result = .ok a → P a) : Tracks φ slack f P (ofExcept result) (Eval.ofExcept image) := by
  rw [himage]
  cases result with
  | ok a => exact .pure (h a rfl)
  | error e => exact .throw e

theorem printLines (lines : List String) :
    Tracks φ slack id (fun _ => True) (printLines lines) (Eval.printLines lines) :=
  fun _ => ⟨Nat.le_refl _, trivial, fun _ _ => rfl⟩

/-- Both evaluations take a number, the second one the image of the first. -/
theorem newIdentity : Tracks φ slack φ.identity (fun _ => True) newIdentity Eval.newIdentity := by
  intro w
  refine ⟨Nat.le_succ _, trivial, fun count hshifts => ?_⟩
  have hnumber := hshifts w.nextIdentity (Nat.le_refl _) (Nat.lt_succ_self _)
  show EStateM.Result.ok (w.nextIdentity + count) { w with nextIdentity := w.nextIdentity + count + 1 } =
    .ok (φ.identity w.nextIdentity) { w with nextIdentity := w.nextIdentity + 1 + count }
  rw [hnumber, Nat.add_right_comm]

/-- What runs alike step by step runs alike as a whole. -/
theorem bind {run : Eval α} {image : Eval β} {next : α → Eval γ} {nextImage : β → Eval δ}
    (h : Tracks φ slack f P run image)
    (hnext : ∀ a, P a → Tracks φ slack g Q (next a) (nextImage (f a))) :
    Tracks φ slack g Q (run >>= next) (image >>= nextImage) := by
  intro w
  cases hrun : run w with
  | error e w₁ =>
    obtain ⟨hle, himage⟩ := h.of_error hrun
    rw [bind_of_error hrun]
    refine ⟨hle, himage.imp_right fun himage count hshifts => ?_⟩
    exact bind_of_error (himage count hshifts)
  | ok a w₁ =>
    obtain ⟨hle, ha, himage⟩ := h.of_ok hrun
    rw [bind_of_ok hrun]
    -- the first part ends between the two worlds, so its numbers are shifted as well
    have hfirst : ∀ {w₂ : World} {count}, w₁.nextIdentity ≤ w₂.nextIdentity → Shifts φ count w w₂ →
        (image >>= nextImage) (w.shift count) = nextImage (f a) (w₁.shift count) := by
      intro w₂ count hle₂ hshifts
      exact bind_of_ok (himage count fun i hlower hupper => hshifts i hlower (Nat.lt_of_lt_of_le hupper hle₂))
    cases hrest : next a w₁ with
    | ok c w₂ =>
      obtain ⟨hle₂, hc, himage₂⟩ := (hnext a ha).of_ok hrest
      refine ⟨Nat.le_trans hle hle₂, hc, fun count hshifts => ?_⟩
      rw [hfirst hle₂ hshifts]
      exact himage₂ count fun i hlower => hshifts i (Nat.le_trans hle hlower)
    | error e w₂ =>
      obtain ⟨hle₂, himage₂⟩ := (hnext a ha).of_error hrest
      refine ⟨Nat.le_trans hle hle₂, himage₂.imp_right fun himage₂ count hshifts => ?_⟩
      rw [hfirst hle₂ hshifts]
      exact himage₂ count fun i hlower => hshifts i (Nat.le_trans hle hlower)

end Tracks

/-- A form and its image are evaluated alike. -/
def Alike (φ : Image) (slack : Prop) (run image : Eval (Value × Env)) : Prop :=
  Tracks φ slack (Prod.map φ.value φ.env) (fun result => φ.Spares result.1 ∧ φ.SparesEnv result.2) run image

/-- The second evaluator treats images as the first one treats what they are images of. -/
def Commutes (φ : Image) (slack : Prop) (ev ev' : Evaluator) : Prop :=
  ∀ ⦃form : Value⦄ ⦃env : Env⦄, φ.Reads form → φ.SparesEnv env →
    Alike φ slack (ev form env) (ev' (φ.value form) (φ.env env))

namespace Commutes

variable {ev ev' : Evaluator} (hev : Commutes φ slack ev ev') {env : Env}

include hev

/-! ## One rule at a time -/

/-- Forms in turn give the images of the values, whatever closures the forms before made. -/
theorem each {forms : List Value} (hforms : ∀ form ∈ forms, φ.Reads form) (henv : φ.SparesEnv env) :
    Tracks φ slack (Prod.map (List.map φ.value) φ.env)
      (fun result => (∀ v ∈ result.1, φ.Spares v) ∧ φ.SparesEnv result.2)
      (each ev forms env) (Eval.each ev' (forms.map φ.value) (φ.env env)) := by
  induction forms generalizing env with
  | nil => exact .pure (a := ([], env)) ⟨by simp, henv⟩
  | cons form forms ih =>
    obtain ⟨hform, hforms⟩ := List.forall_mem_cons.1 hforms
    refine .bind (hev hform henv) ?_
    rintro ⟨value, env₁⟩ ⟨hvalue, henv₁⟩
    refine .bind (ih hforms henv₁) ?_
    rintro ⟨values, env₂⟩ ⟨hvalues, henv₂⟩
    exact .pure (a := (value :: values, env₂)) ⟨List.forall_mem_cons.2 ⟨hvalue, hvalues⟩, henv₂⟩

/-- The forms of a body give the image of the last value. -/
theorem bodyFrom (value : Value) {forms : List Value} (hvalue : φ.Spares value)
    (hforms : ∀ form ∈ forms, φ.Reads form) (henv : φ.SparesEnv env) :
    Alike φ slack (bodyFrom ev value forms env)
      (Eval.bodyFrom ev' (φ.value value) (forms.map φ.value) (φ.env env)) := by
  induction forms generalizing value env with
  | nil => exact .pure (a := (value, env)) ⟨hvalue, henv⟩
  | cons form forms ih =>
    obtain ⟨hform, hforms⟩ := List.forall_mem_cons.1 hforms
    refine .bind (hev hform henv) ?_
    rintro ⟨value₁, env₁⟩ ⟨hvalue₁, henv₁⟩
    exact ih value₁ hvalue₁ hforms henv₁

theorem body {forms : List Value} (hforms : ∀ form ∈ forms, φ.Reads form) (henv : φ.SparesEnv env) :
    Alike φ slack (body ev forms env) (Eval.body ev' (forms.map φ.value) (φ.env env)) := by
  have hbody := hev.bodyFrom .nil (fun _ _ => rfl) hforms henv
  rwa [φ.value_nil] at hbody

/-- The entries of a map literal are inserted alike, and a key that is there already is found alike. -/
theorem entries {items : List (Value × Value)} (done : List (Value × Value))
    (hitems : ∀ item ∈ items, φ.Reads item.1 ∧ φ.Reads item.2) (hdone : φ.Spares (.map done))
    (henv : φ.SparesEnv env) :
    Tracks φ slack (Prod.map (List.map (Prod.map φ.value φ.value)) φ.env)
      (fun result => φ.Spares (.map result.1) ∧ φ.SparesEnv result.2)
      (entries ev done items env)
      (Eval.entries ev' (done.map (Prod.map φ.value φ.value)) (items.map (Prod.map φ.value φ.value))
        (φ.env env)) := by
  induction items generalizing done env with
  | nil => exact .pure (a := (done, env)) ⟨hdone, henv⟩
  | cons item rest ih =>
    obtain ⟨keyForm, valueForm⟩ := item
    obtain ⟨⟨hkeyForm, hvalueForm⟩, hrest⟩ := List.forall_mem_cons.1 hitems
    refine .bind (hev hkeyForm henv) ?_
    rintro ⟨key, env₁⟩ ⟨hkey, henv₁⟩
    refine .bind (hev hvalueForm henv₁) ?_
    rintro ⟨value, env₂⟩ ⟨hvalue, henv₂⟩
    dsimp only [Prod.map]
    rw [φ.lookup?_value, Option.isSome_map, φ.print_value]
    split
    · exact .throw _
    · rw [φ.insertEntry_value]
      -- the new entry leads to nothing dropped, so the induction goes on with it
      have hinsert : φ.Spares (.map (Value.insertEntry key value done)) := fun x hx =>
        Value.ignores_insertEntry (hkey x hx) (hvalue x hx) (hdone x hx)
      exact ih _ hrest hinsert henv₂

/-! ## Application -/

/-- A call of the image accepts the same number of arguments and runs the image of the body. -/
theorem applyClosure {f : Closure Value} (hf : φ.Spares (.fn f)) {args : List Value}
    (hargs : ∀ v ∈ args, φ.Spares v) (henv : φ.SparesEnv env) :
    Tracks φ slack φ.value φ.Spares (applyClosure ev f args env)
      (Eval.applyClosure ev' (φ.closure f) (args.map φ.value) (φ.env env)) := by
  -- the closure leads to nothing dropped, so its parameters are kept and its body may be read
  obtain ⟨hparams, hrest, hbody, hcaptured⟩ := hf.fn
  unfold Eval.applyClosure
  rw [List.length_map, φ.env_callEnv hparams hrest]
  show Tracks φ slack _ _ (if f.accepts args.length then _ else _) (if f.accepts args.length then _ else _)
  split
  · refine .bind (hev.body hbody (hcaptured.callEnv hargs henv)) ?_
    rintro ⟨value, inner⟩ ⟨hvalue, -⟩
    exact .pure hvalue
  · exact .throw _

omit hev in
/-- A builtin does not look into closures. A function of the host is reached only if no name is dropped. -/
theorem applyNative {host : Host} (hhost : φ.Respected host) {f : Native} (hf : φ.Spares (.native f))
    {args : List Value} (hargs : ∀ v ∈ args, φ.Spares v) :
    Tracks φ slack φ.value φ.Spares (applyNative host f args)
      (Eval.applyNative host f (args.map φ.value)) := by
  obtain ⟨name, run⟩ := f
  cases run with
  | builtin b =>
    simp only [Eval.applyNative, φ.lines_value]
    refine .bind (.printLines (b.lines args)) fun _ _ => ?_
    exact .ofExcept (φ.call_value b args) fun v hv x hx => Value.ignores_call hv fun a ha => hargs a ha x hx
  | host slot =>
    have hkeeps : ∀ s, φ.keeps s := by
      intro s
      by_contra hs
      exact Bool.false_ne_true (hf s hs)
    simp only [Eval.applyNative]
    cases hfunction : host[slot]? with
    | none => exact .throw _
    | some function =>
      exact .ofExcept (hhost hkeeps slot function hfunction args) fun v _ x hx => absurd (hkeeps x) hx

/-- What is called decides alike for both: a closure, a native function, or an error that names it. -/
theorem apply {host : Host} (hhost : φ.Respected host) {f : Value} (hf : φ.Spares f) {args : List Value}
    (hargs : ∀ v ∈ args, φ.Spares v) (henv : φ.SparesEnv env) :
    Tracks φ slack φ.value φ.Spares (apply host ev f args env)
      (Eval.apply host ev' (φ.value f) (args.map φ.value) (φ.env env)) := by
  -- an error shows the text of what was called, and an image has the same text
  have hprint := φ.print_value f
  rw [φ.value_eq] at hprint ⊢
  cases f with
  | fn f => exact hev.applyClosure hf hargs henv
  | native f => exact applyNative hhost hf hargs
  | list items | vector items | map items | set items =>
    show Tracks φ slack _ _ (throw (.notCallable _)) (throw (.notCallable _))
    rw [hprint]
    exact .throw _
  | _ => exact .throw _

/-! ## Special forms -/

omit hev in
/-- A definition that has not two operands is refused. -/
theorem define_of_length_ne {operands : List Value} (h : operands.length ≠ 2) :
    Eval.define ev operands env = throw (.invalidForm "def" "requires a symbol and a value") := by
  unfold Eval.define
  split
  · exact absurd rfl h
  · exact absurd rfl h
  · rfl

/-- A defined name is written in the form, so it is not dropped and its binding is in the image. -/
theorem define {operands : List Value} (hoperands : ∀ v ∈ operands, φ.Reads v) (henv : φ.SparesEnv env) :
    Alike φ slack (define ev operands env) (Eval.define ev' (operands.map φ.value) (φ.env env)) := by
  match operands with
  -- an image has as many operands, so both are refused
  | [] | [_] | _ :: _ :: _ :: _ =>
    rw [define_of_length_ne, define_of_length_ne]
    · exact .throw _
    · simp
    · simp
  | [name, form] =>
    obtain ⟨hname, hform⟩ : φ.Reads name ∧ φ.Reads form := by simpa using hoperands
    simp only [List.map_cons, List.map_nil]
    rw [φ.value_eq name]
    cases name with
    | symbol s =>
      refine .bind (hev hform henv) ?_
      rintro ⟨value, env₁⟩ ⟨hvalue, henv₁⟩
      -- the defined name is not dropped
      dsimp only [Prod.map]
      rw [← φ.env_insert env₁ s value hname.keeps_symbol]
      exact .pure (a := (value, env₁.insert s value)) ⟨hvalue, henv₁.insert hvalue s⟩
    | _ => exact .throw _

/-- After the condition one of two evaluations goes on, the same one on both sides. -/
theorem choice {condition : Value} (yes no yes' no' : Env → Eval (Value × Env))
    (hcondition : φ.Reads condition) (henv : φ.SparesEnv env)
    (hyes : ∀ env, φ.SparesEnv env → Alike φ slack (yes env) (yes' (φ.env env)))
    (hno : ∀ env, φ.SparesEnv env → Alike φ slack (no env) (no' (φ.env env))) :
    Alike φ slack
      (ev condition env >>= fun (test, env) => if test.isTruthy then yes env else no env)
      (ev' (φ.value condition) (φ.env env) >>= fun (test, env) =>
        if test.isTruthy then yes' env else no' env) := by
  refine .bind (hev hcondition henv) ?_
  rintro ⟨test, env₁⟩ ⟨-, henv₁⟩
  dsimp only [Prod.map]
  rw [φ.isTruthy_value]
  split
  · exact hyes env₁ henv₁
  · exact hno env₁ henv₁

omit hev in
theorem pure_nil (henv : φ.SparesEnv env) :
    Alike φ slack (pure (.nil, env)) (pure (.nil, φ.env env)) := by
  have hnil : Alike φ slack (pure (.nil, env)) (pure (φ.value .nil, φ.env env)) :=
    .pure (a := (Value.nil, env)) ⟨fun _ _ => rfl, henv⟩
  rwa [φ.value_nil] at hnil

/-- Both evaluations take the same branch, as an image is true exactly when its value is. -/
theorem branch {operands : List Value} (hoperands : ∀ v ∈ operands, φ.Reads v) (henv : φ.SparesEnv env) :
    Alike φ slack (branch ev operands env) (Eval.branch ev' (operands.map φ.value) (φ.env env)) := by
  match operands with
  | [] | [_] | _ :: _ :: _ :: _ :: _ => exact .throw _
  | [condition, yes] =>
    obtain ⟨hcondition, hyes⟩ : φ.Reads condition ∧ φ.Reads yes := by simpa using hoperands
    apply hev.choice (ev yes) (fun env => pure (.nil, env)) (ev' (φ.value yes))
      (fun env => pure (.nil, env)) hcondition henv
    · intro env₁ henv₁
      exact hev hyes henv₁
    · intro env₁ henv₁
      exact pure_nil henv₁
  | [condition, yes, no] =>
    obtain ⟨hcondition, hyes, hno⟩ : φ.Reads condition ∧ φ.Reads yes ∧ φ.Reads no := by
      simpa using hoperands
    apply hev.choice (ev yes) (ev no) (ev' (φ.value yes)) (ev' (φ.value no)) hcondition henv
    · intro env₁ henv₁
      exact hev hyes henv₁
    · intro env₁ henv₁
      exact hev hno henv₁

/-- Local names are written in the form, so none of them is dropped. -/
theorem bindings : {items : List Value} → (∀ v ∈ items, φ.Reads v) → {env : Env} → φ.SparesEnv env →
    Tracks φ slack φ.env φ.SparesEnv (bindings ev items env)
      (Eval.bindings ev' (items.map φ.value) (φ.env env))
  | [], _, _, henv => .pure henv
  | [_], _, _, henv => .pure henv
  | name :: form :: rest, hitems, env, henv => by
    obtain ⟨hname, hform, hrest⟩ : φ.Reads name ∧ φ.Reads form ∧ ∀ v ∈ rest, φ.Reads v := by
      simpa using hitems
    simp only [List.map_cons]
    rw [φ.value_eq name]
    cases name with
    | symbol s =>
      refine .bind (hev hform henv) ?_
      rintro ⟨value, env₁⟩ ⟨hvalue, henv₁⟩
      dsimp only [Prod.map]
      rw [← φ.env_insert env₁ s value hname.keeps_symbol]
      exact bindings hrest (henv₁.insert hvalue s)
    | _ => exact .throw _

/-- The local environments of the two evaluations correspond, and the outer ones are as before. -/
theorem scope {operands : List Value} (hoperands : ∀ v ∈ operands, φ.Reads v) (henv : φ.SparesEnv env) :
    Alike φ slack (scope ev operands env) (Eval.scope ev' (operands.map φ.value) (φ.env env)) := by
  match operands with
  | [] | [_] => exact .throw _
  | binders :: form :: forms =>
    obtain ⟨hbinders, hforms⟩ := List.forall_mem_cons.1 hoperands
    simp only [List.map_cons]
    rw [φ.value_eq binders]
    cases binders with
    | vector items =>
      simp only [Value.mapParts, Eval.scope, List.length_map]
      split
      · -- whatever the local bindings and the body do, the environment is the one before
        refine .bind (hev.bindings hbinders.vector henv) ?_
        intro inner hinner
        refine .bind (hev.body hforms hinner) ?_
        rintro ⟨value, _⟩ ⟨hvalue, -⟩
        exact .pure (a := (value, env)) ⟨hvalue, henv⟩
      · exact .throw _
    | _ => exact .throw _

omit hev in
/-- A new closure captures the environment as it is, and the image goes into it. -/
theorem function {operands : List Value} (hoperands : ∀ v ∈ operands, φ.Reads v) (henv : φ.SparesEnv env) :
    Alike φ slack (function operands env) (Eval.function (operands.map φ.value) (φ.env env)) := by
  match operands with
  | [] | [_] => exact .throw _
  | binders :: form :: forms =>
    obtain ⟨hbinders, hforms⟩ := List.forall_mem_cons.1 hoperands
    have himage : Params.ofForm (φ.value binders) = (Params.ofForm binders).map id := by
      rw [Except.map_id, φ.ofForm_value, id]
    have hparams : ∀ params, Params.ofForm binders = .ok params →
        ∀ x, ¬φ.keeps x → x ∉ params.positional ∧ params.rest ≠ some x := by
      intro params h x hx
      exact Params.not_mem_of_ofForm h (hbinders x hx)
    refine .bind (.ofExcept himage hparams) ?_
    intro params hnames
    refine .bind .newIdentity fun identity _ => ?_
    let f : Closure Value := ⟨identity, params.positional, params.rest, form :: forms, env⟩
    have hf : φ.Spares (.fn f) := by
      intro x hx
      obtain ⟨hpositional, hrest⟩ := hnames x hx
      exact Value.ignores_fn.2 ⟨hpositional, hrest, fun form hform => hforms form hform x hx, henv x hx⟩
    show Alike φ slack (pure (.fn f, env)) (pure (.fn (φ.closure f), φ.env env))
    rw [← φ.value_fn]
    exact .pure (a := (Value.fn f, env)) ⟨hf, henv⟩

theorem special (form : SpecialForm) {operands : List Value} (hoperands : ∀ v ∈ operands, φ.Reads v)
    (henv : φ.SparesEnv env) :
    Alike φ slack (special ev form operands env)
      (Eval.special ev' form (operands.map φ.value) (φ.env env)) := by
  cases form with
  | define => exact hev.define hoperands henv
  | branch => exact hev.branch hoperands henv
  | scope => exact hev.scope hoperands henv
  | function => exact function hoperands henv

/-! ## Forms -/

/-- A special form is found by its head alone, so the name may be dropped. -/
theorem application {host : Host} (hhost : φ.Respected host) {head : Value} {operands : List Value}
    (h : φ.Reads (.list (head :: operands))) (henv : φ.SparesEnv env) :
    Alike φ slack (application host ev head operands env)
      (Eval.application host ev' (φ.value head) (operands.map φ.value) (φ.env env)) := by
  cases hhead : SpecialForm.ofHead? head with
  | some form =>
    simp only [Eval.application, φ.ofHead?_value, hhead]
    exact hev.special form h.of_operands henv
  | none =>
    simp only [Eval.application, φ.ofHead?_value, hhead]
    refine .bind (hev (h.of_head hhead) henv) ?_
    rintro ⟨f, env₁⟩ ⟨hf, henv₁⟩
    refine .bind (hev.each h.of_operands henv₁) ?_
    rintro ⟨args, env₂⟩ ⟨hargs, henv₂⟩
    refine .bind (hev.apply hhost hf hargs henv₂) ?_
    intro value hvalue
    exact .pure (a := (value, env₂)) ⟨hvalue, henv₂⟩

/-- Evaluators of the parts that commute with an image make evaluators of whole forms that do. -/
theorem form {host : Host} (hhost : φ.Respected host) : Commutes φ slack (form host ev) (form host ev') := by
  intro form env hform henv
  rw [φ.value_eq]
  cases form with
  | symbol s =>
    have hbound : ∀ value, Env.lookup env s = .ok value → φ.Spares value := by
      intro value hvalue x hx
      exact Env.ignores_of_lookup (henv x hx) (hform x hx).symbol_ne hvalue
    refine .bind (.ofExcept (φ.lookup_env hform.keeps_symbol env) hbound) ?_
    intro value hvalue
    exact .pure (a := (value, env)) ⟨hvalue, henv⟩
  | list items =>
    cases items with
    | nil =>
      have hnil : Alike φ slack (pure (.list [], env)) (pure (φ.value (.list []), φ.env env)) :=
        .pure (a := (Value.list [], env)) ⟨hform.spares, henv⟩
      rwa [φ.value_list] at hnil
    | cons head operands => exact hev.application hhost hform henv
  | vector items =>
    refine .bind (hev.each hform.vector henv) ?_
    rintro ⟨values, env₁⟩ ⟨hvalues, henv₁⟩
    dsimp only [Prod.map]
    rw [← φ.value_vector]
    exact .pure (a := (Value.vector values, env₁)) ⟨Image.spares_vector hvalues, henv₁⟩
  | set items =>
    refine .bind (hev.each hform.set henv) ?_
    rintro ⟨values, env₁⟩ ⟨hvalues, henv₁⟩
    dsimp only [Prod.map]
    rw [φ.ofItems_value]
    exact .pure (a := (Value.ofItems values, env₁)) ⟨Image.spares_ofItems hvalues, henv₁⟩
  | map items =>
    refine .bind (hev.entries [] hform.map (fun _ _ => rfl) henv) ?_
    rintro ⟨done, env₁⟩ ⟨hdone, henv₁⟩
    dsimp only [Prod.map]
    rw [← φ.value_map]
    exact .pure (a := (Value.map done, env₁)) ⟨hdone, henv₁⟩
  | _ =>
    have himage : Alike φ slack (pure (_, env)) (pure (φ.value _, φ.env env)) :=
      .pure (a := (_, env)) ⟨hform.spares, henv⟩
    rw [φ.value_eq] at himage
    exact himage

end Commutes

end Eval

/-- Evaluation commutes with images at every depth. With slack the second evaluation may be deeper. -/
theorem eval_commutes {φ : Image} {host : Host} (hhost : φ.Respected host) {slack : Prop} {depth depth' : Nat}
    (h : depth = depth' ∨ slack ∧ depth ≤ depth') :
    Eval.Commutes φ slack (eval host depth) (eval host depth') := by
  induction depth generalizing depth' with
  | zero =>
    intro form env _ _
    rcases h with rfl | ⟨hslack, -⟩
    · exact .throw .nestingLimit
    · exact .limit hslack _
  | succ depth ih =>
    -- the second evaluation has at least one level left as well
    obtain ⟨inner, rfl, hinner⟩ : ∃ inner, depth' = inner + 1 ∧ (depth = inner ∨ slack ∧ depth ≤ inner) := by
      rcases h with rfl | ⟨hslack, hle⟩
      · exact ⟨depth, rfl, .inl rfl⟩
      · exact ⟨depth' - 1, by omega, .inr ⟨hslack, by omega⟩⟩
    exact Eval.Commutes.form (ih hinner) hhost

end SmallLisp

import SmallLisp.Proofs.Eval.Copies

/-!
# Which forms are parameter vectors

Parameters are written as the vector of their names, with an ampersand before the rest parameter (`Params.toForm`).
Every form is written so with proper parameters, none of them named like this mark, or there is a reason to refuse it
(`Params.proper_or_refused`). The evaluator takes the former for the parameters that they are written with
(`ofForm_toForm`) and refuses the latter with the reason (`Refused.ofForm_eq`), so it does nothing else. A function
form then gives a closure exactly when it is written with proper parameters and a body. Main statement:
`Params.vectors_exact`.
-/

namespace SmallLisp

theorem Symbol.name_eq_ampersand_iff {s : Symbol} : s.name = "&" ↔ s = ampersand := by
  cases s
  simp [ampersand]

namespace Params

/-- The elements of the vector that parameters are written as. -/
def items (params : Params) : List Value :=
  params.positional.map .symbol ++
    match params.rest with
    | none => []
    | some rest => [.symbol .ampersand, .symbol rest]

/-- The vector that parameters are written as. -/
def toForm (params : Params) : Value :=
  .vector params.items

/-- No parameter is named like the mark of the rest parameter. -/
structure Proper (params : Params) : Prop where
  positional : ∀ s ∈ params.positional, s.name ≠ "&"
  rest : ∀ s ∈ params.rest, s.name ≠ "&"

/-- Why elements are not those of a parameter vector: behind some names there is an element that is no name, or a
mark that is not followed by exactly one name. -/
inductive ItemsRefused : List Value → String → Prop where
  | notSymbol (names : List Symbol) {v : Value} (others : List Value) (hnames : ∀ s ∈ names, s.name ≠ "&")
      (hv : ∀ s, v ≠ .symbol s) :
      ItemsRefused (names.map .symbol ++ v :: others) ("parameter must be a symbol, got " ++ v.kindName)
  | noRest (names : List Symbol) (hnames : ∀ s ∈ names, s.name ≠ "&") :
      ItemsRefused (names.map .symbol ++ [.symbol .ampersand]) "& must be followed by a parameter"
  | notOneRest (names : List Symbol) {others : List Value} (hnames : ∀ s ∈ names, s.name ≠ "&")
      (hne : others ≠ []) (hothers : ∀ s, others = [.symbol s] → s.name = "&") :
      ItemsRefused (names.map .symbol ++ .symbol .ampersand :: others) "only one parameter after &"

/-- Why a form is no parameter vector. -/
inductive Refused : Value → String → Prop where
  | notVector {form : Value} (h : ∀ elements, form ≠ .vector elements) :
      Refused form "first argument must be a parameter vector"
  | items {elements : List Value} {reason : String} (h : ItemsRefused elements reason) :
      Refused (.vector elements) reason

/-! ## Every form is written with parameters or refused -/

/-- One more positional parameter in front does not mend a vector that is refused. -/
theorem ItemsRefused.cons {elements : List Value} {reason : String} (h : ItemsRefused elements reason)
    {s : Symbol} (hs : s.name ≠ "&") : ItemsRefused (.symbol s :: elements) reason := by
  cases h with
  | notSymbol names others hnames hv =>
    exact .notSymbol (s :: names) others (List.forall_mem_cons.2 ⟨hs, hnames⟩) hv
  | noRest names hnames => exact .noRest (s :: names) (List.forall_mem_cons.2 ⟨hs, hnames⟩)
  | notOneRest names hnames hne hothers =>
    exact .notOneRest (s :: names) (List.forall_mem_cons.2 ⟨hs, hnames⟩) hne hothers

/-- The mark makes a rest parameter of exactly one name. -/
theorem proper_or_refused_mark (others : List Value) :
    (∃ params : Params, params.Proper ∧ .symbol .ampersand :: others = params.items) ∨
      ∃ reason, ItemsRefused (.symbol .ampersand :: others) reason := by
  by_cases hone : ∃ s : Symbol, others = [.symbol s] ∧ s.name ≠ "&"
  · obtain ⟨s, rfl, hs⟩ := hone
    exact .inl ⟨⟨[], some s⟩, ⟨nofun, by simpa using hs⟩, rfl⟩
  · right
    by_cases hne : others = []
    · subst hne
      exact ⟨_, .noRest [] nofun⟩
    · refine ⟨_, .notOneRest [] nofun hne ?_⟩
      intro s hs
      by_contra hname
      exact hone ⟨s, hs, hname⟩

/-- The elements of a vector are those of a proper parameter list, or there is a reason to refuse them. -/
theorem proper_or_refused_items (elements : List Value) :
    (∃ params : Params, params.Proper ∧ elements = params.items) ∨
      ∃ reason, ItemsRefused elements reason := by
  induction elements with
  | nil => exact .inl ⟨⟨[], none⟩, ⟨nofun, nofun⟩, rfl⟩
  | cons v others ih =>
    by_cases hv : ∃ s, v = .symbol s
    · obtain ⟨s, rfl⟩ := hv
      by_cases hs : s.name = "&"
      · rw [Symbol.name_eq_ampersand_iff.1 hs]
        exact proper_or_refused_mark others
      · -- one more name in front changes nothing
        rcases ih with ⟨⟨positional, rest⟩, ⟨hpositional, hrest⟩, rfl⟩ | ⟨reason, hrefused⟩
        · exact .inl ⟨⟨s :: positional, rest⟩, ⟨List.forall_mem_cons.2 ⟨hs, hpositional⟩, hrest⟩, rfl⟩
        · exact .inr ⟨reason, hrefused.cons hs⟩
    · exact .inr ⟨_, .notSymbol [] others nofun fun s h => hv ⟨s, h⟩⟩

theorem proper_or_refused (form : Value) :
    (∃ params : Params, params.Proper ∧ form = params.toForm) ∨ ∃ reason, Refused form reason := by
  by_cases hvector : ∃ elements, form = .vector elements
  · obtain ⟨elements, rfl⟩ := hvector
    rcases proper_or_refused_items elements with ⟨params, hproper, rfl⟩ | ⟨reason, hrefused⟩
    · exact .inl ⟨params, hproper, rfl⟩
    · exact .inr ⟨reason, .items hrefused⟩
  · exact .inr ⟨_, .notVector fun elements h => hvector ⟨elements, h⟩⟩

/-! ## What the evaluator takes a form for -/

/-- Names in front of other elements are positional parameters. -/
theorem ofItems_names {names : List Symbol} (hnames : ∀ s ∈ names, s.name ≠ "&") (tail : List Value) :
    ofItems (names.map .symbol ++ tail) =
      (ofItems tail).map fun params => { params with positional := names ++ params.positional } := by
  induction names with
  | nil => cases h : ofItems tail <;> simp [Except.map, h]
  | cons s names ih =>
    obtain ⟨hs, hnames⟩ := List.forall_mem_cons.1 hnames
    have hne : s ≠ Symbol.ampersand := fun h => hs (Symbol.name_eq_ampersand_iff.2 h)
    rw [List.map_cons, List.cons_append, ofItems, if_neg hne, ih hnames]
    cases ofItems tail <;> rfl

/-- Behind the mark of the rest parameter only this parameter is read. -/
theorem ofItems_mark (others : List Value) :
    ofItems (.symbol .ampersand :: others) = (restOfItems others).map fun rest => ⟨[], some rest⟩ := by
  rw [ofItems, if_pos rfl]

/-- What follows the mark must be one symbol, and not the mark again. -/
theorem restOfItems_of_not_one {others : List Value} (hne : others ≠ [])
    (hothers : ∀ s, others = [.symbol s] → s.name = "&") :
    restOfItems others = .error (.invalidForm "fn" "only one parameter after &") := by
  unfold restOfItems
  split
  · exact absurd rfl hne
  · next s =>
    rw [if_pos (Symbol.name_eq_ampersand_iff.1 (hothers s rfl))]
    rfl
  · rfl

/-- Proper parameters are read back from the vector that writes them. -/
theorem ofForm_toForm {params : Params} (h : params.Proper) : ofForm params.toForm = .ok params := by
  obtain ⟨positional, rest⟩ := params
  show ofItems (items ⟨positional, rest⟩) = _
  rw [items, ofItems_names h.positional]
  cases rest with
  | none => simp [ofItems, Except.map]
  | some rest =>
    have hne : rest ≠ Symbol.ampersand := fun heq => h.rest rest rfl (Symbol.name_eq_ampersand_iff.2 heq)
    have hrest : restOfItems [.symbol rest] = .ok rest := if_neg hne
    dsimp only
    rw [ofItems_mark, hrest]
    simp [Except.map]

theorem ItemsRefused.ofItems_eq {elements : List Value} {reason : String} (h : ItemsRefused elements reason) :
    ofItems elements = .error (.invalidForm "fn" reason) := by
  cases h with
  | @notSymbol names v others hnames hv =>
    rw [ofItems_names hnames]
    cases v with
    | symbol s => exact absurd rfl (hv s)
    | _ => rfl
  | noRest names hnames =>
    rw [ofItems_names hnames, ofItems_mark]
    rfl
  | notOneRest names hnames hne hothers =>
    rw [ofItems_names hnames, ofItems_mark, restOfItems_of_not_one hne hothers]
    rfl

theorem Refused.ofForm_eq {form : Value} {reason : String} (h : Refused form reason) :
    ofForm form = .error (.invalidForm "fn" reason) := by
  cases h with
  | items h => exact h.ofItems_eq
  | notVector h =>
    cases form with
    | vector elements => exact absurd rfl (h elements)
    | _ => rfl

/-- Exactly the vectors that write proper parameters are read, and as these. -/
theorem ofForm_eq_ok_iff {form : Value} {params : Params} :
    ofForm form = .ok params ↔ params.Proper ∧ form = params.toForm := by
  constructor
  · intro h
    rcases proper_or_refused form with ⟨written, hproper, rfl⟩ | ⟨reason, hrefused⟩
    · rw [ofForm_toForm hproper] at h
      cases h
      exact ⟨hproper, rfl⟩
    · rw [hrefused.ofForm_eq] at h
      cases h
  · rintro ⟨hproper, rfl⟩
    exact ofForm_toForm hproper

/-- Exactly the forms that are to be refused are refused, and for this reason. -/
theorem ofForm_eq_error_iff {form : Value} {reason : String} :
    ofForm form = .error (.invalidForm "fn" reason) ↔ Refused form reason := by
  refine ⟨?_, Refused.ofForm_eq⟩
  intro h
  rcases proper_or_refused form with ⟨params, hproper, rfl⟩ | ⟨other, hrefused⟩
  · rw [ofForm_toForm hproper] at h
    cases h
  · rw [hrefused.ofForm_eq] at h
    cases h
    exact hrefused

end Params

/-! ## Function forms -/

namespace Eval

variable {head : Value}

/-- A function form without parameters or body, or with parameters that are refused, does nothing but fail. -/
theorem eval_function_of_not_written (hhead : SpecialForm.ofHead? head = some .function) {operands : List Value}
    (h : ∀ (params : Params) (body : List Value), params.Proper → body ≠ [] → operands ≠ params.toForm :: body)
    (host : Host) (depth : Nat) (env : Env) (w : World) :
    ∃ reason, eval host (depth + 1) (.list (head :: operands)) env w = .error (.invalidForm "fn" reason) w := by
  rw [eval_of_special hhead]
  match operands with
  | [] => exact ⟨_, rfl⟩
  | [_] => exact ⟨_, rfl⟩
  | binders :: form :: forms =>
    rcases Params.proper_or_refused binders with ⟨params, hproper, rfl⟩ | ⟨reason, hrefused⟩
    · exact absurd rfl (h params (form :: forms) hproper (List.cons_ne_nil form forms))
    · have hfails : ofExcept (Params.ofForm binders) w = .error (.invalidForm "fn" reason) w := by
        rw [hrefused.ofForm_eq]
        rfl
      exact ⟨reason, bind_of_error hfails⟩

/-- A function form with proper parameters gives a closure with them. -/
theorem eval_function_of_written (hhead : SpecialForm.ofHead? head = some .function) {params : Params}
    (hproper : params.Proper) {body : List Value} (hbody : body ≠ []) (host : Host) (depth : Nat) (env : Env)
    (w : World) :
    eval host (depth + 1) (.list (head :: params.toForm :: body)) env w =
      .ok (.fn ⟨w.nextIdentity, params.positional, params.rest, body, env⟩, env)
        { w with nextIdentity := w.nextIdentity + 1 } := by
  obtain ⟨form, forms, rfl⟩ := List.exists_cons_of_ne_nil hbody
  exact eval_function hhead (Params.ofForm_toForm hproper) form forms env w

/-- The parameters and the body of a closure are those that its function form is written with. -/
theorem written_of_eval (hhead : SpecialForm.ofHead? head = some .function) {operands : List Value}
    {host : Host} {depth : Nat} {env env' : Env} {w w' : World} {v : Value}
    (h : eval host depth (.list (head :: operands)) env w = .ok (v, env') w') :
    ∃ f : Closure Value, v = .fn f ∧ f.body ≠ [] ∧ Params.Proper ⟨f.params, f.rest⟩ ∧
      operands = Params.toForm ⟨f.params, f.rest⟩ :: f.body := by
  cases depth with
  | zero => exact absurd h throw_ne_ok
  | succ depth =>
    by_cases hwritten : ∃ (params : Params) (body : List Value), params.Proper ∧ body ≠ [] ∧
        operands = params.toForm :: body
    · obtain ⟨params, body, hproper, hbody, rfl⟩ := hwritten
      rw [eval_function_of_written hhead hproper hbody] at h
      cases h
      exact ⟨_, rfl, hbody, hproper, rfl⟩
    · obtain ⟨reason, hfails⟩ := eval_function_of_not_written hhead
        (fun params body hproper hbody heq => hwritten ⟨params, body, hproper, hbody, heq⟩) host depth env w
      rw [hfails] at h
      cases h

end Eval

namespace Params

/-- A form is taken for parameters exactly if it is the vector that writes them, and no parameter is named like the
mark of the rest parameter. Every other form is refused as malformed, with a reason that tells what is wrong with it.
So a function form gives no closure but one that has a body and proper parameters, and that is written with them:
parameters and body of the closure tell all operands of the form. Every function form that is written so gives the
closure. -/
theorem vectors_exact :
    (∀ (form : Value) (params : Params), ofForm form = .ok params ↔ params.Proper ∧ form = params.toForm) ∧
    (∀ form : Value, (∀ params : Params, params.Proper → form ≠ params.toForm) →
      ∃ reason, ofForm form = .error (.invalidForm "fn" reason)) ∧
    (∀ (form : Value) (reason : String), ofForm form = .error (.invalidForm "fn" reason) ↔ Refused form reason) ∧
    (∀ (host : Host) (depth : Nat) (operands : List Value) (env env' : Env) (w w' : World) (v : Value),
      eval host depth (.list (.symbol ⟨"fn"⟩ :: operands)) env w = .ok (v, env') w' →
      ∃ f : Closure Value, v = .fn f ∧ f.body ≠ [] ∧ (∀ s ∈ f.params, s.name ≠ "&") ∧
        (∀ s ∈ f.rest, s.name ≠ "&") ∧ operands = toForm ⟨f.params, f.rest⟩ :: f.body) ∧
    (∀ (host : Host) (depth : Nat) (params : Params) (body : List Value) (env : Env) (w : World),
      params.Proper → body ≠ [] →
      ∃ (f : Closure Value) (w' : World),
        eval host (depth + 1) (.list (.symbol ⟨"fn"⟩ :: params.toForm :: body)) env w = .ok (.fn f, env) w' ∧
        f.params = params.positional ∧ f.rest = params.rest ∧ f.body = body) := by
  have hhead : SpecialForm.ofHead? (.symbol ⟨"fn"⟩) = some .function := rfl
  refine ⟨fun _ _ => ofForm_eq_ok_iff, ?_, fun _ _ => ofForm_eq_error_iff, ?_, ?_⟩
  · intro form hother
    rcases proper_or_refused form with ⟨params, hproper, hform⟩ | ⟨reason, hrefused⟩
    · exact absurd hform (hother params hproper)
    · exact ⟨reason, hrefused.ofForm_eq⟩
  · intro host depth operands env env' w w' v h
    obtain ⟨f, hv, hbody, hproper, hoperands⟩ := Eval.written_of_eval hhead h
    exact ⟨f, hv, hbody, hproper.positional, hproper.rest, hoperands⟩
  · intro host depth params body env w hproper hbody
    exact ⟨_, _, Eval.eval_function_of_written hhead hproper hbody host depth env w, rfl, rfl, rfl⟩

/-- A vector with two marks is refused, and a function of one argument or more gets back what it is written with. -/
theorem vectors_exact_rest :
    (∃ reason, ofForm (.vector [.symbol ⟨"a"⟩, .symbol ⟨"&"⟩, .symbol ⟨"&"⟩]) = .error (.invalidForm "fn" reason)) ∧
    ∃ (f : Closure Value) (w : World),
      eval #[] 1 (.list [.symbol ⟨"fn"⟩, .vector [.symbol ⟨"a"⟩, .symbol ⟨"&"⟩, .symbol ⟨"more"⟩], .symbol ⟨"a"⟩])
        Bindings.empty {} = .ok (.fn f, Bindings.empty) w ∧
      f.params = [⟨"a"⟩] ∧ f.rest = some ⟨"more"⟩ ∧ f.body ≠ [] ∧
      [.vector [.symbol ⟨"a"⟩, .symbol ⟨"&"⟩, .symbol ⟨"more"⟩], .symbol ⟨"a"⟩] =
        toForm ⟨f.params, f.rest⟩ :: f.body := by
  obtain ⟨haccepts, hrefuses, -, hwritten, hgives⟩ := vectors_exact
  constructor
  · apply hrefuses
    intro params hproper heq
    have hok := (haccepts _ params).2 ⟨hproper, heq⟩
    cases hok
  · have hproper : Proper ⟨[⟨"a"⟩], some ⟨"more"⟩⟩ := ⟨by simp, by simp⟩
    obtain ⟨f, w, heval, hparams, hrest, hbody⟩ :=
      hgives #[] 0 ⟨[⟨"a"⟩], some ⟨"more"⟩⟩ [.symbol ⟨"a"⟩] Bindings.empty {} hproper (by simp)
    obtain ⟨g, hg, hne, -, -, hoperands⟩ := hwritten _ _ _ _ _ _ _ _ heval
    cases hg
    exact ⟨f, w, heval, hparams, hrest, hne, hoperands⟩

end Params

end SmallLisp

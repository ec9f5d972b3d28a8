import SmallLisp.Proofs.Eval.Canonical
import SmallLisp.Proofs.Eval.Depth
import SmallLisp.Proofs.Eval.Literal
import SmallLisp.Proofs.Reader.Readable
import SmallLisp.Session

/-!
# What a session answers

The text of a value that can be read is evaluated as the value (`Session.evalText_print`), and a literal value is its
own value, so the text of literal data is answered by itself: `Session.evalPrint_literal`.

The host calls a function by its name and hands in the arguments; a program writes the name in front of the arguments,
and all of them are evaluated again before the call. Arguments that are literal come out of this as they are, and the
application takes one evaluation more than the call does. So a session answers both alike as soon as evaluations may
be nested deeply enough (`Session.Answers`): `Session.call_agrees_evalForm`.
-/

namespace SmallLisp

/-! ## Calls by name -/

namespace Eval

/-- Applies what a name is bound to. -/
def applyNamed (host : Host) (ev : Evaluator) (name : String) (args : List Value) (env : Env) :
    Eval (Value × Env) := do
  let f ← ofExcept (Env.lookup env ⟨name⟩)
  let value ← apply host ev f args env
  pure (value, env)

variable {name : String} {args : List Value}

/-- An application settles: more depth changes nothing once it has a result. -/
theorem settles_apply (host : Host) (f : Value) (args : List Value) (caller : Env) :
    Settles fun depth => apply host (eval host depth) f args caller := by
  cases f with
  | fn f =>
    cases haccepts : f.accepts args.length with
    | true =>
      have happly : ∀ depth, apply host (eval host depth) (.fn f) args caller =
          body (eval host depth) f.body (callEnv f args caller) >>= fun result => pure result.1 := by
        intro depth
        simp only [apply, applyClosure, haccepts, if_true]
      simp only [happly]
      exact (settles_body host f.body _).bind fun _ => settles_const _
    | false =>
      have happly : ∀ depth, apply host (eval host depth) (.fn f) args caller =
          throw (.wrongArity (some "fn") (closureArity f) args.length) := by
        intro depth
        simp only [apply, applyClosure, haccepts]
        rfl
      simp only [happly]
      exact settles_const _
  | _ => exact settles_const _

theorem settles_applyNamed (host : Host) (name : String) (args : List Value) (env : Env) :
    Settles fun depth => applyNamed host (eval host depth) name args env :=
  (settles_const _).bind fun f => (settles_apply host f args env).bind fun _ => settles_const _

/-- A call by name does not change the environment of the caller. -/
theorem env_of_applyNamed {host : Host} {ev : Evaluator} {env env' : Env} {v : Value} {w w' : World}
    (h : applyNamed host ev name args env w = .ok (v, env') w') : env' = env := by
  obtain ⟨f, w₁, -, hrest⟩ := bind_eq_ok h
  obtain ⟨value, w₂, -, hpure⟩ := bind_eq_ok hrest
  cases pure_eq_ok hpure
  rfl

/-- A name in front of literal arguments is looked up, the arguments are taken as they are, and the application is a
call by name. What the arguments need beyond the limit is found out only when the name is bound. -/
theorem eval_named (host : Host) (depth : Nat) (hname : SpecialForm.ofName? name = none)
    (hargs : ∀ arg ∈ args, arg.isLiteral = true ∧ arg.isSorted = true) (env : Env) :
    eval host (depth + 2) (.list (.symbol ⟨name⟩ :: args)) env =
      if Value.itemNesting args ≤ depth + 1 then applyNamed host (eval host (depth + 1)) name args env
      else ofExcept (Env.lookup env ⟨name⟩) >>= fun _ => throw .nestingLimit := by
  have heach := each_of_fixes (fun arg harg => eval_literal host (depth + 1) (hargs arg harg).1 (hargs arg harg).2) env
  have hhead : SpecialForm.ofHead? (.symbol ⟨name⟩) = none := hname
  show application host (eval host (depth + 1)) (.symbol ⟨name⟩) args env = _
  have hsymbol : eval host (depth + 1) (.symbol ⟨name⟩) env =
      ofExcept (Env.lookup env ⟨name⟩) >>= fun f => pure (f, env) := rfl
  simp only [application, hhead, hsymbol, bind_assoc, pure_bind, heach]
  split
  · simp only [pure_bind]
    rfl
  · rfl

/-- Written in front of literal arguments, a name returns what a call by name returns. -/
theorem returns_named_iff (host : Host) (hname : SpecialForm.ofName? name = none)
    (hargs : ∀ arg ∈ args, arg.isLiteral = true ∧ arg.isSorted = true) (env : Env) {w : World}
    {r : EStateM.Result Error World (Value × Env)} :
    Returns (fun depth => eval host depth (.list (.symbol ⟨name⟩ :: args)) env) w r ↔
      Returns (fun depth => applyNamed host (eval host depth) name args env) w r := by
  -- deep enough for the arguments, the form needs exactly one level more than the call
  rw [← returns_add_iff (settles_eval host _ env) (Value.itemNesting args + 2),
    ← returns_add_iff (settles_applyNamed host name args env) (Value.itemNesting args + 1)]
  apply returns_congr
  intro depth
  have hfits : Value.itemNesting args ≤ depth + Value.itemNesting args + 1 := by omega
  have hnamed := eval_named host (depth + Value.itemNesting args) hname hargs env
  rw [if_pos hfits] at hnamed
  exact congrFun hnamed w

/-- A call by name needs no more depth than the form does. -/
theorem applyNamed_of_not_isLimit (host : Host) (depth : Nat) (hname : SpecialForm.ofName? name = none)
    (hargs : ∀ arg ∈ args, arg.isLiteral = true ∧ arg.isSorted = true) (env : Env) {w : World}
    (h : ¬IsLimit (eval host depth (.list (.symbol ⟨name⟩ :: args)) env w)) :
    applyNamed host (eval host depth) name args env w =
      eval host depth (.list (.symbol ⟨name⟩ :: args)) env w := by
  -- the form takes one evaluation and its parts another one, so below two there is only the limit
  match depth with
  | 0 => exact absurd rfl h
  | 1 =>
    have hhead : SpecialForm.ofHead? (.symbol ⟨name⟩) = none := hname
    refine absurd ?_ h
    show IsLimit (application host (eval host 0) (.symbol ⟨name⟩) args env w)
    simp only [application, hhead]
    rfl
  | depth + 2 =>
    rw [eval_named host depth hname hargs env] at h ⊢
    by_cases hfits : Value.itemNesting args ≤ depth + 1
    · rw [if_pos hfits] at h ⊢
      exact Returns.of_le (settles_applyNamed host name args env) rfl h (Nat.le_succ (depth + 1))
    · -- the arguments would run into the limit, but an unbound name is noticed first
      rw [if_neg hfits] at h ⊢
      cases hlookup : Env.lookup env ⟨name⟩ with
      | ok f =>
        rw [hlookup] at h
        exact absurd rfl h
      | error e =>
        rw [applyNamed, hlookup]
        rfl

end Eval

/-! ## Requests and replies -/

/-- A reply, with the limit of the session afterwards set anew. -/
def Reply.atDepth {α : Type} (reply : Reply α) (depth : Nat) : Reply α :=
  ⟨reply.result, { reply.session with depth }, reply.printed⟩

namespace Session

open Eval

/-- The reply of a session to the outcome of an evaluation. -/
def replyTo (s : Session) : EStateM.Result Error World (Value × Env) → Reply Value
  | .ok (value, env) w => ⟨.ok value, { s with env, nextIdentity := w.nextIdentity }, w.printed⟩
  | .error e w => ⟨.error e, { s with nextIdentity := w.nextIdentity }, w.printed⟩

/-- A session gives a reply to a request, provided that evaluations may be nested deeply enough. -/
def Answers {α : Type} (s : Session) (request : Session → Reply α) (reply : Reply α) : Prop :=
  reply.result ≠ .error .nestingLimit ∧ ∃ depth, reply = (request { s with depth }).atDepth s.depth

variable {s : Session}

/-- A session replies to what the evaluation gives in its environment. -/
theorem run_eq (evaluation : Env → Eval (Value × Env)) :
    s.run evaluation = s.replyTo (evaluation s.env { nextIdentity := s.nextIdentity }) := by
  unfold run
  cases evaluation s.env { nextIdentity := s.nextIdentity } <;> rfl

/-- A reply is the limit exactly when the evaluation ran into it. -/
theorem result_replyTo_eq_limit_iff {r : EStateM.Result Error World (Value × Env)} :
    (s.replyTo r).result = .error .nestingLimit ↔ IsLimit r := by
  cases r with
  | ok a w => exact ⟨nofun, False.elim⟩
  | error e w => exact ⟨Except.error.inj, congrArg Except.error⟩

/-- A session answers with what the evaluation returns. -/
theorem answers_iff {request : Session → Reply Value} (evaluation : Nat → Env → Eval (Value × Env))
    (hrequest : ∀ depth, request { s with depth } = { s with depth }.run (evaluation depth)) {reply : Reply Value} :
    s.Answers request reply ↔
      ∃ r, Returns (fun depth => evaluation depth s.env) { nextIdentity := s.nextIdentity } r ∧
        reply = s.replyTo r := by
  have hreset : ∀ depth, (request { s with depth }).atDepth s.depth =
      s.replyTo (evaluation depth s.env { nextIdentity := s.nextIdentity }) := by
    intro depth
    rw [hrequest, run_eq]
    cases evaluation depth s.env { nextIdentity := s.nextIdentity } <;> rfl
  simp only [Answers, hreset]
  constructor
  · rintro ⟨hlimit, depth, rfl⟩
    exact ⟨_, ⟨fun h => hlimit (result_replyTo_eq_limit_iff.2 h), depth, rfl⟩, rfl⟩
  · rintro ⟨r, ⟨hlimit, depth, rfl⟩, rfl⟩
    exact ⟨fun h => hlimit (result_replyTo_eq_limit_iff.1 h), depth, rfl⟩

/-! ## The text of a value -/

variable {c after : Cursor}

theorem evalFrom_of_read_none (value : Value) (printed : Array String) (h : c.read = (.ok none, after)) :
    s.evalFrom c value printed = ⟨.ok value, s, printed⟩ := by
  rw [evalFrom]
  split
  · next hread => cases h.symm.trans hread
  · rfl
  · next hread => cases h.symm.trans hread

/-- The forms of a text are evaluated in turn up to the first error. -/
theorem evalFrom_of_read_some {form : Value} (value : Value) (printed : Array String)
    (h : c.read = (.ok (some form), after)) :
    s.evalFrom c value printed =
      match (s.evalForm form).result with
      | .ok value => (s.evalForm form).session.evalFrom after value (printed ++ (s.evalForm form).printed)
      | .error e => ⟨.error e, (s.evalForm form).session, printed ++ (s.evalForm form).printed⟩ := by
  rw [evalFrom]
  split
  · next hread => cases h.symm.trans hread
  · next hread => cases h.symm.trans hread
  · next hread =>
    cases h.symm.trans hread
    rfl

/-- Evaluating the text of a value is evaluating the value. -/
theorem evalText_print (s : Session) {v : Value} (h : v.IsClean) : s.evalText v.print = s.evalForm v := by
  obtain ⟨after, hafter, hread⟩ := h.exists_read_print
  have hend : after.read = (.ok none, after.skipLayout) := Cursor.read_of_layout hafter
  rw [evalText, evalFrom_of_read_some .nil #[] hread]
  rcases hreply : s.evalForm v with ⟨_ | value, session, printed⟩
  · simp
  · simp [evalFrom_of_read_none _ _ hend]

/-- A literal evaluates to itself, unless it is nested too deeply for the session. -/
theorem evalForm_literal (s : Session) {v : Value} (hliteral : v.isLiteral = true) (hsorted : v.isSorted = true) :
    s.evalForm v = ⟨if v.nesting ≤ s.depth then .ok v else .error .nestingLimit, s, #[]⟩ := by
  rw [evalForm, run_eq]
  show s.replyTo (eval s.host s.depth v s.env _) = _
  rw [eval_literal s.host s.depth hliteral hsorted s.env]
  split <;> rfl

/-- Literal data is its own value in every environment, and a session answers its text with the text. Nothing is
printed and the session stays as it is. Only data that is nested more deeply than evaluations may be is refused. -/
theorem evalPrint_literal {v : Value} (hreadable : v.isReadable = true) (hsorted : v.isSorted = true)
    (hliteral : v.isLiteral = true) :
    (∀ (host : Host) (env : Env) (w : World), Returns (fun depth => eval host depth v env) w (.ok (v, env) w)) ∧
    (∀ (host : Host) (depth : Nat) (env : Env),
      eval host depth v env = if v.nesting ≤ depth then pure (v, env) else throw .nestingLimit) ∧
    (∀ s : Session, s.Answers (·.evalPrint v.print) ⟨.ok v.print, s, #[]⟩) ∧
    ∀ s : Session, s.evalPrint v.print =
      ⟨if v.nesting ≤ s.depth then .ok v.print else .error .nestingLimit, s, #[]⟩ := by
  have heval : ∀ (host : Host) (depth : Nat) (env : Env),
      eval host depth v env = if v.nesting ≤ depth then pure (v, env) else throw .nestingLimit :=
    fun host depth env => eval_literal host depth hliteral hsorted env
  have hprint : ∀ s : Session, s.evalPrint v.print =
      ⟨if v.nesting ≤ s.depth then .ok v.print else .error .nestingLimit, s, #[]⟩ := by
    intro s
    rw [evalPrint, evalText_print s ⟨hreadable, hsorted⟩, evalForm_literal s hliteral hsorted]
    dsimp only
    split <;> rfl
  refine ⟨fun host env w => ⟨id, v.nesting, ?_⟩, heval, fun s => ⟨nofun, v.nesting, ?_⟩, hprint⟩
  · have hok := congrFun (heval host v.nesting env) w
    rwa [if_pos (Nat.le_refl v.nesting)] at hok
  · have hreply := hprint { s with depth := v.nesting }
    rw [if_pos (Nat.le_refl v.nesting)] at hreply
    exact (congrArg (Reply.atDepth · s.depth) hreply).symm

/-- Both zeros in a set that is a key, a map under a map key, the empty list, and text with a quote and a bracket. -/
theorem evalPrint_literal_mixed :
    let v : Value := .map
      [(.char '(', .list []), (.map [(.nil, .vector [.string "\")"])], .bool false),
        (.set [.int (-9223372036854775808), .float ⟨0x8000000000000000⟩, .float ⟨0⟩], .keyword ⟨"1"⟩)]
    v.isReadable = true ∧ v.isSorted = true ∧ v.isLiteral = true ∧ v.nesting = 4 ∧
      ∀ s : Session, s.Answers (·.evalPrint v.print) ⟨.ok v.print, s, #[]⟩ := by
  intro v
  have hreadable : v.isReadable = true := by decide
  have hsorted : v.isSorted = true := by decide
  have hliteral : v.isLiteral = true := by decide
  exact ⟨hreadable, hsorted, hliteral, by decide, (evalPrint_literal hreadable hsorted hliteral).2.2.1⟩

/-! ## Calls of the host -/

theorem call_eq (s : Session) (name : String) (args : List Value) :
    s.call name args = s.run (applyNamed s.host s.evaluator name args) :=
  rfl

/-- A name that is no special form may be called by the host or be written in front of the arguments, if these are
literal: the session gives the same reply, be it a value or an error, with the same lines printed, and keeps its
environment. With one and the same limit this holds wherever the form does not run into it. -/
theorem call_agrees_evalForm (s : Session) (name : String) (args : List Value)
    (hname : name ∉ ["def", "if", "let", "fn"])
    (hargs : ∀ arg ∈ args, arg.isLiteral = true ∧ arg.Canonical) :
    let form : Value := .list (.symbol ⟨name⟩ :: args)
    (∀ reply, s.Answers (·.call name args) reply ↔ s.Answers (·.evalForm form) reply) ∧
    (∀ reply, s.Answers (·.evalForm form) reply → reply.session.env = s.env) ∧
    ((s.evalForm form).result ≠ .error .nestingLimit → s.call name args = s.evalForm form) := by
  intro form
  have hordinary : SpecialForm.ofName? name = none := by
    simp only [List.mem_cons, List.not_mem_nil, or_false, not_or] at hname
    simp [SpecialForm.ofName?, hname]
  have hliteral : ∀ arg ∈ args, arg.isLiteral = true ∧ arg.isSorted = true :=
    fun arg harg => ⟨(hargs arg harg).1, (hargs arg harg).2.isSorted⟩
  -- both sides answer with what a run returns at some depth, and the runs agree where neither meets the limit
  have hcall : ∀ reply, s.Answers (·.call name args) reply ↔ _ := fun reply =>
    answers_iff (fun depth => applyNamed s.host (eval s.host depth) name args) fun _ => rfl
  have hform : ∀ reply, s.Answers (·.evalForm form) reply ↔ _ := fun reply =>
    answers_iff (fun depth => eval s.host depth form) fun _ => rfl
  have hagree : ∀ reply, s.Answers (·.call name args) reply ↔ s.Answers (·.evalForm form) reply := by
    intro reply
    rw [hcall, hform]
    simp only [form, returns_named_iff s.host hordinary hliteral s.env]
  refine ⟨hagree, ?_, ?_⟩
  · intro reply hreply
    obtain ⟨r, ⟨-, depth, hr⟩, rfl⟩ := (hcall reply).1 ((hagree reply).2 hreply)
    cases r with
    | ok result w => exact env_of_applyNamed hr
    | error e w => rfl
  · intro hresult
    rw [evalForm, run_eq] at hresult
    rw [call_eq, evalForm, run_eq, run_eq]
    have hlimit := mt result_replyTo_eq_limit_iff.2 hresult
    exact congrArg s.replyTo (applyNamed_of_not_isLimit s.host s.depth hordinary hliteral s.env hlimit)

/-- A function that takes further arguments is given a closure with a form in its body, and a map with a set for a
key. -/
theorem call_agrees_evalForm_closure :
    let symbol : String → Value := fun name => .symbol ⟨name⟩
    let f : Value := .fn ⟨0, [⟨"a"⟩], some ⟨"r"⟩, [.vector [symbol "a", symbol "r"]], Bindings.empty⟩
    let g : Value := .fn ⟨1, [], none, [.list [symbol "f", symbol "a"]], Bindings.empty⟩
    let m : Value := .map [(.set [.int 1, .float ⟨0⟩], .list [])]
    let s : Session := { env := ⟨[(⟨"f"⟩, f)]⟩, nextIdentity := 2 }
    let reply : Reply Value := ⟨.ok (.vector [g, .list [m]]), s, #[]⟩
    "f" ∉ ["def", "if", "let", "fn"] ∧ (∀ arg ∈ [g, m], arg.isLiteral = true ∧ arg.Canonical) ∧
      s.Answers (·.call "f" [g, m]) reply ∧ s.Answers (·.evalForm (.list [symbol "f", g, m])) reply := by
  intro symbol f g m s reply
  have hname : "f" ∉ ["def", "if", "let", "fn"] := by decide
  have hbody : Value.IsClean (.list [symbol "f", symbol "a"]) := ⟨by decide, by decide⟩
  have hg : g.Canonical := Value.deeply_iff.2 ⟨rfl, List.forall_mem_singleton.2 hbody.canonical⟩
  have hm : m.IsClean := ⟨by decide, by decide⟩
  have hargs : ∀ arg ∈ [g, m], arg.isLiteral = true ∧ arg.Canonical :=
    List.forall_mem_cons.2 ⟨⟨by decide, hg⟩, List.forall_mem_singleton.2 ⟨by decide, hm.canonical⟩⟩
  have hcall : s.Answers (·.call "f" [g, m]) reply := by
    refine ⟨nofun, 4, ?_⟩
    simp only [symbol, f, g, m, s, reply]
    rfl
  exact ⟨hname, hargs, hcall, ((call_agrees_evalForm s "f" [g, m] hname hargs).1 reply).1 hcall⟩

end Session

end SmallLisp

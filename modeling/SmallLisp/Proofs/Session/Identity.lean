import Mathlib.Data.List.Nodup
import Mathlib.Logic.Relation
import SmallLisp.Proofs.Eval.Copies
import SmallLisp.Session

/-!
# The identity of closures

Closures are numbered as they are made, and closures are equal when their numbers are. A dialogue is a session with
the values that it has given to its user so far; the user hands in values without closures, values that the session
gave, and what is made of these. All closures that have ever been in a dialogue stand in a row, each at the place of
its number (`Dialogue.Registered`). A step only adds to the row, also when it fails (`Registered.step`), so that a
number tells the closure for good, and a function form gives a closure with a number that was not there
(`Eval.numbers`). Main statement: `Session.closure_identity_sound`.
-/

namespace SmallLisp

namespace Value

/-- Values that no comparison takes for equal. -/
def Apart (a b : Value) : Prop :=
  (a == b) = false ∧ equiv a b = false ∧ cmp a b ≠ .eq

/-- Equality, equivalence and order all look at the numbers of closures, so other numbers tell closures apart.
-/
theorem apart_of_identity_ne {f g : Closure Value} (h : f.identity ≠ g.identity) :
    Apart (.fn f) (.fn g) := by
  have hbeq : (Value.fn f == .fn g) = false := by
    show (f.identity == g.identity) = false
    exact beq_eq_false_iff_ne.2 h
  refine ⟨hbeq, ?_, ?_⟩
  · rw [equiv_of_isPlain rfl, hbeq, Bool.and_false]
  · rw [Ne, cmp_eq_eq_iff, hbeq]
    exact Bool.false_ne_true

def NotClosure (v : Value) : Prop :=
  ∀ f, v ≠ .fn f

/-- A value is accounted for by a row exactly when the row has all closures that occur in it. -/
theorem traced_notClosure_iff {row : List (Closure Value)} {v : Value} :
    v.Traced NotClosure row ↔ ∀ f, Occurs (.fn f) v → f ∈ row := by
  constructor
  · intro h f hf
    cases h _ hf with
    | old hold => exact absurd rfl (hold f)
    | built hfn _ => exact absurd rfl (hfn f)
    | made hf => exact hf
  · intro h u hu
    cases u with
    | fn f => exact .made (h f hu)
    | _ => exact .old nofun

/-- A value that can be read has no closures, so any row accounts for it. -/
theorem IsClean.traced {v : Value} (h : v.IsClean) (row : List (Closure Value)) :
    v.Traced NotClosure row :=
  traced_notClosure_iff.2 fun _ hf => nomatch (h.deeply _ hf).readable

end Value

namespace Env

/-- What holds deeply of an environment and of each builtin holds of the environment with the builtins. -/
theorem Deeply.withBuiltins {p : Value → Prop} {env : Env} (h : Deeply p env)
    (hbuiltin : ∀ b : Builtin, b.toValue.Deeply p) : Deeply p (withBuiltins env) :=
  List.foldlRecOn Builtin.all _ h fun _ henv b _ => henv.insert _ (hbuiltin b)

end Env

theorem Host.traces_empty (old : Value → Prop) : Host.Traces #[] old := by
  intro slot function hslot
  simp at hslot

/-! ## Numbers in evaluations -/

namespace Eval

variable {base : Nat} {made : List (Closure Value)} {w : World} {f g : Closure Value}

/-- A number stands once in the row, so it tells the closure. -/
theorem Fits.eq_of_identity_eq (h : Fits base made w) (hf : f ∈ made) (hg : g ∈ made)
    (heq : f.identity = g.identity) : f = g := by
  -- the numbers of the row are consecutive
  have hnodup : (made.map Closure.identity).Nodup := h.numbered ▸ List.nodup_range'
  exact List.inj_on_of_nodup_map hnodup hf hg heq

/-- The closures of the row are numbered below the next number. -/
theorem Fits.identity_lt (h : Fits base made w) (hf : f ∈ made) : f.identity < w.nextIdentity := by
  have hmem : f.identity ∈ made.map Closure.identity := List.mem_map_of_mem hf
  rw [h.numbered, List.mem_range'_1] at hmem
  rw [h.next]
  exact hmem.2

/-- Evaluation at the depth numbers closures in the order in which they are made. -/
structure Numbers (depth : Nat) : Prop where
  /-- What is evaluated with all numbers below the next one leaves all numbers below the next one. -/
  ok : ∀ (form v : Value) (env env' : Env) (w w' : World), form.Below w.nextIdentity →
    Env.Below w.nextIdentity env → eval #[] depth form env w = .ok (v, env') w' →
    w.nextIdentity ≤ w'.nextIdentity ∧ v.Below w'.nextIdentity ∧ Env.Below w'.nextIdentity env'
  /-- Numbers that were used up before a failure stay used. -/
  error : ∀ (form : Value) (e : Error) (env : Env) (w w' : World), form.Below w.nextIdentity →
    Env.Below w.nextIdentity env → eval #[] depth form env w = .error e w' →
    w.nextIdentity ≤ w'.nextIdentity
  /-- A function form gives a closure that is apart from all with numbers below the next one. -/
  function : ∀ (head params form : Value) (forms : List Value) (ps : Params) (env : Env) (w : World),
    SpecialForm.ofHead? head = some .function → Params.ofForm params = .ok ps →
    ∃ f w', eval #[] (depth + 1) (.list (head :: params :: form :: forms)) env w = .ok (.fn f, env) w' ∧
      ∀ g : Closure Value, g.identity < w.nextIdentity → Value.Apart (.fn f) (.fn g)

/-- What has a number below some bound was there before. -/
theorem traced_of_below {n : Nat} {v : Value} (h : v.Below n) :
    v.Traced (fun u => ∀ f, u = .fn f → f.identity < n) [] := by
  intro u hu
  refine .old fun f hf => h f ?_
  rw [← hf]
  exact hu

/-- What is accounted for by numbers below the base and by the row is numbered below the next number. -/
theorem Fits.below_of_traced (h : Fits base made w) {v : Value}
    (hv : v.Traced (fun u => ∀ f, u = .fn f → f.identity < base) made) : v.Below w.nextIdentity := by
  have hbase : base ≤ w.nextIdentity := h.next ▸ Nat.le_add_right base made.length
  intro f hf
  cases hv _ hf with
  | old hold => exact Nat.lt_of_lt_of_le (hold f rfl) hbase
  | built hfn _ => exact absurd rfl (hfn f)
  | made hf => exact h.identity_lt hf

/-- An evaluation that starts with all numbers below the base gives nothing but these closures and those it
makes. -/
theorem eval_traces_of_below {form : Value} {env : Env} (depth : Nat) (hform : form.Below base)
    (henv : Env.Below base env) :
    Traces base [] (Accounted fun u => ∀ f, u = .fn f → f.identity < base) (eval #[] depth form env) :=
  eval_traces (Host.traces_empty _) depth [] form env (traced_of_below hform)
    fun entry hentry => traced_of_below (henv entry hentry)

/-- At every depth closures are numbered as they are made. -/
theorem numbers (depth : Nat) : Numbers depth := by
  refine ⟨?_, ?_, ?_⟩
  · intro form v env env' w w' hform henv h
    have hrun := eval_traces_of_below depth hform henv w ⟨rfl, rfl⟩
    rw [h] at hrun
    obtain ⟨made, -, hfits, hv, henv'⟩ := hrun
    refine ⟨hfits.next ▸ Nat.le_add_right _ _, hfits.below_of_traced hv, ?_⟩
    intro entry hentry
    exact hfits.below_of_traced (henv' entry hentry)
  · intro form e env w w' hform henv h
    have hrun := eval_traces_of_below depth hform henv w ⟨rfl, rfl⟩
    rw [h] at hrun
    obtain ⟨made, -, hfits⟩ := hrun
    exact hfits.next ▸ Nat.le_add_right _ _
  · intro head params form forms ps env w hhead hparams
    refine ⟨_, _, eval_function hhead hparams form forms env w, ?_⟩
    intro g hg
    exact Value.apart_of_identity_ne (Nat.ne_of_gt hg)

end Eval

/-! ## Numbers in sessions -/

/-- All closures of a session stand in the row, each at the place of its number. -/
structure Session.Keeps (row : List (Closure Value)) (s : Session) : Prop where
  fits : Eval.Fits 0 row { nextIdentity := s.nextIdentity }
  env : Env.Traced Value.NotClosure row s.env
  host : s.host = #[]
  depth : s.depth = standard.depth

/-- All closures of the reply stand in a row that goes on where the given one ends. -/
def Reply.Adds (row : List (Closure Value)) (reply : Reply Value) : Prop :=
  ∃ row', row <+: row' ∧ reply.session.Keeps row' ∧
    ∀ v, reply.result = .ok v → v.Traced Value.NotClosure row'

namespace Session

variable {row : List (Closure Value)} {s : Session}

/-- A new session has no closures: its environment has the builtins only. -/
theorem keeps_standard : standard.Keeps [] where
  fits := ⟨rfl, rfl⟩
  env := Env.Deeply.withBuiltins Env.deeply_empty fun _ => Value.deeply_iff.2 ⟨.old nofun, nofun⟩
  host := rfl
  depth := rfl

namespace Keeps

/-- Whatever a session evaluates, the row goes on where it ended, and it does so for an error as well. -/
theorem run (h : s.Keeps row) {evaluation : Env → Eval (Value × Env)}
    (htraces : Eval.Traces 0 row (Eval.Accounted Value.NotClosure) (evaluation s.env)) :
    (s.run evaluation).Adds row := by
  have hrun := htraces _ h.fits
  unfold Session.run
  split
  · next value env w heval =>
    rw [heval] at hrun
    obtain ⟨row', hgrows, hfits, hvalue, henv⟩ := hrun
    refine ⟨row', hgrows, ⟨⟨hfits.numbered, hfits.next⟩, henv, h.host, h.depth⟩, ?_⟩
    intro v hv
    cases hv
    exact hvalue
  · next e w heval =>
    -- the environment is the one before, but numbers may have been used
    rw [heval] at hrun
    obtain ⟨row', hgrows, hfits⟩ := hrun
    exact ⟨row', hgrows, ⟨⟨hfits.numbered, hfits.next⟩, h.env.mono hgrows, h.host, h.depth⟩, nofun⟩

theorem tracing (h : s.Keeps row) : Eval.Tracing 0 Value.NotClosure s.evaluator := by
  unfold evaluator
  rw [h.host]
  exact Eval.eval_traces (Host.traces_empty _) s.depth

theorem evalForm (h : s.Keeps row) {form : Value} (hform : form.Traced Value.NotClosure row) :
    (s.evalForm form).Adds row :=
  h.run (h.tracing row form s.env hform h.env)

/-- What is read has no closures, so a text adds none but those that its forms make. -/
theorem evalFrom (h : s.Keeps row) (c : Cursor) {value : Value}
    (hvalue : value.Traced Value.NotClosure row) (printed : Array String) :
    (s.evalFrom c value printed).Adds row := by
  fun_induction Session.evalFrom s c value printed generalizing row with
  | case1 => exact ⟨row, List.prefix_rfl, h, nofun⟩
  | case2 =>
    refine ⟨row, List.prefix_rfl, h, ?_⟩
    intro v hv
    cases hv
    exact hvalue
  | case3 s c value printed form after hread reply v hresult =>
    rename_i ih
    obtain ⟨row₁, hgrows₁, hkeeps, hv⟩ := h.evalForm ((Cursor.isClean_of_read hread).traced row)
    obtain ⟨row₂, hgrows₂, hadds⟩ := ih hkeeps (hv v hresult)
    exact ⟨row₂, hgrows₁.trans hgrows₂, hadds⟩
  | case4 s c value printed form after hread =>
    obtain ⟨row₁, hgrows, hkeeps, -⟩ := h.evalForm ((Cursor.isClean_of_read hread).traced row)
    exact ⟨row₁, hgrows, hkeeps, nofun⟩

/-- A call from outside adds to the row like an evaluation of the function on the arguments. -/
theorem call (h : s.Keeps row) (name : String) {args : List Value}
    (hargs : ∀ arg ∈ args, arg.Traced Value.NotClosure row) : (s.call name args).Adds row := by
  apply h.run
  have hlookup : Eval.Traces 0 row (fun made f => f.Traced Value.NotClosure made)
      (Eval.ofExcept (Env.lookup s.env ⟨name⟩)) :=
    .ofExcept fun f hf => Env.Deeply.get? h.env (Env.get?_of_lookup hf)
  refine .bind hlookup ?_
  intro row₁ f hgrows₁ hf
  have happly := h.tracing.apply (h.host ▸ Host.traces_empty _) hf
    (fun arg harg => (hargs arg harg).mono hgrows₁) (h.env.mono hgrows₁)
  refine .bind happly ?_
  intro row₂ value hgrows₂ hvalue
  exact .pure ⟨hvalue, (h.env.mono hgrows₁).mono hgrows₂⟩

end Keeps

/-! ## Dialogues -/

/-- A session, and the values that it has given to its user so far. -/
structure Dialogue where
  session : Session
  given : List Value

namespace Dialogue

/-- A new session that has given nothing. -/
def start : Dialogue :=
  ⟨standard, []⟩

/-- The dialogue after a reply, whose value the user gets. -/
def answer (d : Dialogue) (reply : Reply Value) : Dialogue :=
  ⟨reply.session, reply.result.toOption.toList ++ d.given⟩

/-- A value occurs in the dialogue: in a binding of the session, or in a value that it gave. -/
def Has (d : Dialogue) (u : Value) : Prop :=
  (∃ entry ∈ d.session.env.entries, u.Occurs entry.2) ∨ ∃ v ∈ d.given, u.Occurs v

/-- The user can make the value: it has no closures but those of the dialogue. -/
def Supplies (d : Dialogue) (v : Value) : Prop :=
  ∀ f, Value.Occurs (.fn f) v → d.Has (.fn f)

/-- What the user can do next. -/
inductive Step (d : Dialogue) : Dialogue → Prop where
  | evalForm {form : Value} (hform : d.Supplies form) : Step d (d.answer (d.session.evalForm form))
  | evalText (text : String) : Step d (d.answer (d.session.evalText text))
  | define (name : String) {value : Value} (hvalue : d.Supplies value) :
      Step d { d with session := d.session.define name value }
  | call (name : String) {args : List Value} (hargs : ∀ arg ∈ args, d.Supplies arg) :
      Step d (d.answer (d.session.call name args))
  | get {name : String} {value : Value} (hget : d.session.get? name = some value) :
      Step d { d with given := value :: d.given }

/-- One dialogue goes on to become another. -/
abbrev Later : Dialogue → Dialogue → Prop :=
  Relation.ReflTransGen Step

/-- A dialogue with a new session goes on to become this one. -/
def Reachable (d : Dialogue) : Prop :=
  start.Later d

/-- All closures of the dialogue stand in the row, each at the place of its number. -/
structure Registered (row : List (Closure Value)) (d : Dialogue) : Prop where
  session : d.session.Keeps row
  given : ∀ v ∈ d.given, v.Traced Value.NotClosure row

variable {d d' : Dialogue}

theorem registered_start : Registered [] start :=
  ⟨keeps_standard, nofun⟩

namespace Registered

/-- The row has every closure that occurs in the dialogue. -/
theorem mem (h : Registered row d) {f : Closure Value} (hf : d.Has (.fn f)) : f ∈ row := by
  rcases hf with ⟨entry, hentry, hf⟩ | ⟨v, hv, hf⟩
  · exact Value.traced_notClosure_iff.1 (h.session.env entry hentry) f hf
  · exact Value.traced_notClosure_iff.1 (h.given v hv) f hf

theorem supplied (h : Registered row d) {v : Value} (hv : d.Supplies v) :
    v.Traced Value.NotClosure row :=
  Value.traced_notClosure_iff.2 fun f hf => h.mem (hv f hf)

/-- A reply goes into the dialogue: its session, and its value if there is one. -/
theorem answer (h : Registered row d) {reply : Reply Value} (hreply : reply.Adds row) :
    ∃ row', row <+: row' ∧ Registered row' (d.answer reply) := by
  obtain ⟨row', hgrows, hkeeps, hvalue⟩ := hreply
  refine ⟨row', hgrows, hkeeps, ?_⟩
  intro v hv
  rcases List.mem_append.1 hv with hv | hv
  · apply hvalue
    cases hresult : reply.result with
    | error e =>
      rw [hresult] at hv
      cases hv
    | ok value =>
      rw [hresult] at hv
      rw [List.mem_singleton.1 hv]
  · exact (h.given v hv).mono hgrows

/-- Whatever the user does, the row goes on where it ended. -/
theorem step (h : Registered row d) (hstep : d.Step d') : ∃ row', row <+: row' ∧ Registered row' d' := by
  cases hstep with
  | evalForm hform => exact h.answer (h.session.evalForm (h.supplied hform))
  | evalText text => exact h.answer (h.session.evalFrom _ Value.traced_nil #[])
  | define name hvalue =>
    have henv := Env.Deeply.insert h.session.env ⟨name⟩ (h.supplied hvalue)
    exact ⟨row, List.prefix_rfl, ⟨h.session.fits, henv, h.session.host, h.session.depth⟩, h.given⟩
  | call name hargs => exact h.answer (h.session.call name fun arg harg => h.supplied (hargs arg harg))
  | get hget =>
    have hvalue := Env.Deeply.get? h.session.env hget
    exact ⟨row, List.prefix_rfl, h.session, List.forall_mem_cons.2 ⟨hvalue, h.given⟩⟩

/-- By induction on the steps, the row goes on where it ended however long the dialogue is. -/
theorem later (h : Registered row d) (hlater : d.Later d') :
    ∃ row', row <+: row' ∧ Registered row' d' := by
  induction hlater with
  | refl => exact ⟨row, List.prefix_rfl, h⟩
  | tail _ hstep ih =>
    obtain ⟨row₁, hgrows₁, h₁⟩ := ih
    obtain ⟨row₂, hgrows₂, h₂⟩ := h₁.step hstep
    exact ⟨row₂, hgrows₁.trans hgrows₂, h₂⟩

end Registered

/-- The closures of a dialogue that began with a new session stand in a row. -/
theorem Reachable.registered (h : d.Reachable) : ∃ row, Registered row d := by
  obtain ⟨row, -, hrow⟩ := registered_start.later h
  exact ⟨row, hrow⟩

/-- Equal closures are the same one, also when one of them was seen earlier. -/
theorem Reachable.eq_of_beq (h : d.Reachable) (hlater : d.Later d') {f g : Closure Value}
    (hf : d.Has (.fn f)) (hg : d'.Has (.fn g)) (heq : (Value.fn f == .fn g) = true) : f = g := by
  obtain ⟨row, hrow⟩ := h.registered
  obtain ⟨row', hgrows, hrow'⟩ := hrow.later hlater
  -- closures are compared by their numbers, and the later row has both of them
  have hidentity : f.identity = g.identity := by
    change (f.identity == g.identity) = true at heq
    exact beq_iff_eq.1 heq
  exact hrow'.session.fits.eq_of_identity_eq (hgrows.subset (hrow.mem hf)) (hrow'.mem hg) hidentity

/-- Closures of a dialogue are numbered below the number that the session gives next. -/
theorem Reachable.identity_lt (h : d.Reachable) {f : Closure Value} (hf : d.Has (.fn f)) :
    f.identity < d.session.nextIdentity := by
  obtain ⟨row, hrow⟩ := h.registered
  exact hrow.session.fits.identity_lt (hrow.mem hf)

/-- A function form that the user hands in gives a new closure over the bindings of the session. -/
theorem Reachable.evalForm_function (h : d.Reachable) {head params : Value} {ps : Params}
    (hhead : SpecialForm.ofHead? head = some .function) (hparams : Params.ofForm params = .ok ps)
    (form : Value) (forms : List Value) :
    (d.session.evalForm (.list (head :: params :: form :: forms))).result =
      .ok (.fn ⟨d.session.nextIdentity, ps.positional, ps.rest, form :: forms, d.session.env⟩) := by
  obtain ⟨row, hrow⟩ := h.registered
  -- a session never changes its depth, so there is a level left for the function form
  have hevaluator : d.session.evaluator = eval d.session.host (99999 + 1) := by
    rw [evaluator, hrow.session.depth]
    rfl
  unfold evalForm run
  rw [hevaluator, Eval.eval_function hhead hparams]

theorem supplies_of_isClean {v : Value} (h : v.IsClean) : d.Supplies v :=
  fun _ hf => nomatch (h.deeply _ hf).readable

theorem supplies_of_given {v : Value} (h : v ∈ d.given) : d.Supplies v :=
  fun _ hf => .inr ⟨v, h, hf⟩

/-- The user may put together what the user has. -/
theorem supplies_of_parts {v : Value} (hv : v.NotClosure) (h : ∀ part ∈ v.parts, d.Supplies part) :
    d.Supplies v := by
  intro f hf
  cases hf with
  | self => exact absurd rfl (hv f)
  | part hpart hf => exact h _ hpart f hf

end Dialogue

/-- In all that becomes of a new session, with the values that it gave, equal closures have the same parameters, body
and bindings, also when one of them was seen earlier. A function form gives a closure that is equal, equivalent or
in the same place of the order to none that is there or in the form. Closures are numbered below the next number;
an evaluation at any depth that starts so ends so, and there a function form gives a closure that is apart from all
that have numbers below the next one. What is bound, passed or stored is equal to the original. -/
theorem closure_identity_sound :
    (∀ (d d' : Dialogue) (f g : Closure Value), d.Reachable → d.Later d' → d.Has (.fn f) → d'.Has (.fn g) →
      (Value.fn f == .fn g) = true →
        f.params = g.params ∧ f.rest = g.rest ∧ f.body = g.body ∧ f.env = g.env) ∧
    (∀ (d : Dialogue) (head params form : Value) (forms : List Value) (ps : Params), d.Reachable →
      d.Supplies (.list (head :: params :: form :: forms)) →
      SpecialForm.ofHead? head = some .function → Params.ofForm params = .ok ps →
        ∃ f : Closure Value,
          (d.session.evalForm (.list (head :: params :: form :: forms))).result = .ok (.fn f) ∧
          f.params = ps.positional ∧ f.rest = ps.rest ∧ f.body = form :: forms ∧ f.env = d.session.env ∧
          ∀ g, d.Has (.fn g) ∨ Value.Occurs (.fn g) (.list (head :: params :: form :: forms)) →
            Value.Apart (.fn f) (.fn g)) ∧
    (∀ (d : Dialogue) (f : Closure Value), d.Reachable → d.Has (.fn f) →
      f.identity < d.session.nextIdentity) ∧
    (∀ depth, Eval.Numbers depth) ∧
    ∀ host depth, Eval.KeepsCopies host depth := by
  refine ⟨?_, ?_, ?_, Eval.numbers, Eval.keepsCopies⟩
  · intro d d' f g hd hlater hf hg heq
    obtain rfl := hd.eq_of_beq hlater hf hg heq
    exact ⟨rfl, rfl, rfl, rfl⟩
  · intro d head params form forms ps hd hsupplies hhead hparams
    refine ⟨_, hd.evalForm_function hhead hparams form forms, rfl, rfl, rfl, rfl, ?_⟩
    intro g hg
    have hhas : d.Has (.fn g) := hg.elim id (hsupplies g)
    exact Value.apart_of_identity_ne (Nat.ne_of_gt (hd.identity_lt hhas))
  · intro d f hd hf
    exact hd.identity_lt hf

/-- A second function form, with the first closure in its body. -/
theorem closure_identity_sound_in_body :
    ∃ (first second : Dialogue) (f g : Closure Value),
      let form : Value := .list [.symbol ⟨"fn"⟩, .vector [], .vector [.fn f]]
      first.Reachable ∧ first.given = [.fn f] ∧ first.Supplies form ∧
      (first.session.evalForm form).result = .ok (.fn g) ∧ Value.Apart (.fn g) (.fn f) ∧
      second.given = [.fn g, .fn f] ∧ first.Later second ∧
      ∀ h, second.Has (.fn h) → (Value.fn f == .fn h) = true → f.body = h.body := by
  let identity : Value := .list [.symbol ⟨"fn"⟩, .vector [.symbol ⟨"x"⟩], .symbol ⟨"x"⟩]
  let first := Dialogue.start.answer (standard.evalForm identity)
  let f : Closure Value := ⟨0, [⟨"x"⟩], none, [.symbol ⟨"x"⟩], Env.standard⟩
  let form : Value := .list [.symbol ⟨"fn"⟩, .vector [], .vector [.fn f]]
  have hhead : SpecialForm.ofHead? (.symbol ⟨"fn"⟩) = some .function := rfl
  have hparams : Params.ofForm (.vector [.symbol ⟨"x"⟩]) = .ok ⟨[⟨"x"⟩], none⟩ := rfl
  have hstart : Dialogue.start.Reachable := .refl
  have hgiven : first.given = [.fn f] := by
    have hresult : (standard.evalForm identity).result = .ok (.fn f) :=
      hstart.evalForm_function hhead hparams _ _
    show (standard.evalForm identity).result.toOption.toList ++ [] = _
    rw [hresult]
    rfl
  have hfirst : first.Reachable :=
    .single (.evalForm (Dialogue.supplies_of_isClean ⟨by decide, by decide⟩))
  have hf : first.Supplies (.fn f) := Dialogue.supplies_of_given (by rw [hgiven]; exact List.mem_cons_self)
  have hform : first.Supplies form := by
    have hvector : first.Supplies (.vector [.fn f]) :=
      Dialogue.supplies_of_parts (by simp [Value.NotClosure]) (List.forall_mem_singleton.2 hf)
    have hsymbol : first.Supplies (.symbol ⟨"fn"⟩) := Dialogue.supplies_of_isClean ⟨by decide, by decide⟩
    have hnone : first.Supplies (.vector []) := Dialogue.supplies_of_isClean ⟨by decide, by decide⟩
    show first.Supplies (.list [.symbol ⟨"fn"⟩, .vector [], .vector [.fn f]])
    refine Dialogue.supplies_of_parts (by simp [Value.NotClosure]) ?_
    simp only [Value.parts, List.forall_mem_cons]
    exact ⟨hsymbol, hnone, hvector, List.forall_mem_nil _⟩
  obtain ⟨hsame, hfresh, -⟩ := closure_identity_sound
  obtain ⟨g, hg, -, -, -, -, hapart⟩ := hfresh first _ _ _ _ ⟨[], none⟩ hfirst hform rfl rfl
  have hlater : first.Later (first.answer (first.session.evalForm form)) := .single (.evalForm hform)
  have hhas : first.Has (.fn f) := hf f (.self _)
  refine ⟨first, _, f, g, hfirst, hgiven, hform, hg, hapart f (.inl hhas), ?_, hlater, ?_⟩
  · show (first.session.evalForm form).result.toOption.toList ++ first.given = _
    rw [hg, hgiven]
    rfl
  · intro h hh heq
    exact (hsame first _ f h hfirst hlater hhas hh heq).2.2.1

end Session

end SmallLisp

import Mathlib.Data.List.Induction
import SmallLisp.Builtin.Basic

/-!
# Arithmetic is exact or fails

The four operations take their arguments from the left. `Operation.Fails` says, without running anything, when an
argument makes an operation fail, given the arguments before it, and with which error; `Operation.Passes` that no
argument does. As long as all arguments are integers the running value is the left fold over the mathematical
integers, and from the first double on it is a double (`Running`): one more argument that does not fail keeps this
(`Running.step`), and so it holds of all arguments (`exists_running`). Main statement: `call_exact`.
-/

namespace SmallLisp

namespace Number

/-- The integers of 64 bits. -/
def InRange (n : Int) : Prop :=
  -9223372036854775808 ≤ n ∧ n ≤ 9223372036854775807

instance (n : Int) : Decidable (InRange n) :=
  inferInstanceAs (Decidable (_ ∧ _))

theorem exists_fit? {n : Int} (h : InRange n) : ∃ k : Int64, fit? n = some k ∧ k.toInt = n := by
  have hupper : n < 9223372036854775808 := Int.lt_add_one_of_le h.2
  exact ⟨Int64.ofInt n, if_pos h, Int64.toInt_ofInt_of_le h.1 hupper⟩

theorem fit?_eq_none {n : Int} (h : ¬InRange n) : fit? n = none :=
  if_neg h

end Number

namespace Operation

/-- The builtin that runs an operation. -/
def builtin : Operation → Builtin
  | .add => .add
  | .sub => .sub
  | .mul => .mul
  | .div => .div

/-- The exact result over the integers; division truncates toward zero. -/
def exact : Operation → Int → Int → Int
  | .add, m, n => m + n
  | .sub, m, n => m - n
  | .mul, m, n => m * n
  | .div, m, n => m.tdiv n

/-- The exact left fold of integers. -/
def exactFold (op : Operation) (first : Int64) (others : List Int64) : Int :=
  others.foldl (fun acc n => op.exact acc n.toInt) first.toInt

/-- The first double after some integers, which meets their exact left fold. -/
def promote (op : Operation) : List Int64 → Binary64 → Binary64
  | [], x => x
  | first :: others, x => op.onDoubles (Binary64.ofInt (op.exactFold first others)) x

/-- The left fold of numbers into a double. -/
def doubleFold (op : Operation) (x : Binary64) (numbers : List Number) : Binary64 :=
  numbers.foldl (fun acc y => op.onDoubles acc y.toBinary64) x

/-! ## Where an operation fails -/

/-- Why an operation fails at an argument, given the arguments before it. -/
inductive Fails (op : Operation) : List Value → Value → Error → Prop where
  /-- The argument is no number. -/
  | kind {before : List Value} {v : Value} (hint : ∀ n, v ≠ .int n) (hfloat : ∀ x, v ≠ .float x) :
      Fails op before v (.wrongKind (some op.name) "number" v.kindName)
  /-- An integer is to be divided by the integer zero. -/
  | zero {first : Int64} {others : List Int64} (hop : op = .div) :
      Fails op ((first :: others).map .int) (.int 0) .divisionByZero
  /-- The exact result on integers is out of range. -/
  | overflow {first n : Int64} {others : List Int64} (hdivisor : op = .div → n ≠ 0)
      (hrange : ¬Number.InRange (op.exact (op.exactFold first others) n.toInt)) :
      Fails op ((first :: others).map .int) (.int n) (.overflow op.name)

/-- No argument makes an operation fail. -/
def Passes (op : Operation) (args : List Value) : Prop :=
  ∀ before v after e, args = before ++ v :: after → ¬op.Fails before v e

variable {op : Operation}

/-- What passes as a whole passes up to any argument. -/
theorem Passes.of_append {args more : List Value} (h : op.Passes (args ++ more)) : op.Passes args := by
  rintro before v after e rfl
  exact h before v (after ++ more) e (by simp)

theorem Passes.last {before : List Value} {v : Value} (h : op.Passes (before ++ [v])) (e : Error) :
    ¬op.Fails before v e :=
  h before v [] e rfl

/-- Where an operation does not pass, there is a first argument that makes it fail. -/
theorem exists_first_failure {args : List Value} (h : ¬op.Passes args) :
    ∃ before v after e, args = before ++ v :: after ∧ op.Passes before ∧ op.Fails before v e := by
  induction args using List.reverseRecOn with
  | nil => exact absurd (by simp [Passes]) h
  | append_singleton args last ih =>
    by_cases hargs : op.Passes args
    · -- all arguments but the last one pass, so it is the last one
      simp only [Passes, not_forall, not_not] at h
      obtain ⟨before, v, after, e, heq, hfails⟩ := h
      cases after using List.reverseRecOn with
      | nil =>
        obtain ⟨rfl, hlast⟩ := List.append_inj' heq rfl
        exact ⟨args, v, [], e, by rw [heq], hargs, hfails⟩
      | append_singleton after u =>
        rw [← List.cons_append, ← List.append_assoc] at heq
        obtain ⟨rfl, -⟩ := List.append_inj' heq rfl
        exact absurd hfails (hargs before v after e rfl)
    · obtain ⟨before, v, after, e, rfl, hbefore, hfails⟩ := ih hargs
      exact ⟨before, v, after ++ [last], e, by simp, hbefore, hfails⟩

/-! ## The running value -/

/-- The running value after some arguments, of which there must be one. -/
def total (op : Operation) : List Value → Except Error Number
  | [] => .error (.wrongArity (some op.name) (.atLeast 1) 0)
  | v :: rest => do
    let first ← v.toNumber op.name
    op.fold first rest

/-- An operation gives the running value behind its last argument. -/
theorem call_eq_total (op : Operation) (args : List Value) :
    op.call args = (op.total args).map Value.ofNumber := by
  cases args with
  | nil => rfl
  | cons v rest =>
    have hmap : ∀ result : Except Error Number,
        (result >>= fun n => .ok (Value.ofNumber n)) = result.map Value.ofNumber := by
      intro result
      cases result <;> rfl
    exact (bind_assoc _ _ _).symm.trans (hmap (op.total (v :: rest)))

/-- Folding further arguments goes on from the value so far. -/
theorem fold_append (op : Operation) (acc : Number) (args more : List Value) :
    op.fold acc (args ++ more) = op.fold acc args >>= fun next => op.fold next more := by
  induction args generalizing acc with
  | nil => rfl
  | cons v rest ih => simp only [List.cons_append, fold, ih, bind_assoc]

/-- Further arguments go on from the running value. -/
theorem total_append (op : Operation) {args : List Value} (h : args ≠ []) (more : List Value) :
    op.total (args ++ more) = op.total args >>= fun acc => op.fold acc more := by
  cases args with
  | nil => exact absurd rfl h
  | cons v rest =>
    simp only [List.cons_append, total, fold_append, bind_assoc]

theorem fold_singleton (op : Operation) (acc : Number) (v : Value) :
    op.fold acc [v] = v.toNumber op.name >>= op.apply acc :=
  bind_congr fun x => bind_pure (op.apply acc x)

/-- One more argument is applied to the running value. -/
theorem total_concat {op : Operation} {args : List Value} {acc : Number} (hne : args ≠ [])
    (h : op.total args = .ok acc) (v : Value) :
    op.total (args ++ [v]) = v.toNumber op.name >>= op.apply acc := by
  rw [total_append op hne, h]
  exact fold_singleton op acc v

/-- What the running value is after arguments that pass. -/
inductive Running (op : Operation) : List Value → Number → Prop where
  | exact {first n : Int64} {others : List Int64} (hn : n.toInt = op.exactFold first others) :
      Running op ((first :: others).map .int) (.int n)
  | double (ints : List Int64) (x : Binary64) (rest : List Number) :
      Running op (ints.map .int ++ .float x :: rest.map .ofNumber)
        (.float (op.doubleFold (op.promote ints x) rest))

/-- An argument that does not make the operation fail is a number. -/
theorem exists_number {before : List Value} {v : Value} (h : ∀ e, ¬op.Fails before v e) :
    ∃ x, v = .ofNumber x := by
  by_contra hnone
  refine h _ (.kind ?_ ?_)
  · rintro n rfl
    exact hnone ⟨.int n, rfl⟩
  · rintro x rfl
    exact hnone ⟨.float x, rfl⟩

theorem toNumber_ofNumber (context : String) (x : Number) :
    (Value.ofNumber x).toNumber context = .ok x := by
  cases x <;> rfl

/-- On integers the operation is the exact one, but for a division by zero. -/
theorem onIntegers_eq_exact {n : Int64} (hdivisor : op = .div → n ≠ 0) {m : Int} :
    op.onIntegers m n.toInt = .ok (op.exact m n.toInt) := by
  cases op with
  | div =>
    have hn : n.toInt ≠ 0 := by simpa [← Int64.toInt_inj] using hdivisor rfl
    exact if_neg hn
  | _ => rfl

/-- One more argument that does not make the operation fail keeps the account of the running value. -/
theorem Running.step {before : List Value} {acc : Number} (h : Running op before acc) {v : Value}
    (hv : ∀ e, ¬op.Fails before v e) :
    ∃ next, v.toNumber op.name >>= op.apply acc = .ok next ∧ Running op (before ++ [v]) next := by
  obtain ⟨x, rfl⟩ := exists_number hv
  rw [toNumber_ofNumber]
  cases h with
  | @exact first m others hm =>
    cases x with
    | int n =>
      -- what would make the operation fail here is excluded, so the exact result fits
      have hdivisor : op = .div → n ≠ 0 := by
        rintro hop rfl
        exact hv _ (.zero hop)
      have hrange : Number.InRange (op.exact m.toInt n.toInt) := by
        by_contra hout
        rw [hm] at hout
        exact hv _ (.overflow hdivisor hout)
      obtain ⟨k, hfit, hk⟩ := Number.exists_fit? hrange
      have happly : op.apply (.int m) (.int n) = .ok (.int k) := by
        simp only [apply, onIntegers_eq_exact hdivisor, hfit]
      have hfold : k.toInt = op.exactFold first (others ++ [n]) := by
        rw [hk, hm, exactFold, exactFold, List.foldl_append]
        rfl
      refine ⟨.int k, happly, ?_⟩
      have hrunning : Running op ((first :: (others ++ [n])).map .int) (.int k) := .exact hfold
      simpa [Value.ofNumber] using hrunning
    | float y =>
      -- the first double meets the exact fold of the integers before it
      refine ⟨.float (op.onDoubles (Binary64.ofInt m.toInt) y), rfl, ?_⟩
      rw [hm]
      exact .double (first :: others) y []
  | double ints y rest =>
    refine ⟨.float (op.onDoubles (op.doubleFold (op.promote ints y) rest) x.toBinary64), rfl, ?_⟩
    -- from the first double on, one more number goes to the end of the fold
    have hfold : op.onDoubles (op.doubleFold (op.promote ints y) rest) x.toBinary64 =
        op.doubleFold (op.promote ints y) (rest ++ [x]) := by
      rw [doubleFold, doubleFold, List.foldl_append]
      rfl
    have hrunning : Running op _ _ := .double ints y (rest ++ [x])
    rw [hfold]
    simpa using hrunning

/-- Arguments that pass have a running value. -/
theorem exists_running {args : List Value} (hne : args ≠ []) (h : op.Passes args) :
    ∃ n, op.total args = .ok n ∧ Running op args n := by
  induction args using List.reverseRecOn with
  | nil => exact absurd rfl hne
  | append_singleton before v ih =>
    by_cases hbefore : before = []
    · subst hbefore
      obtain ⟨x, rfl⟩ := exists_number h.last
      refine ⟨x, by simp [total, toNumber_ofNumber, fold, bind, Except.bind], ?_⟩
      cases x with
      | int n =>
        show Running op ([n].map .int) (.int n)
        exact .exact rfl
      | float y => exact .double [] y []
    · obtain ⟨acc, htotal, hrunning⟩ := ih hbefore h.of_append
      obtain ⟨next, hstep, hnext⟩ := hrunning.step h.last
      exact ⟨next, (total_concat hbefore htotal v).trans hstep, hnext⟩

/-- After integers alone the running value is their exact left fold. -/
theorem Running.of_ints {first : Int64} {others : List Int64} {acc : Number}
    (h : Running op ((first :: others).map .int) acc) :
    ∃ m : Int64, acc = .int m ∧ m.toInt = op.exactFold first others := by
  generalize hargs : (first :: others).map Value.int = args at h
  cases h with
  | @exact first' m others' hm =>
    obtain ⟨rfl, rfl⟩ := List.cons.inj ((List.map_inj_right fun _ _ => Value.int.inj).1 hargs)
    exact ⟨m, rfl, hm⟩
  | double ints x rest =>
    have hmem : Value.float x ∈ (first :: others).map Value.int := by simp [hargs]
    obtain ⟨n, -, hn⟩ := List.mem_map.1 hmem
    cases hn

/-- An argument that makes the operation fail, behind arguments that pass, fails with its error. -/
theorem total_of_fails {before : List Value} (hbefore : op.Passes before) {v : Value} {e : Error}
    (h : op.Fails before v e) : op.total (before ++ [v]) = .error e := by
  cases h with
  | kind hint hfloat =>
    -- the kind is looked at before the operation is run, also for the first argument
    have hnumber : v.toNumber op.name = .error (.wrongKind (some op.name) "number" v.kindName) := by
      cases v with
      | int n => exact absurd rfl (hint n)
      | float x => exact absurd rfl (hfloat x)
      | _ => rfl
    by_cases hne : before = []
    · rw [hne, List.nil_append, total, hnumber]
      rfl
    · obtain ⟨acc, htotal, -⟩ := exists_running hne hbefore
      rw [total_concat hne htotal, hnumber]
      rfl
  | @zero first others hop =>
    obtain ⟨acc, htotal, hrunning⟩ := exists_running (by simp) hbefore
    obtain ⟨m, rfl, -⟩ := hrunning.of_ints
    -- the divisor is tested before the range of the result
    have happly : op.apply (.int m) (.int 0) = .error .divisionByZero := by
      simp only [apply, hop, onIntegers, Int64.toInt_zero, if_pos]
    exact (total_concat (by simp) htotal _).trans happly
  | @overflow first n others hdivisor hrange =>
    obtain ⟨acc, htotal, hrunning⟩ := exists_running (by simp) hbefore
    obtain ⟨m, rfl, hm⟩ := hrunning.of_ints
    rw [← hm] at hrange
    have happly : op.apply (.int m) (.int n) = .error (.overflow op.name) := by
      simp only [apply, onIntegers_eq_exact hdivisor, Number.fit?_eq_none hrange]
    exact (total_concat (by simp) htotal _).trans happly

/-- An operation fails when it has no argument, or at the first argument that makes it fail. -/
theorem total_eq_error_iff {args : List Value} {e : Error} :
    op.total args = .error e ↔
      (args = [] ∧ e = .wrongArity (some op.name) (.atLeast 1) 0) ∨
        ∃ before v after, args = before ++ v :: after ∧ op.Passes before ∧ op.Fails before v e := by
  have hfails : ∀ {before v after e}, op.Passes before → op.Fails before v e →
      op.total (before ++ v :: after) = .error e := by
    intro before v after e hbefore hfails
    have hsplit : before ++ v :: after = (before ++ [v]) ++ after := by simp
    rw [hsplit, total_append op (by simp), total_of_fails hbefore hfails]
    rfl
  constructor
  · intro h
    by_cases hne : args = []
    · subst hne
      exact .inl ⟨rfl, (Except.error.inj h).symm⟩
    · by_cases hpasses : op.Passes args
      · obtain ⟨n, htotal, -⟩ := exists_running hne hpasses
        rw [htotal] at h
        cases h
      · obtain ⟨before, v, after, e', rfl, hbefore, hv⟩ := exists_first_failure hpasses
        rw [hfails hbefore hv] at h
        cases h
        exact .inr ⟨before, v, after, rfl, hbefore, hv⟩
  · rintro (⟨rfl, rfl⟩ | ⟨before, v, after, rfl, hbefore, hv⟩)
    · rfl
    · exact hfails hbefore hv

/-! ## After a double -/

/-- A double never makes an operation fail. -/
theorem not_fails_float {before : List Value} {x : Binary64} {e : Error} :
    ¬op.Fails before (.float x) e := by
  intro h
  cases h with
  | kind hint hfloat => exact hfloat x rfl

theorem float_notMem_ints {x : Binary64} {ints : List Int64} : Value.float x ∉ ints.map Value.int := by
  simp

/-- With a double among the arguments the running value is the fold of doubles from the first one on. -/
theorem Running.eq_double {args : List Value} {acc : Number} (h : Running op args acc) {x : Binary64}
    (hx : .float x ∈ args) :
    ∃ (ints : List Int64) (y : Binary64) (rest : List Number),
      args = ints.map .int ++ .float y :: rest.map .ofNumber ∧
        acc = .float (op.doubleFold (op.promote ints y) rest) := by
  cases h with
  | exact hn => exact absurd hx float_notMem_ints
  | double ints y rest => exact ⟨ints, y, rest, rfl, rfl⟩

/-- Behind a double only an argument that is no number fails. -/
theorem Fails.eq_kind {before : List Value} {v : Value} {e : Error} (h : op.Fails before v e)
    {x : Binary64} (hx : .float x ∈ before) :
    (∀ y, v ≠ .ofNumber y) ∧ e = .wrongKind (some op.name) "number" v.kindName := by
  cases h with
  | kind hint hfloat =>
    refine ⟨fun y => ?_, rfl⟩
    cases y with
    | int n => exact hint n
    | float y => exact hfloat y
  | zero hop => exact absurd hx float_notMem_ints
  | overflow hdivisor hrange => exact absurd hx float_notMem_ints

/-- Where the arguments pass up to a double, the first that fails stands behind it. -/
theorem Fails.after_float {before after rest tail : List Value} {x : Binary64} {v : Value} {e : Error}
    (hbefore : op.Passes before) (h : op.Fails rest v e)
    (heq : before ++ .float x :: after = rest ++ v :: tail) :
    v ∈ after ∧ .float x ∈ rest := by
  obtain ⟨between, rfl, htail⟩ | ⟨between, rfl, htail⟩ := List.append_eq_append_iff.1 heq
  · cases between with
    | nil =>
      obtain ⟨rfl, -⟩ := List.cons.inj htail
      exact absurd h not_fails_float
    | cons u between =>
      obtain ⟨rfl, rfl⟩ := List.cons.inj htail
      exact ⟨by simp, by simp⟩
  · cases between with
    | nil =>
      obtain ⟨rfl, -⟩ := List.cons.inj htail
      exact absurd h not_fails_float
    | cons u between =>
      obtain ⟨rfl, -⟩ := List.cons.inj htail
      exact absurd h (hbefore rest v between e rfl)

/-! ## Main statement -/

theorem call_builtin (op : Operation) (args : List Value) :
    op.builtin.call args = (op.total args).map Value.ofNumber := by
  rw [← call_eq_total]
  cases op <;> rfl

theorem call_eq_error_iff {args : List Value} {e : Error} :
    op.builtin.call args = .error e ↔ op.total args = .error e := by
  rw [call_builtin]
  cases op.total args <;> simp [Except.map]

/-- A call that gives a value had no argument that fails. -/
theorem passes_of_call {args : List Value} {v : Value} (h : op.builtin.call args = .ok v) :
    op.Passes args := by
  by_contra hfails
  obtain ⟨before, u, after, e, rfl, hfirst⟩ := exists_first_failure hfails
  have herror := call_eq_error_iff.2 (total_eq_error_iff.2 (.inr ⟨before, u, after, rfl, hfirst⟩))
  rw [h] at herror
  cases herror

/-- An operation fails exactly without arguments, or at the first argument that is no number, that makes an exact
result on integers leave the range or that divides an integer by zero. Otherwise it gives the exact left fold of
integers, or a double from the first double on, behind which neither a zero nor an overflow is an error. -/
theorem call_exact (op : Operation) (args : List Value) :
    op.builtin.name = op.name ∧
    (∀ e, op.builtin.call args = .error e ↔
      (args = [] ∧ e = .wrongArity (some op.name) (.atLeast 1) 0) ∨
        ∃ before v after, args = before ++ v :: after ∧ op.Passes before ∧ op.Fails before v e) ∧
    (∀ first others, args = (first :: others).map .int → op.Passes args →
      ∃ n : Int64, op.builtin.call args = .ok (.int n) ∧ n.toInt = op.exactFold first others) ∧
    (∀ x, .float x ∈ args → op.Passes args →
      ∃ (ints : List Int64) (y : Binary64) (rest : List Number),
        args = ints.map .int ++ .float y :: rest.map .ofNumber ∧
          op.builtin.call args = .ok (.float (op.doubleFold (op.promote ints y) rest))) ∧
    (∀ x, args = [.ofNumber x] → op.builtin.call args = .ok (.ofNumber x)) ∧
    (∀ before x after e, args = before ++ .float x :: after → op.Passes before →
      op.builtin.call args = .error e →
        ∃ v ∈ after, (∀ y, v ≠ .ofNumber y) ∧ e = .wrongKind (some op.name) "number" v.kindName) := by
  refine ⟨?_, ?_, ?_, ?_, ?_, ?_⟩
  · cases op <;> rfl
  · exact fun e => call_eq_error_iff.trans total_eq_error_iff
  · rintro first others rfl hpasses
    obtain ⟨acc, htotal, hrunning⟩ := exists_running (by simp) hpasses
    -- without doubles the running value is an integer, namely the exact one
    obtain ⟨m, rfl, hm⟩ := hrunning.of_ints
    refine ⟨m, ?_, hm⟩
    rw [call_builtin, htotal]
    rfl
  · intro x hx hpasses
    obtain ⟨acc, htotal, hrunning⟩ := exists_running (List.ne_nil_of_mem hx) hpasses
    obtain ⟨ints, y, rest, hargs, rfl⟩ := hrunning.eq_double hx
    refine ⟨ints, y, rest, hargs, ?_⟩
    rw [call_builtin, htotal]
    rfl
  · rintro x rfl
    rw [call_builtin, total, toNumber_ofNumber]
    rfl
  · rintro before x after e rfl hbefore herror
    rw [call_eq_error_iff, total_eq_error_iff] at herror
    obtain ⟨hnil, -⟩ | ⟨rest, v, tail, heq, -, hfails⟩ := herror
    · simp at hnil
    -- from the double on nothing overflows, so only another kind of value can fail
    · obtain ⟨hmem, hfloat⟩ := hfails.after_float hbefore heq
      exact ⟨v, hmem, hfails.eq_kind hfloat⟩

/-- The sum of the greatest integer, one and minus one overflows on the way, and a double is divided by zero. -/
theorem call_exact_at_bounds :
    (Operation.add.Passes [.int Int64.maxValue] ∧
      Operation.add.builtin.call [.int Int64.maxValue, .int 1, .int (-1)] = .error (.overflow "+")) ∧
    (Operation.div.Passes [.int Int64.minValue] ∧
      Operation.div.builtin.call [.int Int64.minValue, .int (-1)] = .error (.overflow "/")) ∧
    Operation.div.Passes [.int 7, .int 2, .float (Binary64.ofInt 1), .int 0] ∧
      ∃ y, Operation.div.builtin.call [.int 7, .int 2, .float (Binary64.ofInt 1), .int 0] =
        .ok (.float y) := by
  have hmax : Operation.add.Passes [.int Int64.maxValue] := passes_of_call rfl
  have hmin : Operation.div.Passes [.int Int64.minValue] := passes_of_call rfl
  have hdouble : Operation.div.Passes [.int 7, .int 2, .float (Binary64.ofInt 1), .int 0] :=
    passes_of_call rfl
  have hsum : Operation.add.Fails ([Int64.maxValue].map .int) (.int 1) (.overflow "+") :=
    .overflow (by decide) (by decide)
  have hquotient : Operation.div.Fails ([Int64.minValue].map .int) (.int (-1)) (.overflow "/") :=
    .overflow (by decide) (by decide)
  refine ⟨⟨hmax, ?_⟩, ⟨hmin, ?_⟩, hdouble, ?_⟩
  · exact ((call_exact .add _).2.1 _).2 (.inr ⟨[.int Int64.maxValue], .int 1, [.int (-1)], rfl, hmax, hsum⟩)
  · exact ((call_exact .div _).2.1 _).2 (.inr ⟨[.int Int64.minValue], .int (-1), [], rfl, hmin, hquotient⟩)
  · obtain ⟨ints, y, rest, -, hcall⟩ := (call_exact .div _).2.2.2.1 (Binary64.ofInt 1) (by simp) hdouble
    exact ⟨_, hcall⟩

end Operation

end SmallLisp

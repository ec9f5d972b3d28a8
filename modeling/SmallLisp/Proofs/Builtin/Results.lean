import SmallLisp.Builtin.Basic

/-!
# What builtins give

A builtin hands an argument back, puts its arguments in a list, or gives `nil`, a boolean or a number
(`gives_of_call`). So it makes no function and no set or map: whatever else is in its result was in an argument.
-/

namespace SmallLisp

/-- Arithmetic that does not fail gives a number. -/
theorem Operation.exists_number_of_call {op : Operation} {args : List Value} {v : Value}
    (h : op.call args = .ok v) : ∃ n, v = .ofNumber n := by
  cases args with
  | nil => cases h
  | cons a rest =>
    simp only [Operation.call] at h
    cases hfirst : a.toNumber op.name with
    | error e => simp [hfirst, bind, Except.bind] at h
    | ok first =>
      cases hresult : op.fold first rest with
      | error e => simp [hfirst, hresult, bind, Except.bind] at h
      | ok n =>
        rw [hfirst] at h
        simp only [bind, Except.bind, hresult] at h
        exact ⟨n, (Except.ok.inj h).symm⟩

/-- A comparison that does not fail gives a boolean. -/
theorem Comparison.exists_bool_of_call {c : Comparison} {args : List Value} {v : Value}
    (h : c.call args = .ok v) : ∃ b, v = .bool b := by
  cases args with
  | nil => exact ⟨true, (Except.ok.inj h).symm⟩
  | cons a rest =>
    rw [Comparison.call] at h
    cases hchain : c.chain a rest with
    | error e =>
      rw [hchain] at h
      cases h
    | ok b =>
      rw [hchain] at h
      exact ⟨b, (Except.ok.inj h).symm⟩

namespace Builtin

/-- What a builtin can give on some arguments. -/
inductive Gives (args : List Value) : Value → Prop where
  | argument {v : Value} (h : v ∈ args) : Gives args v
  | list : Gives args (.list args)
  | nil : Gives args .nil
  | bool (b : Bool) : Gives args (.bool b)
  | number (n : Number) : Gives args (.ofNumber n)

theorem gives_last (args : List Value) : Gives args (last args) := by
  unfold last
  cases hlast : args.getLast? with
  | none => exact .nil
  | some a => exact .argument (List.mem_of_getLast? hlast)

/-- Whatever a builtin gives was handed in, lists what was handed in, or has no parts. -/
theorem gives_of_call {b : Builtin} {args : List Value} {v : Value} (h : b.call args = .ok v) :
    Gives args v := by
  cases b with
  | add | sub | mul | div =>
    obtain ⟨n, rfl⟩ := Operation.exists_number_of_call h
    exact .number n
  | less | greater | lessEqual | greaterEqual =>
    obtain ⟨b, rfl⟩ := Comparison.exists_bool_of_call h
    exact .bool b
  | equal =>
    cases h
    exact .bool _
  | printLines =>
    cases h
    exact .nil
  | list =>
    cases h
    exact .list
  | sequence =>
    cases h
    exact gives_last args
  | isList =>
    rw [call] at h
    -- the builtins that take one value refuse any other number of arguments
    cases hsingle : single "list?" args <;> rw [hsingle] at h <;> cases h
    exact .bool _
  | isEmpty =>
    rw [call] at h
    cases hcount : elementCount "empty?" args <;> rw [hcount] at h <;> cases h
    exact .bool _
  | count =>
    rw [call] at h
    cases hcount : elementCount "count" args with
    | error e =>
      rw [hcount] at h
      cases h
    | ok n =>
      rw [hcount] at h
      -- a count beyond the range of integers is refused
      simp only [Except.bind, countValue] at h
      split at h <;> cases h
      exact .number (.int _)
  | not =>
    rw [call, negation] at h
    cases hsingle : single "not" args with
    | error e =>
      rw [hsingle] at h
      cases h
    | ok a =>
      rw [hsingle] at h
      cases a <;> cases h
      exact .bool _

end Builtin

end SmallLisp

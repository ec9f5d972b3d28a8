import Mathlib.Data.List.Chain
import SmallLisp.Proofs.Binary64.Nearest
import SmallLisp.Proofs.Builtin.Arithmetic

/-!
# Comparisons by value

A number has an exact value, and beside a number of the other kind an integer is worth the double nearest to it
(`Number.valueBeside`). A comparison holds for a row of numbers when it holds for each of them and the next one by
these values (`adjacent_iff`). Nearest doubles are in the order of the integers (`toBinary64_le`), though different
integers may have the same one. So a strict comparison that holds is right about the exact values and passes from
neighbours to all pairs (`exact_lt_of_below`, `Below.trans`); a weak one holds wherever it is right
(`atMost_of_exact_le`), and it may hold where it is wrong. Main statement: `comparison_by_value`.
-/

namespace SmallLisp

open Binary64 (Nearest)

namespace Number

/-! ## Values -/

/-- An integer, or a double that is neither infinite nor a NaN. -/
def IsFinite : Number → Prop
  | .int _ => True
  | .float x => x.isFinite = true

instance : DecidablePred IsFinite
  | .int _ => inferInstanceAs (Decidable True)
  | .float x => inferInstanceAs (Decidable (x.isFinite = true))

/-- The exact value of a finite number. -/
def exact : Number → ℚ
  | .int n => n.toInt
  | .float x => x.value

/-- What a number is worth beside another one: two integers are worth themselves, any other number its double. -/
def valueBeside : Number → Number → ℚ
  | .int m, .int _ => m.toInt
  | a, _ => a.toBinary64.value

/-- The order of two numbers by what they are worth beside each other. -/
def Below (a b : Number) : Prop :=
  a.valueBeside b < b.valueBeside a

/-- The weak order of two numbers by what they are worth beside each other. -/
def AtMost (a b : Number) : Prop :=
  a.valueBeside b ≤ b.valueBeside a

/-- Beside a double every number counts as the double it is converted to. -/
@[simp]
theorem valueBeside_float (a : Number) (x : Binary64) : a.valueBeside (.float x) = a.toBinary64.value := by
  cases a <;> rfl

@[simp]
theorem float_valueBeside (x : Binary64) (a : Number) : (Number.float x).valueBeside a = x.value := rfl

theorem natAbs_toInt_le (n : Int64) : n.toInt.natAbs ≤ 2 ^ 63 := by
  have hlower := n.le_toInt
  have hupper := n.toInt_lt
  omega

/-- The double of a number is the one nearest to it. -/
theorem nearest_toBinary64 {a : Number} (ha : a.IsFinite) : Nearest a.exact a.toBinary64 := by
  cases a with
  | int n => exact Binary64.nearest_ofInt (natAbs_toInt_le n)
  | float x => exact Binary64.nearest_value ha

variable {a b d : Number}

/-- Two numbers are worth their exact values beside each other, or their doubles. -/
theorem valueBeside_cases (a b : Number) :
    a.valueBeside b = a.exact ∧ b.valueBeside a = b.exact ∨
      a.valueBeside b = a.toBinary64.value ∧ b.valueBeside a = b.toBinary64.value := by
  cases a with
  | float x => exact .inr ⟨rfl, valueBeside_float b x⟩
  | int m =>
    cases b with
    | float y => exact .inr ⟨rfl, rfl⟩
    | int n => exact .inl ⟨rfl, rfl⟩

/-- Finite numbers compare by the values that they have beside each other. -/
theorem compare?_eq (ha : a.IsFinite) (hb : b.IsFinite) :
    a.compare? b = some (compare (a.valueBeside b) (b.valueBeside a)) := by
  have hdoubles : a.toBinary64.compare? b.toBinary64 = some (compare a.toBinary64.value b.toBinary64.value) :=
    Binary64.compare?_eq_compare (nearest_toBinary64 ha).isFinite (nearest_toBinary64 hb).isFinite
  cases a with
  | float x => rwa [valueBeside_float]
  | int m =>
    cases b with
    | float y => exact hdoubles
    | int n =>
      exact congrArg some (Binary64.compare_eq_of_lt_iff Int.cast_lt.symm Int.cast_lt.symm)

/-- Doubles are in the order of the numbers they are nearest to. -/
theorem toBinary64_le (ha : a.IsFinite) (hb : b.IsFinite) (h : a.exact ≤ b.exact) :
    a.toBinary64.value ≤ b.toBinary64.value := by
  have hna := nearest_toBinary64 ha
  have hnb := nearest_toBinary64 hb
  rcases lt_or_eq_of_le h with hlt | heq
  · exact hna.value_le hnb hlt
  · -- equal values: if one is a double, the other one is that double, and equal integers have equal doubles
    cases a with
    | float x => exact (hnb.value_eq ha heq).ge.trans' heq.le
    | int m =>
      cases b with
      | float y => exact (hna.value_eq hb heq.symm).le.trans heq.le
      | int n =>
        have hint : m.toInt = n.toInt := Int.cast_injective heq
        simp only [toBinary64, hint, le_refl]

/-- A number that is below another one has the smaller exact value. -/
theorem exact_lt_of_below (ha : a.IsFinite) (hb : b.IsFinite) (h : a.Below b) : a.exact < b.exact := by
  unfold Below at h
  rcases valueBeside_cases a b with ⟨hva, hvb⟩ | ⟨hva, hvb⟩
  · rwa [hva, hvb] at h
  · rw [hva, hvb] at h
    by_contra hle
    exact absurd h (not_lt.2 (toBinary64_le hb ha (not_lt.1 hle)))

/-- Conversion does not turn an order around: what is at most exactly is at most for the comparison. -/
theorem atMost_of_exact_le (ha : a.IsFinite) (hb : b.IsFinite) (h : a.exact ≤ b.exact) : a.AtMost b := by
  unfold AtMost
  rcases valueBeside_cases a b with ⟨hva, hvb⟩ | ⟨hva, hvb⟩
  · rwa [hva, hvb]
  · rw [hva, hvb]
    exact toBinary64_le ha hb h

/-- What is at most for the comparison is at most after both are converted. -/
theorem toBinary64_le_of_atMost (ha : a.IsFinite) (hb : b.IsFinite) (h : a.AtMost b) :
    a.toBinary64.value ≤ b.toBinary64.value := by
  unfold AtMost at h
  rcases valueBeside_cases a b with ⟨hva, hvb⟩ | ⟨hva, hvb⟩
  · rw [hva, hvb] at h
    exact toBinary64_le ha hb h
  · rwa [hva, hvb] at h

/-- The strict order passes from neighbours on, whatever the kinds of the three numbers are. -/
theorem Below.trans (ha : a.IsFinite) (hb : b.IsFinite) (hd : d.IsFinite) (hab : a.Below b) (hbd : b.Below d) :
    a.Below d := by
  have hab' := exact_lt_of_below ha hb hab
  have hbd' := exact_lt_of_below hb hd hbd
  unfold Below at hab hbd ⊢
  cases a with
  | float x =>
    -- the first step is between doubles, and the second one does not lead back
    simp only [float_valueBeside, valueBeside_float] at hab ⊢
    exact hab.trans_le (toBinary64_le hb hd hbd'.le)
  | int m =>
    cases d with
    | float y =>
      simp only [float_valueBeside, valueBeside_float] at hbd ⊢
      exact (toBinary64_le ha hb hab'.le).trans_lt hbd
    | int n => exact hab'.trans hbd'

end Number

namespace Comparison

/-! ## Rows of numbers -/

/-- The builtin that runs a comparison. -/
def builtin : Comparison → Builtin
  | .less => .less
  | .greater => .greater
  | .lessEqual => .lessEqual
  | .greaterEqual => .greaterEqual

/-- A comparison of rational numbers. -/
def Orders : Comparison → ℚ → ℚ → Prop
  | .less, p, q => p < q
  | .greater, p, q => q < p
  | .lessEqual, p, q => p ≤ q
  | .greaterEqual, p, q => q ≤ p

/-- The comparisons that no number passes with itself. -/
def isStrict : Comparison → Bool
  | .less | .greater => true
  | .lessEqual | .greaterEqual => false

/-- A comparison of two numbers by what they are worth beside each other. -/
def Admits (c : Comparison) (a b : Number) : Prop :=
  c.Orders (a.valueBeside b) (b.valueBeside a)

/-- Whether each number of a row and the next one pass a comparison. -/
def adjacent (c : Comparison) : List Number → Bool
  | a :: b :: rest => (a.compare? b).any c.admits && c.adjacent (b :: rest)
  | _ => true

variable (c : Comparison) {a b d : Number} {numbers : List Number}

instance : Trans c.Orders c.Orders c.Orders where
  trans {p q r} hpq hqr := by
    cases c with
    | less => exact lt_trans hpq hqr
    | greater => exact lt_trans hqr hpq
    | lessEqual => exact le_trans hpq hqr
    | greaterEqual => exact le_trans hqr hpq

/-- A comparison admits the ordering of two rationals exactly when it orders them. -/
theorem admits_compare (p q : ℚ) : c.admits (compare p q) = true ↔ c.Orders p q := by
  cases c with
  | less => simp [admits, Orders, compare_lt_iff_lt]
  | greater => simp [admits, Orders, compare_gt_iff_gt]
  | lessEqual => simp [admits, Orders, compare_le_iff_le]
  | greaterEqual => simp [admits, Orders, compare_ge_iff_ge]

/-- On two numbers a comparison asks how they compare; a NaN compares with nothing. -/
theorem holds_ofNumber (a b : Number) :
    c.holds (.ofNumber a) (.ofNumber b) = .ok ((a.compare? b).any c.admits) := by
  simp only [holds, Operation.toNumber_ofNumber]
  rfl

/-- Along a row of numbers a comparison gives an answer, and no error. -/
theorem chain_ofNumber (first : Number) (others : List Number) :
    c.chain (.ofNumber first) (others.map .ofNumber) = .ok (c.adjacent (first :: others)) := by
  induction others generalizing first with
  | nil => rfl
  | cons next others ih =>
    simp only [List.map_cons, chain, holds_ofNumber, adjacent]
    cases (first.compare? next).any c.admits with
    | false => rfl
    | true => exact ih next

/-- On numbers a comparison gives whether all neighbours are ordered. -/
theorem call_ofNumber (numbers : List Number) :
    c.builtin.call (numbers.map .ofNumber) = .ok (.bool (c.adjacent numbers)) := by
  have hcall : c.builtin.call (numbers.map .ofNumber) = c.call (numbers.map .ofNumber) := by cases c <;> rfl
  rw [hcall]
  cases numbers with
  | nil => rfl
  | cons first others =>
    rw [List.map_cons, call, chain_ofNumber]
    rfl

/-- A comparison holds for a row of finite numbers exactly when all neighbours pass it. -/
theorem adjacent_iff (hfinite : ∀ a ∈ numbers, a.IsFinite) :
    c.adjacent numbers = true ↔ numbers.IsChain c.Admits := by
  induction numbers with
  | nil => simp [adjacent]
  | cons a rest ih =>
    cases rest with
    | nil => simp [adjacent]
    | cons b rest =>
      have ha := hfinite a List.mem_cons_self
      have hb := hfinite b (List.mem_cons_of_mem a List.mem_cons_self)
      have hrest := ih fun d hd => hfinite d (List.mem_cons_of_mem a hd)
      rw [adjacent, Bool.and_eq_true, hrest, List.isChain_cons_cons, Number.compare?_eq ha hb, Option.any_some,
        admits_compare]
      rfl

theorem call_pair_iff (ha : a.IsFinite) (hb : b.IsFinite) :
    c.builtin.call [.ofNumber a, .ofNumber b] = .ok (.bool true) ↔ c.Admits a b := by
  have hpair := adjacent_iff c (by simp [ha, hb] : ∀ a' ∈ [a, b], a'.IsFinite)
  have hcall := c.call_ofNumber [a, b]
  rw [List.isChain_pair] at hpair
  rw [show [Value.ofNumber a, Value.ofNumber b] = [a, b].map .ofNumber from rfl, hcall, ← hpair]
  simp

/-! ## Neighbours and exact values -/

variable {c}

/-- What a strict comparison admits is ordered exactly. -/
theorem orders_of_admits (hc : c.isStrict = true) (ha : a.IsFinite) (hb : b.IsFinite) (h : c.Admits a b) :
    c.Orders a.exact b.exact := by
  cases c with
  | less => exact Number.exact_lt_of_below ha hb h
  | greater => exact Number.exact_lt_of_below hb ha h
  | lessEqual => cases hc
  | greaterEqual => cases hc

/-- A strict comparison is transitive on finite numbers. -/
theorem Admits.trans (hc : c.isStrict = true) (ha : a.IsFinite) (hb : b.IsFinite) (hd : d.IsFinite)
    (hab : c.Admits a b) (hbd : c.Admits b d) : c.Admits a d := by
  cases c with
  | less => exact Number.Below.trans ha hb hd hab hbd
  | greater => exact Number.Below.trans hd hb ha hbd hab
  | lessEqual => cases hc
  | greaterEqual => cases hc

theorem admits_of_orders (hc : c.isStrict = false) (ha : a.IsFinite) (hb : b.IsFinite)
    (h : c.Orders a.exact b.exact) : c.Admits a b := by
  cases c with
  | less => cases hc
  | greater => cases hc
  | lessEqual => exact Number.atMost_of_exact_le ha hb h
  | greaterEqual => exact Number.atMost_of_exact_le hb ha h

/-- What a comparison that is not strict admits is ordered after conversion. -/
theorem orders_toBinary64 (hc : c.isStrict = false) (ha : a.IsFinite) (hb : b.IsFinite) (h : c.Admits a b) :
    c.Orders a.toBinary64.value b.toBinary64.value := by
  cases c with
  | less => cases hc
  | greater => cases hc
  | lessEqual => exact Number.toBinary64_le_of_atMost ha hb h
  | greaterEqual => exact Number.toBinary64_le_of_atMost hb ha h

/-- If no integer is changed by promotion, or none is promoted, numbers are compared by their exact values. -/
theorem admits_iff_orders
    (h : (∀ a ∈ numbers, a.toBinary64.value = a.exact) ∨ ∀ a ∈ numbers, ∃ n, a = .int n)
    (ha : a ∈ numbers) (hb : b ∈ numbers) : c.Admits a b ↔ c.Orders a.exact b.exact := by
  unfold Admits
  rcases h with hexact | hints
  · rcases Number.valueBeside_cases a b with ⟨hva, hvb⟩ | ⟨hva, hvb⟩
    · rw [hva, hvb]
    · rw [hva, hvb, hexact a ha, hexact b hb]
  · obtain ⟨m, rfl⟩ := hints a ha
    obtain ⟨n, rfl⟩ := hints b hb
    exact Iff.rfl

/-- Values in order from each number to the next one are in order throughout. -/
theorem isChain_iff_pairwise_value (value : Number → ℚ) :
    numbers.IsChain (fun a b => c.Orders (value a) (value b)) ↔
      numbers.Pairwise fun a b => c.Orders (value a) (value b) := by
  have : Trans (fun a b => c.Orders (value a) (value b)) (fun a b => c.Orders (value a) (value b))
      (fun a b => c.Orders (value a) (value b)) := ⟨fun hab hbd => Trans.trans hab hbd⟩
  exact List.isChain_iff_pairwise

/-- What passes from neighbours on holds throughout a row of finite numbers. -/
theorem pairwise_of_isChain (hfinite : ∀ a ∈ numbers, a.IsFinite) (hc : c.isStrict = true)
    (h : numbers.IsChain c.Admits) : numbers.Pairwise c.Admits := by
  let Step (a b : Number) : Prop := a.IsFinite ∧ b.IsFinite ∧ c.Admits a b
  have : Trans Step Step Step :=
    ⟨fun ⟨ha, hb, hab⟩ ⟨_, hd, hbd⟩ => ⟨ha, hd, Admits.trans hc ha hb hd hab hbd⟩⟩
  have hsteps : numbers.IsChain Step :=
    h.imp_of_mem_imp fun a b ha hb hab => ⟨hfinite a ha, hfinite b hb, hab⟩
  exact hsteps.pairwise.imp fun hstep => hstep.2.2

/-- A comparison of finite numbers always answers. It holds when all neighbours pass it, two integers by their values
and any other pair by the values of the nearest doubles. If no integer is changed by promotion, or none is promoted,
then it holds exactly when the exact values are in order, and it holds for every pair then. In general a strict
comparison that holds is right about the exact values of every pair and holds for it; a weak one holds wherever the
exact values are in order, and where it holds, the nearest doubles of every pair are in order. -/
theorem comparison_by_value (c : Comparison) {numbers : List Number} (hfinite : ∀ a ∈ numbers, a.IsFinite) :
    ∃ answer, c.builtin.call (numbers.map .ofNumber) = .ok (.bool answer) ∧
      (answer = true ↔ numbers.IsChain fun a b => c.Orders (a.valueBeside b) (b.valueBeside a)) ∧
      (∀ a ∈ numbers, Nearest a.exact a.toBinary64) ∧
      (∀ n : Int64, .int n ∈ numbers → n.toInt.natAbs ≤ 2 ^ 53 →
        (Number.int n).toBinary64.value = (Number.int n).exact) ∧
      ((∀ a ∈ numbers, a.toBinary64.value = a.exact) ∨ (∀ a ∈ numbers, ∃ n, a = .int n) →
        (answer = true ↔ numbers.Pairwise fun a b => c.Orders a.exact b.exact) ∧
        (answer = true → numbers.Pairwise fun a b =>
          c.builtin.call [.ofNumber a, .ofNumber b] = .ok (.bool true))) ∧
      (c.isStrict = true → answer = true → numbers.Pairwise fun a b =>
        c.Orders a.exact b.exact ∧ c.builtin.call [.ofNumber a, .ofNumber b] = .ok (.bool true)) ∧
      (c.isStrict = false →
        ((numbers.Pairwise fun a b => c.Orders a.exact b.exact) → answer = true) ∧
        (answer = true → numbers.Pairwise fun a b => c.Orders a.toBinary64.value b.toBinary64.value)) := by
  refine ⟨c.adjacent numbers, c.call_ofNumber numbers, c.adjacent_iff hfinite,
    fun a ha => Number.nearest_toBinary64 (hfinite a ha), fun n _ hn => Binary64.value_ofInt hn, ?_, ?_, ?_⟩
  · intro hkinds
    -- in such a row no comparison loses anything to rounding, so neighbours are compared exactly
    have hiff : c.adjacent numbers = true ↔ numbers.Pairwise fun a b => c.Orders a.exact b.exact := by
      rw [c.adjacent_iff hfinite, ← isChain_iff_pairwise_value]
      exact List.IsChain.iff_of_mem_imp fun a b ha hb => admits_iff_orders hkinds ha hb
    refine ⟨hiff, fun hanswer => (hiff.1 hanswer).imp_of_mem ?_⟩
    intro a b ha hb hab
    exact (c.call_pair_iff (hfinite a ha) (hfinite b hb)).2 ((admits_iff_orders hkinds ha hb).2 hab)
  · intro hc hanswer
    -- a strict comparison is transitive, rounding or not
    refine (pairwise_of_isChain hfinite hc ((c.adjacent_iff hfinite).1 hanswer)).imp_of_mem ?_
    intro a b ha hb hab
    exact ⟨orders_of_admits hc (hfinite a ha) (hfinite b hb) hab,
      (c.call_pair_iff (hfinite a ha) (hfinite b hb)).2 hab⟩
  · intro hc
    constructor
    · intro hexact
      rw [c.adjacent_iff hfinite]
      -- rounding keeps the order, though it may make different numbers equal
      refine ((isChain_iff_pairwise_value Number.exact).2 hexact).imp_of_mem_imp ?_
      exact fun a b ha hb hab => admits_of_orders hc (hfinite a ha) (hfinite b hb) hab
    · intro hanswer
      rw [← isChain_iff_pairwise_value (fun a => a.toBinary64.value)]
      refine ((c.adjacent_iff hfinite).1 hanswer).imp_of_mem_imp ?_
      exact fun a b ha hb hab => orders_toBinary64 hc (hfinite a ha) (hfinite b hb) hab

/-- A row in which 2^53 + 1 is promoted to 2^53, strictly below the double 2^53 + 2. -/
theorem comparison_by_value_promoted :
    let numbers : List Number := [.int 9007199254740992, .int 9007199254740993, .float ⟨0x4340000000000001⟩]
    (∀ a ∈ numbers, a.IsFinite) ∧ Comparison.less.builtin.call (numbers.map .ofNumber) = .ok (.bool true) ∧
      numbers.Pairwise fun a b => a.exact < b.exact := by
  intro numbers
  have hfinite : ∀ a ∈ numbers, a.IsFinite := by decide
  have hanswer : Comparison.less.adjacent numbers = true := by decide +kernel
  have hcall := Comparison.less.call_ofNumber numbers
  rw [hanswer] at hcall
  obtain ⟨answer, hcall', -, -, -, -, hstrict, -⟩ := comparison_by_value .less hfinite
  have hsame : answer = true := by
    rw [hcall] at hcall'
    exact (Value.bool.inj (Except.ok.inj hcall')).symm
  exact ⟨hfinite, hcall, (hstrict rfl hsame).imp And.left⟩

/-- The integer 2^53 + 1 passes as at most the double 2^53, which passes as at most the integer 2^53. The row of the
three passes, and its ends do not. -/
theorem lessEqual_beyond_doubles :
    let above : Number := .int 9007199254740993
    let double : Number := .float ⟨0x4340000000000000⟩
    let power : Number := .int 9007199254740992
    double.IsFinite ∧ double.exact < above.exact ∧
      Comparison.lessEqual.builtin.call [.ofNumber above, .ofNumber double] = .ok (.bool true) ∧
      Comparison.lessEqual.builtin.call [.ofNumber above, .ofNumber double, .ofNumber power] = .ok (.bool true) ∧
      Comparison.lessEqual.builtin.call [.ofNumber above, .ofNumber power] = .ok (.bool false) := by
  intro above double power
  have hcall : ∀ numbers answer, Comparison.lessEqual.adjacent numbers = answer →
      Comparison.lessEqual.builtin.call (numbers.map .ofNumber) = .ok (.bool answer) := by
    rintro numbers _ rfl
    exact Comparison.lessEqual.call_ofNumber numbers
  refine ⟨by decide, ?_, hcall [above, double] true (by decide +kernel),
    hcall [above, double, power] true (by decide +kernel), hcall [above, power] false (by decide +kernel)⟩
  have hvalue : double.exact = power.exact := by
    have hdouble : (⟨0x4340000000000000⟩ : Binary64) = Binary64.ofInt 9007199254740992 := by decide +kernel
    show Binary64.value _ = _
    rw [hdouble]
    exact Binary64.value_ofInt (by decide)
  rw [hvalue]
  exact Int.cast_lt.2 (by decide)

end Comparison

end SmallLisp

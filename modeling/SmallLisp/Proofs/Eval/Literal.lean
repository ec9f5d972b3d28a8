import SmallLisp.Eval.Basic
import SmallLisp.Proofs.Value.Occurs
import SmallLisp.Proofs.Value.ReadBack

/-!
# Literal data

A value without symbols and without lists that have elements is literal: evaluating it looks nothing up and calls
nothing. Its sets and maps are rebuilt from the values of their elements, and these are the elements themselves, in
order and all different, so the value is its own value. It is so at every depth that its nesting allows
(`Eval.eval_literal`), and below that the limit is the only error. Functions are literal too, whatever their bodies
hold.
-/

namespace SmallLisp

namespace Value

/-- Whether a value, its parts aside, is neither looked up nor applied. -/
def standsForItself : Value → Bool
  | .symbol _ => false
  | .list (_ :: _) => false
  | _ => true

/-- Values in which no symbol and no list with elements occurs, at any depth. -/
def isLiteral (v : Value) : Bool :=
  v.everywhere standsForItself

mutual

/-- The number of evaluations, each inside the one before, that a literal takes. -/
def nesting : Value → Nat
  | .list items => itemNesting items + 1
  | .vector items => itemNesting items + 1
  | .map entries => entryNesting entries + 1
  | .set items => itemNesting items + 1
  | _ => 1

def itemNesting : List Value → Nat
  | [] => 0
  | v :: rest => max (nesting v) (itemNesting rest)

def entryNesting : List (Value × Value) → Nat
  | [] => 0
  | (k, v) :: rest => max (max (nesting k) (nesting v)) (entryNesting rest)

end

theorem nesting_pos (v : Value) : 0 < v.nesting := by
  cases v <;> simp only [nesting] <;> omega

/-- What is in order at every depth, captured values included, is so without them. -/
theorem Canonical.isSorted {v : Value} (h : v.Canonical) : v.isSorted = true := by
  induction v using parts_induction with
  | step v helements hentries =>
    cases v with
    | list items | vector items | set items =>
      have hitems := everyItem_iff.2 fun item hitem => helements items rfl item hitem (h.part hitem)
      exact Bool.and_eq_true_iff.2 ⟨h.self, hitems⟩
    | map entries =>
      have hitems := everyEntry_iff.2 fun entry hentry =>
        ⟨(hentries entries rfl entry hentry).1 (h.part (mem_parts_map.2 ⟨entry, hentry, .inl rfl⟩)),
          (hentries entries rfl entry hentry).2 (h.part (mem_parts_map.2 ⟨entry, hentry, .inr rfl⟩))⟩
      exact Bool.and_eq_true_iff.2 ⟨h.self, hitems⟩
    | _ => exact h.self

end Value

namespace Eval

/-- A value that an evaluator takes for itself, as far as its nesting allows. -/
def Fixes (ev : Evaluator) (depth : Nat) (v : Value) : Prop :=
  ∀ env, ev v env = if v.nesting ≤ depth then pure (v, env) else throw .nestingLimit

variable {ev : Evaluator} {depth : Nat}

/-- Literals in turn evaluate to themselves, unless one of them is nested too deeply. -/
theorem each_of_fixes {items : List Value} (h : ∀ v ∈ items, Fixes ev depth v) (env : Env) :
    each ev items env =
      if Value.itemNesting items ≤ depth then pure (items, env) else throw .nestingLimit := by
  induction items with
  | nil => rfl
  | cons v rest ih =>
    obtain ⟨hv, hrest⟩ := List.forall_mem_cons.1 h
    rw [each, hv env, Value.itemNesting]
    by_cases hfits : v.nesting ≤ depth
    · rw [if_pos hfits, pure_bind]
      dsimp only
      rw [ih hrest]
      by_cases hothers : Value.itemNesting rest ≤ depth
      · rw [if_pos hothers, if_pos (Nat.max_le.2 ⟨hfits, hothers⟩), pure_bind]
      · rw [if_neg hothers, if_neg fun hmax => hothers (Nat.max_le.1 hmax).2]
        rfl
    · rw [if_neg hfits, if_neg fun hmax => hfits (Nat.max_le.1 hmax).1]
      rfl

/-- The entries of a map are put at the end, one after the other: each key comes after those that are there. -/
theorem entries_of_fixes {items : List (Value × Value)}
    (h : ∀ item ∈ items, Fixes ev depth item.1 ∧ Fixes ev depth item.2) (done : List (Value × Value))
    (horder : Sorted.Increasing (fun a b => Value.cmp a.1 b.1) (done ++ items)) (env : Env) :
    entries ev done items env =
      if Value.entryNesting items ≤ depth then pure (done ++ items, env) else throw .nestingLimit := by
  induction items generalizing done with
  | nil =>
    rw [List.append_nil]
    rfl
  | cons item rest ih =>
    obtain ⟨key, value⟩ := item
    obtain ⟨hitem, hrest⟩ := List.forall_mem_cons.1 h
    obtain ⟨hkey, hvalue⟩ : Fixes ev depth key ∧ Fixes ev depth value := hitem
    -- the entries are in order, so each new key is behind the ones already there
    have hgreatest : ∀ entry ∈ done, Value.cmp key entry.1 = .gt := horder.gt_of_mem
    have hlookup : Value.lookup? key done = none := Sorted.lookup?_of_forall_gt hgreatest
    have hinsert : Value.insertEntry key value done = done ++ [(key, value)] :=
      Sorted.insert_of_forall_gt hgreatest
    have hlater := ih hrest (done ++ [(key, value)]) (by simpa using horder)
    rw [List.append_assoc, List.singleton_append] at hlater
    rw [entries, hkey env, Value.entryNesting]
    by_cases hkeyFits : key.nesting ≤ depth
    · rw [if_pos hkeyFits, pure_bind]
      dsimp only
      rw [hvalue env]
      by_cases hvalueFits : value.nesting ≤ depth
      · rw [if_pos hvalueFits, pure_bind]
        dsimp only
        rw [hlookup, hinsert]
        refine hlater.trans ?_
        simp only [Nat.max_le, hkeyFits, hvalueFits, true_and]
      · rw [if_neg hvalueFits, if_neg fun hmax => hvalueFits (Nat.max_le.1 (Nat.max_le.1 hmax).1).2]
        rfl
    · rw [if_neg hkeyFits, if_neg fun hmax => hkeyFits (Nat.max_le.1 (Nat.max_le.1 hmax).1).1]
      rfl

/-- A literal value is its own value, and evaluating it has no effect. Only the limit can be in the way. -/
theorem eval_literal (host : Host) (depth : Nat) {v : Value} (hliteral : v.isLiteral = true)
    (hsorted : v.isSorted = true) : Fixes (eval host depth) depth v := by
  -- by induction on the depth, not on the value: the parts are evaluated one level further down
  induction depth generalizing v with
  | zero =>
    intro env
    rw [if_neg (Nat.not_le_of_lt v.nesting_pos)]
    rfl
  | succ depth ih =>
    intro env
    have helements : ∀ items, v.elements? = some items → ∀ item ∈ items, Fixes (eval host depth) depth item :=
      fun items hitems item hitem => ih (Value.everywhere_of_mem_elements hliteral hitems item hitem)
        (Value.everywhere_of_mem_elements hsorted hitems item hitem)
    cases v with
    | symbol s => cases hliteral
    | list items =>
      cases items with
      | nil => rfl
      | cons head operands => cases hliteral
    | vector items =>
      have heach := each_of_fixes (helements items rfl) env
      simp only [eval, form, heach, Value.nesting, Nat.add_le_add_iff_right]
      split <;> rfl
    | set items =>
      have heach := each_of_fixes (helements items rfl) env
      have horder : (Value.set items).inOrder = true := (Bool.and_eq_true_iff.1 hsorted).1
      have hset := Value.ofItems_of_increasing (of_decide_eq_true horder)
      simp only [eval, form, heach, Value.nesting, Nat.add_le_add_iff_right]
      split
      · rw [pure_bind, hset]
      · rfl
    | map items =>
      have hitems : ∀ item ∈ items,
          Fixes (eval host depth) depth item.1 ∧ Fixes (eval host depth) depth item.2 := by
        intro item hitem
        obtain ⟨hkey, hvalue⟩ := Value.everywhere_of_mem_entries hliteral hitem
        obtain ⟨hkey', hvalue'⟩ := Value.everywhere_of_mem_entries hsorted hitem
        exact ⟨ih hkey hkey', ih hvalue hvalue'⟩
      have horder : (Value.map items).inOrder = true := (Bool.and_eq_true_iff.1 hsorted).1
      have hentries := entries_of_fixes hitems [] (of_decide_eq_true horder) env
      simp only [eval, form, hentries, Value.nesting, Nat.add_le_add_iff_right]
      split <;> rfl
    | _ => exact (if_pos (Nat.succ_le_succ (Nat.zero_le depth))).symm

end Eval

end SmallLisp

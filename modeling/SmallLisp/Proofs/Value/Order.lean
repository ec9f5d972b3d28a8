import SmallLisp.Value.Collection
import SmallLisp.Value.Hash

/-!
# The value order is a total order

Comparing two values is comparing two rows of pieces, piece by piece: a value is laid out as the rank of
its kind with its content, and a collection as its elements between that piece and an end mark. The
layout (`pieces`) turns the order into a lexicographic one (`cmpUnder_eq_compare_pieces`), which makes it
oriented and transitive for every order of closure identities. Main statement: the order, the equality
and the hash of values agree with each other (`order_equality_hash_coherent`).
-/

namespace SmallLisp

/-! ## Pieces of a value -/

/-- One piece of a value in the order: a mark, and the content that tells values with one mark apart. -/
structure OrderPiece where
  mark : Nat
  number : Int := 0
  text : String := ""
  identity : Nat := 0
deriving DecidableEq, Repr

namespace OrderPiece

variable (identities : Nat → Nat → Ordering)

/-- The order of pieces: by mark first, then by content. -/
def cmp : OrderPiece → OrderPiece → Ordering :=
  compareLex (compareOn mark) (compareLex (compareOn number)
    (compareLex (compareOn text) fun a b => identities a.identity b.identity))

/-- The mark after the last element of a collection, before the mark of every value. -/
def ending : OrderPiece := { mark := 0 }

instance [Std.TransCmp identities] :
    Std.TransCmp (fun a b : OrderPiece => identities a.identity b.identity) where
  eq_swap := Std.OrientedCmp.eq_swap
  isLE_trans := Std.TransCmp.isLE_trans

instance [Std.TransCmp identities] : Std.TransCmp (cmp identities) :=
  inferInstanceAs (Std.TransCmp (compareLex _ _))

/-- The order of pieces written out: the first field that differs decides. -/
theorem cmp_eq_then (a b : OrderPiece) :
    cmp identities a b = (compare a.mark b.mark).then ((compare a.number b.number).then
      ((compare a.text b.text).then (identities a.identity b.identity))) := rfl

/-- Pieces with different marks compare by their marks. -/
theorem cmp_of_mark_ne {a b : OrderPiece} (h : a.mark ≠ b.mark) :
    cmp identities a b = compare a.mark b.mark := by
  have hne : compare a.mark b.mark ≠ .eq := by simpa using h
  rw [cmp_eq_then]
  cases hmark : compare a.mark b.mark <;> simp_all

end OrderPiece

namespace Value

/-- The piece that a value starts with. -/
def headPiece (v : Value) : OrderPiece :=
  match v with
  | .bool b => { mark := v.rank + 1, number := b.toNat }
  | .int n => { mark := v.rank + 1, number := n.toInt }
  | .float x => { mark := v.rank + 1, number := x.orderKey }
  | .char c => { mark := v.rank + 1, number := c.toNat }
  | .string s => { mark := v.rank + 1, text := s }
  | .symbol s => { mark := v.rank + 1, text := s.name }
  | .keyword k => { mark := v.rank + 1, text := k.name }
  | .native f => { mark := v.rank + 1, text := f.name }
  | .fn f => { mark := v.rank + 1, identity := f.identity }
  | v => { mark := v.rank + 1 }

mutual

/-- The pieces after the first one: those of the elements, for a collection. -/
def innerPieces : Value → List OrderPiece
  | .list items => itemPieces items
  | .vector items => itemPieces items
  | .map entries => entryPieces entries
  | .set items => itemPieces items
  | _ => []

/-- The pieces of the elements one after the other, and the end mark. -/
def itemPieces : List Value → List OrderPiece
  | [] => [.ending]
  | v :: rest => v.headPiece :: (innerPieces v ++ itemPieces rest)

/-- The pieces of the entries, each key before its value, and the end mark. -/
def entryPieces : List (Value × Value) → List OrderPiece
  | [] => [.ending]
  | (k, v) :: rest =>
    k.headPiece :: (innerPieces k ++ v.headPiece :: (innerPieces v ++ entryPieces rest))

end

/-- A value laid out in pieces. -/
def pieces (v : Value) : List OrderPiece :=
  v.headPiece :: v.innerPieces

/-- The mark of a value is the rank of its kind, above the mark of an end. -/
theorem mark_headPiece (v : Value) : v.headPiece.mark = v.rank + 1 := by
  cases v <;> rfl

theorem compare_bool_eq (a b : Bool) : compare a b = compare (a.toNat : Int) b.toNat := by
  cases a <;> cases b <;> rfl

/-- Characters are ordered by their numbers. -/
theorem compare_char_eq (a b : Char) : compare a b = compare (a.toNat : Int) b.toNat := by
  have hlt : a < b ↔ (a.toNat : Int) < b.toNat := by
    rw [Int.ofNat_lt]
    exact Iff.rfl
  have heq : a = b ↔ (a.toNat : Int) = b.toNat := by
    rw [Int.ofNat_inj, Char.toNat_inj]
  show compareOfLessAndEq a b = compareOfLessAndEq (a.toNat : Int) b.toNat
  simp only [compareOfLessAndEq, hlt, heq]

theorem compare_symbol_eq (a b : Symbol) : compare a b = compare a.name b.name := rfl

theorem compare_keyword_eq (a b : Keyword) : compare a b = compare a.name b.name := rfl

section

variable {identities : Nat → Nat → Ordering}

/-- Values of different kinds compare by their ranks. -/
theorem cmpUnder_of_rank_ne {a b : Value} (h : a.rank ≠ b.rank) :
    cmpUnder identities a b = compare a.rank b.rank := by
  unfold cmpUnder
  split <;> simp_all [rank]

/-- Values of different kinds never compare equal. -/
theorem cmpUnder_ne_eq_of_rank_ne {a b : Value} (h : a.rank ≠ b.rank) :
    cmpUnder identities a b ≠ .eq := by
  rw [cmpUnder_of_rank_ne h]
  simpa using h

/-- The first pieces of values of different kinds decide like the values. -/
theorem cmp_headPiece_of_rank_ne {a b : Value} (h : a.rank ≠ b.rank) :
    OrderPiece.cmp identities a.headPiece b.headPiece = cmpUnder identities a b := by
  have hmark : a.headPiece.mark ≠ b.headPiece.mark := by
    rw [mark_headPiece, mark_headPiece]
    omega
  rw [OrderPiece.cmp_of_mark_ne identities hmark, cmpUnder_of_rank_ne h, mark_headPiece,
    mark_headPiece]
  simp [Nat.compare_eq_ite_lt]

/-- A sequence that ends comes before one that goes on. -/
theorem cmp_ending_headPiece (v : Value) :
    OrderPiece.cmp identities .ending v.headPiece = .lt := by
  have hmark : OrderPiece.ending.mark < v.headPiece.mark := by
    rw [mark_headPiece]
    exact Nat.succ_pos v.rank
  rw [OrderPiece.cmp_of_mark_ne identities (Nat.ne_of_lt hmark)]
  exact Nat.compare_eq_lt.2 hmark

theorem cmp_headPiece_ending (v : Value) :
    OrderPiece.cmp identities v.headPiece .ending = .gt := by
  have hmark : OrderPiece.ending.mark < v.headPiece.mark := by
    rw [mark_headPiece]
    exact Nat.succ_pos v.rank
  rw [OrderPiece.cmp_of_mark_ne identities (Nat.ne_of_gt hmark)]
  exact Nat.compare_eq_gt.2 hmark

/-! ## The order is the order of the pieces -/

variable [Std.ReflCmp identities]

private theorem identities_self (identities : Nat → Nat → Ordering) [Std.ReflCmp identities]
    (i : Nat) : identities i i = .eq :=
  Std.ReflCmp.compare_self

mutual

/-- Comparing what starts with two values compares the values first, and what follows them only when
they are equal. -/
theorem compare_pieces_append (a b : Value) (r s : List OrderPiece) :
    List.compareLex (OrderPiece.cmp identities) (a.headPiece :: (a.innerPieces ++ r))
        (b.headPiece :: (b.innerPieces ++ s)) =
      (cmpUnder identities a b).then (List.compareLex (OrderPiece.cmp identities) r s) := by
  have hself := identities_self identities
  rw [List.compareLex_cons_cons]
  by_cases hrank : a.rank = b.rank
  · -- of the pairs of kinds only the fourteen equal ones are left
    cases a <;> cases b <;> try (simp [rank] at hrank; done)
    all_goals rw [OrderPiece.cmp_eq_then]
    case bool.bool => simp [hself, cmpUnder, headPiece, innerPieces, rank, compare_bool_eq]
    case float.float =>
      simp [hself, cmpUnder, headPiece, innerPieces, rank, Binary64.totalCompare]
    case char.char => simp [hself, cmpUnder, headPiece, innerPieces, rank, compare_char_eq]
    case symbol.symbol => simp [hself, cmpUnder, headPiece, innerPieces, rank, compare_symbol_eq]
    case keyword.keyword =>
      simp [hself, cmpUnder, headPiece, innerPieces, rank, compare_keyword_eq]
    case map.map as bs =>
      simp [hself, cmpUnder, headPiece, innerPieces, rank, compare_entryPieces_append as bs]
    case list.list as bs =>
      simp [hself, cmpUnder, headPiece, innerPieces, rank, compare_itemPieces_append as bs]
    case vector.vector as bs =>
      simp [hself, cmpUnder, headPiece, innerPieces, rank, compare_itemPieces_append as bs]
    case set.set as bs =>
      simp [hself, cmpUnder, headPiece, innerPieces, rank, compare_itemPieces_append as bs]
    all_goals simp [hself, cmpUnder, headPiece, innerPieces, rank]
  · have hne : cmpUnder identities a b ≠ .eq := cmpUnder_ne_eq_of_rank_ne hrank
    rw [cmp_headPiece_of_rank_ne hrank]
    cases hcmp : cmpUnder identities a b <;> simp_all

/-- Rows that end with an end mark compare first by their elements, then by what follows the mark. -/
theorem compare_itemPieces_append (as bs : List Value) (r s : List OrderPiece) :
    List.compareLex (OrderPiece.cmp identities) (itemPieces as ++ r) (itemPieces bs ++ s) =
      (cmpItemsUnder identities as bs).then (List.compareLex (OrderPiece.cmp identities) r s) := by
  have hself := identities_self identities
  match as, bs with
  | [], [] =>
    simp [itemPieces, cmpItemsUnder, List.compareLex_cons_cons, OrderPiece.cmp_eq_then, hself]
  | [], b :: bs =>
    simp [itemPieces, cmpItemsUnder, List.compareLex_cons_cons, cmp_ending_headPiece]
  | a :: as, [] =>
    simp [itemPieces, cmpItemsUnder, List.compareLex_cons_cons, cmp_headPiece_ending]
  | a :: as, b :: bs =>
    simp only [itemPieces, cmpItemsUnder, List.cons_append, List.append_assoc]
    rw [compare_pieces_append a b, compare_itemPieces_append as bs, Ordering.then_assoc]

/-- Rows of entries compare first by keys and values in turn, then by what follows the mark. -/
theorem compare_entryPieces_append (as bs : List (Value × Value)) (r s : List OrderPiece) :
    List.compareLex (OrderPiece.cmp identities) (entryPieces as ++ r) (entryPieces bs ++ s) =
      (cmpEntriesUnder identities as bs).then
        (List.compareLex (OrderPiece.cmp identities) r s) := by
  have hself := identities_self identities
  match as, bs with
  | [], [] =>
    simp [entryPieces, cmpEntriesUnder, List.compareLex_cons_cons, OrderPiece.cmp_eq_then, hself]
  | [], (l, w) :: bs =>
    simp [entryPieces, cmpEntriesUnder, List.compareLex_cons_cons, cmp_ending_headPiece]
  | (k, v) :: as, [] =>
    simp [entryPieces, cmpEntriesUnder, List.compareLex_cons_cons, cmp_headPiece_ending]
  | (k, v) :: as, (l, w) :: bs =>
    simp only [entryPieces, cmpEntriesUnder, List.cons_append, List.append_assoc]
    rw [compare_pieces_append k l, compare_pieces_append v w, compare_entryPieces_append as bs,
      Ordering.then_assoc, Ordering.then_assoc]

end

/-- The order of values is the lexicographic order of their pieces. -/
theorem cmpUnder_eq_compare_pieces (a b : Value) :
    cmpUnder identities a b = List.compareLex (OrderPiece.cmp identities) a.pieces b.pieces := by
  calc
    cmpUnder identities a b
      = (cmpUnder identities a b).then (List.compareLex (OrderPiece.cmp identities) [] []) := by
        rw [List.compareLex_nil_nil, Ordering.then_eq]
    _ = List.compareLex (OrderPiece.cmp identities) (a.headPiece :: (a.innerPieces ++ []))
          (b.headPiece :: (b.innerPieces ++ [])) := (compare_pieces_append a b [] []).symm
    _ = List.compareLex (OrderPiece.cmp identities) a.pieces b.pieces := by
        rw [List.append_nil, List.append_nil, pieces, pieces]

end

instance (identities : Nat → Nat → Ordering) [Std.TransCmp identities] :
    Std.TransCmp (cmpUnder identities) where
  eq_swap {a b} := by
    rw [cmpUnder_eq_compare_pieces, cmpUnder_eq_compare_pieces b a]
    exact Std.OrientedCmp.eq_swap
  isLE_trans {a b c} hab hbc := by
    rw [cmpUnder_eq_compare_pieces] at hab hbc ⊢
    exact Std.TransCmp.isLE_trans hab hbc

instance : Std.TransCmp cmp :=
  inferInstanceAs (Std.TransCmp (cmpUnder compare))

/-! ## Equality and hash -/

/-- Different bit patterns have different places in the total order of patterns. -/
theorem orderKey_inj {x y : Binary64} : x.orderKey = y.orderKey ↔ x.bits = y.bits := by
  obtain ⟨a⟩ := x
  obtain ⟨b⟩ := y
  refine ⟨fun h => ?_, fun h => by subst h; rfl⟩
  have ha : a.toNat < 2 ^ 64 := a.toNat_lt
  have hb : b.toNat < 2 ^ 64 := b.toNat_lt
  apply UInt64.toNat_inj.1
  simp only [Binary64.orderKey, Binary64.isNegative, decide_eq_true_eq] at h
  -- a negative pattern has a negative key, so the signs agree and then the magnitudes do
  split at h <;> split at h <;> simp only [Binary64.magnitude, Binary64.signWeight] at * <;> omega

/-- Values of different kinds are not equal. -/
theorem beq_of_rank_ne {a b : Value} (h : a.rank ≠ b.rank) : beq a b = false := by
  unfold beq
  split <;> simp_all [rank]

section

variable {identities : Nat → Nat → Ordering}

mutual

/-- Values compare equal exactly when they are equal. -/
theorem cmpUnder_eq_eq_iff [Std.LawfulEqCmp identities] (a b : Value) :
    cmpUnder identities a b = .eq ↔ beq a b = true := by
  by_cases hrank : a.rank = b.rank
  · cases a <;> cases b <;> try (simp [rank] at hrank; done)
    case int.int => simp [cmpUnder, beq, Int64.toInt_inj]
    case float.float => simp [cmpUnder, beq, Binary64.totalCompare, orderKey_inj]
    case list.list as bs => simpa only [cmpUnder, beq] using cmpItemsUnder_eq_eq_iff as bs
    case vector.vector as bs => simpa only [cmpUnder, beq] using cmpItemsUnder_eq_eq_iff as bs
    case set.set as bs => simpa only [cmpUnder, beq] using cmpItemsUnder_eq_eq_iff as bs
    case map.map as bs => simpa only [cmpUnder, beq] using cmpEntriesUnder_eq_eq_iff as bs
    all_goals simp [cmpUnder, beq]
  · simp [beq_of_rank_ne hrank, cmpUnder_ne_eq_of_rank_ne hrank]

theorem cmpItemsUnder_eq_eq_iff [Std.LawfulEqCmp identities] (as bs : List Value) :
    cmpItemsUnder identities as bs = .eq ↔ beqItems as bs = true := by
  match as, bs with
  | [], [] => simp [cmpItemsUnder, beqItems]
  | [], _ :: _ => simp [cmpItemsUnder, beqItems]
  | _ :: _, [] => simp [cmpItemsUnder, beqItems]
  | a :: as, b :: bs =>
    simp only [cmpItemsUnder, beqItems, Ordering.then_eq_eq, Bool.and_eq_true,
      cmpUnder_eq_eq_iff a b, cmpItemsUnder_eq_eq_iff as bs]

theorem cmpEntriesUnder_eq_eq_iff [Std.LawfulEqCmp identities] (as bs : List (Value × Value)) :
    cmpEntriesUnder identities as bs = .eq ↔ beqEntries as bs = true := by
  match as, bs with
  | [], [] => simp [cmpEntriesUnder, beqEntries]
  | [], _ :: _ => simp [cmpEntriesUnder, beqEntries]
  | _ :: _, [] => simp [cmpEntriesUnder, beqEntries]
  | (k, v) :: as, (l, w) :: bs =>
    simp only [cmpEntriesUnder, beqEntries, Ordering.then_eq_eq, Bool.and_eq_true, and_assoc,
      cmpUnder_eq_eq_iff k l, cmpUnder_eq_eq_iff v w, cmpEntriesUnder_eq_eq_iff as bs]

end

end

mutual

/-- Equal values feed the same pieces to a hash. -/
theorem hashPieces_eq_of_beq (a b : Value) (h : beq a b = true) : a.hashPieces = b.hashPieces := by
  have hrank : a.rank = b.rank := by
    apply Decidable.byContradiction
    intro hne
    rw [beq_of_rank_ne hne] at h
    exact Bool.false_ne_true h
  cases a <;> cases b <;> try (simp [rank] at hrank; done)
  case list.list as bs =>
    rw [hashPieces, hashPieces, hashItems_eq_of_beqItems as bs (by simpa only [beq] using h)]
  case vector.vector as bs =>
    rw [hashPieces, hashPieces, hashItems_eq_of_beqItems as bs (by simpa only [beq] using h)]
  case set.set as bs =>
    rw [hashPieces, hashPieces, hashItems_eq_of_beqItems as bs (by simpa only [beq] using h)]
  case map.map as bs =>
    rw [hashPieces, hashPieces, hashEntries_eq_of_beqEntries as bs (by simpa only [beq] using h)]
  all_goals simp_all [beq, hashPieces]

theorem hashItems_eq_of_beqItems (as bs : List Value) (h : beqItems as bs = true) :
    hashItems as = hashItems bs := by
  match as, bs with
  | [], [] => rfl
  | [], _ :: _ => simp [beqItems] at h
  | _ :: _, [] => simp [beqItems] at h
  | a :: as, b :: bs =>
    obtain ⟨hhead, htail⟩ := Bool.and_eq_true_iff.1 (by simpa only [beqItems] using h)
    rw [hashItems, hashItems, hashPieces_eq_of_beq a b hhead, hashItems_eq_of_beqItems as bs htail]

theorem hashEntries_eq_of_beqEntries (as bs : List (Value × Value))
    (h : beqEntries as bs = true) : hashEntries as = hashEntries bs := by
  match as, bs with
  | [], [] => rfl
  | [], _ :: _ => simp [beqEntries] at h
  | _ :: _, [] => simp [beqEntries] at h
  | (k, v) :: as, (l, w) :: bs =>
    obtain ⟨hentry, htail⟩ := Bool.and_eq_true_iff.1 (by simpa only [beqEntries] using h)
    obtain ⟨hkey, hvalue⟩ := Bool.and_eq_true_iff.1 hentry
    rw [hashEntries, hashEntries, hashPieces_eq_of_beq k l hkey, hashPieces_eq_of_beq v w hvalue,
      hashEntries_eq_of_beqEntries as bs htail]

end

/-! ## Coherence -/

/-- The order finds two values equal exactly when they are. -/
theorem cmp_eq_eq_iff (a b : Value) : cmp a b = .eq ↔ (a == b) = true :=
  cmpUnder_eq_eq_iff a b

/-- The test by which an entry is found: the key that is looked up stands first in the comparison, and second
in the equation. -/
theorem cmp_beq_eq (key other : Value) : (cmp key other == .eq) = (other == key) := by
  rw [Bool.eq_iff_iff, beq_iff_eq, Std.OrientedCmp.eq_comm, cmp_eq_eq_iff]

/-- Equal orderings of two neighbouring pairs are the ordering of the outer pair. -/
theorem cmpUnder_trans {identities : Nat → Nat → Ordering} [Std.TransCmp identities]
    {a b c : Value} {o : Ordering} (hab : cmpUnder identities a b = o)
    (hbc : cmpUnder identities b c = o) : cmpUnder identities a c = o := by
  cases o with
  | lt => exact Std.TransCmp.lt_trans hab hbc
  | eq => exact Std.TransCmp.eq_trans hab hbc
  | gt => exact Std.TransCmp.gt_trans hab hbc

/-- The order, the equality and the hash of values agree, however the identities of closures are
ordered: the order is oriented and transitive, values compare equal exactly when they are equal, equality
is an equivalence, and equal values feed the same pieces to a hash. -/
theorem order_equality_hash_coherent (identities : Nat → Nat → Ordering)
    [Std.TransCmp identities] [Std.LawfulEqCmp identities] (a b c : Value) :
    (cmpUnder identities b a = (cmpUnder identities a b).swap) ∧
    (∀ o, cmpUnder identities a b = o → cmpUnder identities b c = o →
      cmpUnder identities a c = o) ∧
    ((cmpUnder identities a b).isLE → (cmpUnder identities b c).isLE →
      (cmpUnder identities a c).isLE) ∧
    (cmpUnder identities a b = .eq ↔ (a == b) = true) ∧
    ((a == a) = true) ∧
    ((a == b) = (b == a)) ∧
    ((a == b) = true → (b == c) = true → (a == c) = true) ∧
    ((a == b) = true → a.hashPieces = b.hashPieces) := by
  have hswap : cmpUnder identities b a = (cmpUnder identities a b).swap :=
    Std.OrientedCmp.eq_swap
  have hiff : ∀ x y : Value, cmpUnder identities x y = .eq ↔ (x == y) = true :=
    fun x y => cmpUnder_eq_eq_iff x y
  refine ⟨hswap, fun o => cmpUnder_trans, Std.TransCmp.isLE_trans, hiff a b, ?_, ?_, ?_, ?_⟩
  · exact (hiff a a).1 Std.ReflCmp.compare_self
  · rw [Bool.eq_iff_iff, ← hiff a b, ← hiff b a, hswap, Ordering.swap_eq_eq]
  · intro hab hbc
    exact (hiff a c).1 (cmpUnder_trans ((hiff a b).2 hab) ((hiff b c).2 hbc))
  · exact hashPieces_eq_of_beq a b

/-- Maps whose keys are the two zeros and whose values hold closures, the newer closure first. -/
theorem order_equality_hash_coherent_zeros_and_closures :
    let newerFirst : Nat → Nat → Ordering := fun m n => compare n m
    let closure : Nat → Value := fun n => .fn ⟨n, [], none, [], Bindings.empty⟩
    let negative : Value := .float (Binary64.zero true)
    let positive : Value := .float (Binary64.zero false)
    let a : Value := .map [(negative, .list [closure 2])]
    let b : Value := .map [(negative, .list [closure 1])]
    let c : Value := .map [(positive, .list [])]
    cmpUnder newerFirst a b = .lt ∧ cmpUnder newerFirst b c = .lt ∧ cmpUnder newerFirst a c = .lt := by
  intro newerFirst closure negative positive a b c
  have hab : cmpUnder newerFirst a b = .lt := by decide +kernel
  have hbc : cmpUnder newerFirst b c = .lt := by decide +kernel
  have : Std.TransCmp newerFirst := Std.TransCmp.opposite
  have : Std.LawfulEqCmp newerFirst := Std.LawfulEqCmp.opposite
  exact ⟨hab, hbc, (order_equality_hash_coherent newerFirst a b c).2.1 .lt hab hbc⟩

end Value

end SmallLisp

import Mathlib.Order.Monotone.Basic
import SmallLisp.Builtin.Basic
import SmallLisp.Proofs.Bindings
import SmallLisp.Proofs.Value.Equiv

/-!
# Images of values

An image changes what closures captured and how they are numbered, at every depth, and leaves everything else as it
is. Neither the order nor the equality nor the text of values looks into closures, and the order looks at their
numbers only to see which comes first; so none of them sees the difference (`cmp_value`, `equiv_value`,
`print_value`), and nor does any builtin (`call_value`). An image may also drop names from all environments; names
that it keeps are bound to the images of their values.
-/

namespace SmallLisp

/-- The value with its elements, and the numbers, bodies and captured environments of closures, replaced. -/
def Value.mapParts (value : Value → Value) (identity : Nat → Nat) (env : Env → Env) : Value → Value
  | .list items => .list (items.map value)
  | .vector items => .vector (items.map value)
  | .map entries => .map (entries.map (Prod.map value value))
  | .set items => .set (items.map value)
  | .fn f => .fn { f with identity := identity f.identity, body := f.body.map value, env := env f.env }
  | v => v

/-- A map of values that changes only the numbers of closures and what they captured. -/
structure Image where
  /-- The names that stay bound. -/
  keeps : Symbol → Prop
  identity : Nat → Nat
  value : Value → Value
  env : Env → Env
  strictMono : StrictMono identity
  value_eq : ∀ v, value v = v.mapParts value identity env
  get?_env : ∀ (e : Env) (s : Symbol), keeps s → (env e).get? s = (e.get? s).map value
  env_insert : ∀ (e : Env) (s : Symbol) (v : Value), keeps s →
    env (e.insert s v) = (env e).insert s (value v)
  env_merge : ∀ base overlay : Env, env (base.merge overlay) = (env base).merge (env overlay)

namespace Image

/-- Every value is an image of itself. -/
protected def id : Image where
  keeps _ := True
  identity := fun a => a
  value := fun a => a
  env := fun a => a
  strictMono := strictMono_id
  value_eq v := by cases v <;> simp [Value.mapParts]
  get?_env e s _ := by simp
  env_insert _ _ _ _ := rfl
  env_merge _ _ := rfl

/-- An image that builds all environments again from the names it keeps. -/
def rebuilding (keeps : Symbol → Prop) [DecidablePred keeps] (identity : Nat → Nat) (value : Value → Value)
    (strictMono : StrictMono identity)
    (value_eq : ∀ v, value v = v.mapParts value identity (Bindings.rebuild keeps value)) : Image where
  keeps := keeps
  identity := identity
  value := value
  env := Bindings.rebuild keeps value
  strictMono := strictMono
  value_eq := value_eq
  get?_env e s h := by rw [Bindings.get?_rebuild, if_pos h]
  env_insert e _ v h := Bindings.rebuild_insert h e v
  env_merge := Bindings.rebuild_merge

variable (φ : Image)

/-! ## What stays -/

theorem value_nil : φ.value .nil = .nil :=
  φ.value_eq _

theorem value_bool (b : Bool) : φ.value (.bool b) = .bool b :=
  φ.value_eq _

/-- The image of a list is the list of the images; vectors, sets and maps are alike. -/
theorem value_list (items : List Value) : φ.value (.list items) = .list (items.map φ.value) :=
  φ.value_eq _

theorem value_vector (items : List Value) : φ.value (.vector items) = .vector (items.map φ.value) :=
  φ.value_eq _

theorem value_set (items : List Value) : φ.value (.set items) = .set (items.map φ.value) :=
  φ.value_eq _

theorem value_map (entries : List (Value × Value)) :
    φ.value (.map entries) = .map (entries.map (Prod.map φ.value φ.value)) :=
  φ.value_eq _

/-- The image of a closure. -/
def closure (f : Closure Value) : Closure Value :=
  { f with identity := φ.identity f.identity, body := f.body.map φ.value, env := φ.env f.env }

/-- The image of a function is the function of the image of its closure. -/
theorem value_fn (f : Closure Value) : φ.value (.fn f) = .fn (φ.closure f) :=
  φ.value_eq _

/-- An image never changes what kind of value something is. -/
theorem rank_value (v : Value) : (φ.value v).rank = v.rank := by
  rw [φ.value_eq]
  cases v <;> rfl

theorem kindName_value (v : Value) : (φ.value v).kindName = v.kindName := by
  rw [φ.value_eq]
  cases v <;> rfl

theorem isPlain_value (v : Value) : (φ.value v).isPlain = v.isPlain := by
  rw [φ.value_eq]
  cases v <;> rfl

/-- The elements of an image are the images of the elements. -/
theorem elements?_value (v : Value) :
    (φ.value v).elements? = v.elements?.map (List.map φ.value) := by
  rw [φ.value_eq]
  cases v <;> rfl

/-- Collections keep their number of elements, and nothing else becomes a collection. -/
theorem count?_value (v : Value) : (φ.value v).count? = v.count? := by
  rw [φ.value_eq]
  cases v <;> simp [Value.mapParts, Value.count?]

/-- A condition decides the same for a value and its image. -/
theorem isTruthy_value (v : Value) : (φ.value v).isTruthy = v.isTruthy := by
  rw [φ.value_eq]
  cases v <;> rfl

/-! ## Order -/

/-- The new numbers of closures are in the order of the old ones. -/
theorem compare_identity (i j : Nat) : compare (φ.identity i) (φ.identity j) = compare i j := by
  simp only [Nat.compare_eq_ite_lt, φ.strictMono.lt_iff_lt]

open Value (cmp cmpUnder cmpItemsUnder cmpEntriesUnder)

/-- Rows compare like their images when their elements do. -/
theorem cmpItems_value {as : List Value} (h : ∀ a ∈ as, ∀ b, cmp (φ.value a) (φ.value b) = cmp a b)
    (bs : List Value) :
    cmpItemsUnder compare (as.map φ.value) (bs.map φ.value) = cmpItemsUnder compare as bs := by
  induction as generalizing bs with
  | nil => cases bs <;> rfl
  | cons a as ih =>
    obtain ⟨ha, has⟩ := List.forall_mem_cons.1 h
    cases bs with
    | nil => rfl
    | cons b bs =>
      have hfirst : cmpUnder compare (φ.value a) (φ.value b) = cmpUnder compare a b := ha b
      simp only [List.map_cons, cmpItemsUnder, hfirst, ih has]

/-- Rows of entries compare like their images when their keys and values do. -/
theorem cmpEntries_value {as : List (Value × Value)}
    (h : ∀ entry ∈ as, (∀ b, cmp (φ.value entry.1) (φ.value b) = cmp entry.1 b) ∧
      ∀ b, cmp (φ.value entry.2) (φ.value b) = cmp entry.2 b) (bs : List (Value × Value)) :
    cmpEntriesUnder compare (as.map (Prod.map φ.value φ.value)) (bs.map (Prod.map φ.value φ.value)) =
      cmpEntriesUnder compare as bs := by
  induction as generalizing bs with
  | nil => cases bs <;> rfl
  | cons entry as ih =>
    obtain ⟨⟨hkey, hvalue⟩, has⟩ := List.forall_mem_cons.1 h
    cases bs with
    | nil => rfl
    | cons other bs =>
      have hfirst : cmpUnder compare (φ.value entry.1) (φ.value other.1) = cmpUnder compare entry.1 other.1 :=
        hkey other.1
      have hsecond : cmpUnder compare (φ.value entry.2) (φ.value other.2) = cmpUnder compare entry.2 other.2 :=
        hvalue other.2
      simp only [List.map_cons, Prod.map, cmpEntriesUnder, hfirst, hsecond, ih has]

/-- The order of values does not depend on what closures captured, and on their numbers only by their order. -/
theorem cmp_value (a b : Value) : cmp (φ.value a) (φ.value b) = cmp a b := by
  induction a using Value.parts_induction generalizing b with
  | step a hitems hentries =>
    by_cases hrank : a.rank = b.rank
    · rw [φ.value_eq a, φ.value_eq b]
      cases a <;> cases b <;> try (simp [Value.rank] at hrank; done)
      case list.list as bs => exact φ.cmpItems_value (hitems as rfl) bs
      case vector.vector as bs => exact φ.cmpItems_value (hitems as rfl) bs
      case set.set as bs => exact φ.cmpItems_value (hitems as rfl) bs
      case map.map as bs => exact φ.cmpEntries_value (hentries as rfl) bs
      case fn.fn f g => exact φ.compare_identity f.identity g.identity
      all_goals rfl
    · have hrank' : (φ.value a).rank ≠ (φ.value b).rank := by rwa [rank_value, rank_value]
      -- values of two kinds compare by their kinds, whatever is in them
      show cmpUnder compare (φ.value a) (φ.value b) = cmpUnder compare a b
      rw [Value.cmpUnder_of_rank_ne hrank, Value.cmpUnder_of_rank_ne hrank', rank_value, rank_value]

/-- Images are equal exactly when the values are. -/
theorem beq_value (a b : Value) : (φ.value a == φ.value b) = (a == b) := by
  rw [Bool.eq_iff_iff, ← Value.cmp_eq_eq_iff, ← Value.cmp_eq_eq_iff, cmp_value]

/-! ## Text -/

/-- A row is written like its image when its elements are. -/
theorem itemChars_value {items : List Value} (h : ∀ v ∈ items, (φ.value v).chars = v.chars) :
    Value.itemChars (items.map φ.value) = Value.itemChars items := by
  induction items with
  | nil => rfl
  | cons v rest ih =>
    obtain ⟨hv, hrest⟩ := List.forall_mem_cons.1 h
    cases rest with
    | nil => exact hv
    | cons w rest =>
      have htail := ih hrest
      simp only [List.map_cons, Value.itemChars, hv] at htail ⊢
      rw [htail]

/-- A row of entries is written like its image when its keys and values are. -/
theorem entryChars_value {entries : List (Value × Value)}
    (h : ∀ entry ∈ entries, (φ.value entry.1).chars = entry.1.chars ∧ (φ.value entry.2).chars = entry.2.chars) :
    Value.entryChars (entries.map (Prod.map φ.value φ.value)) = Value.entryChars entries := by
  induction entries with
  | nil => rfl
  | cons entry rest ih =>
    obtain ⟨⟨hkey, hvalue⟩, hrest⟩ := List.forall_mem_cons.1 h
    obtain ⟨k, v⟩ := entry
    cases rest with
    | nil => simp only [List.map_cons, List.map_nil, Prod.map, Value.entryChars, hkey, hvalue]
    | cons other rest =>
      have htail := ih hrest
      simp only [List.map_cons, Prod.map, Value.entryChars, hkey, hvalue] at htail ⊢
      rw [htail]

/-- A closure is written without its number and what it captured, so an image has the text of its value. -/
theorem chars_value (v : Value) : (φ.value v).chars = v.chars := by
  induction v using Value.parts_induction with
  | step v hitems hentries =>
    rw [φ.value_eq]
    cases v with
    | list items => exact congrArg (fun text => '(' :: (text ++ [')'])) (φ.itemChars_value (hitems items rfl))
    | vector items => exact congrArg (fun text => '[' :: (text ++ [']'])) (φ.itemChars_value (hitems items rfl))
    | set items =>
      exact congrArg (fun text => '#' :: '\x7b' :: (text ++ ['\x7d'])) (φ.itemChars_value (hitems items rfl))
    | map entries =>
      exact congrArg (fun text => '\x7b' :: (text ++ ['\x7d'])) (φ.entryChars_value (hentries entries rfl))
    | _ => rfl

theorem print_value (v : Value) : (φ.value v).print = v.print := by
  rw [Value.print, chars_value, Value.print]

/-! ## Collections -/

/-- Under the image of a key stands the image of what is under the key. -/
theorem lookup?_value (key : Value) (entries : List (Value × Value)) :
    Value.lookup? (φ.value key) (entries.map (Prod.map φ.value φ.value)) =
      (Value.lookup? key entries).map φ.value :=
  Sorted.lookup?_map φ.cmp_value φ.value key entries

/-- As the order is kept, the image of an entry goes to the place of the entry. -/
theorem insertEntry_value (key v : Value) (entries : List (Value × Value)) :
    Value.insertEntry (φ.value key) (φ.value v) (entries.map (Prod.map φ.value φ.value)) =
      (Value.insertEntry key v entries).map (Prod.map φ.value φ.value) := by
  unfold Value.insertEntry Sorted.insertEntry
  exact Sorted.insert_map (f := Prod.map φ.value φ.value) (fun a b => φ.cmp_value a.1 b.1) (key, v) entries

/-- The set of the images is the image of the set: no elements become equal, and none trade places. -/
theorem ofItems_value (items : List Value) :
    Value.ofItems (items.map φ.value) = φ.value (Value.ofItems items) := by
  -- the elements that are in the set already are general, for the induction on the others
  have hfold : ∀ done : List Value,
      (items.map φ.value).foldl (fun acc item => Value.insertItem item acc) (done.map φ.value) =
        (items.foldl (fun acc item => Value.insertItem item acc) done).map φ.value := by
    induction items with
    | nil => exact fun done => rfl
    | cons item rest ih =>
      intro done
      have hinsert : Value.insertItem (φ.value item) (done.map φ.value) =
          (Value.insertItem item done).map φ.value := Sorted.insert_map φ.cmp_value item done
      rw [List.map_cons, List.foldl_cons, List.foldl_cons, hinsert, ih]
  rw [Value.ofItems, Value.ofItems, value_set, ← hfold []]
  rfl

/-! ## Equality in the language -/

open Value (equiv equivItems equivEntries)

/-- Rows are equal in the language like their images when their elements are. -/
theorem equivItems_value {as : List Value}
    (h : ∀ a ∈ as, ∀ b, equiv (φ.value a) (φ.value b) = equiv a b) (bs : List Value) :
    equivItems (as.map φ.value) (bs.map φ.value) = equivItems as bs := by
  induction as generalizing bs with
  | nil => cases bs <;> rfl
  | cons a as ih =>
    obtain ⟨ha, has⟩ := List.forall_mem_cons.1 h
    cases bs with
    | nil => rfl
    | cons b bs => simp only [List.map_cons, equivItems, ha, ih has]

/-- Maps are equal in the language like their images when their values are, as keys are found alike. -/
theorem equivEntries_value {as : List (Value × Value)}
    (h : ∀ entry ∈ as, ∀ b, equiv (φ.value entry.2) (φ.value b) = equiv entry.2 b)
    (bs : List (Value × Value)) :
    equivEntries (as.map (Prod.map φ.value φ.value)) (bs.map (Prod.map φ.value φ.value)) =
      equivEntries as bs := by
  induction as with
  | nil => rfl
  | cons entry as ih =>
    obtain ⟨ha, has⟩ := List.forall_mem_cons.1 h
    obtain ⟨k, v⟩ := entry
    simp only [List.map_cons, Prod.map, equivEntries, lookup?_value, ih has]
    cases Value.lookup? k bs with
    | none => rfl
    | some w => simp only [Option.map_some, ha w]

/-- The equality of the language does not depend on what closures captured, nor on their numbers. -/
theorem equiv_value (a b : Value) : equiv (φ.value a) (φ.value b) = equiv a b := by
  induction a using Value.parts_induction generalizing b with
  | step a hitems hentries =>
    by_cases hplain : a.isPlain = true
    · rw [Value.equiv_of_isPlain (by rwa [isPlain_value]), Value.equiv_of_isPlain hplain, beq_value,
        elements?_value, Option.isNone_map]
    · cases helements : a.elements? with
      | some as =>
        have himage : (φ.value a).elements? = some (as.map φ.value) := by
          rw [elements?_value, helements, Option.map_some]
        rw [Value.equiv_of_elements helements, Value.equiv_of_elements himage, elements?_value]
        cases b.elements? with
        | none => rfl
        | some bs => exact φ.equivItems_value (hitems as helements) bs
      | none =>
        by_cases hrank : a.rank = b.rank
        -- of the values that are neither plain nor sequences there are two kinds: floats and maps
        · cases a <;> cases b <;> simp only [Value.isPlain, Value.rank, Value.elements?, reduceCtorEq,
            Nat.reduceEqDiff, Option.isNone_none, not_true] at hrank hplain helements
          · rw [φ.value_eq, φ.value_eq (.float _)]
            rfl
          · next as bs =>
            rw [value_map, value_map, equiv, equiv, List.length_map, List.length_map,
              φ.equivEntries_value fun entry hentry => (hentries as rfl entry hentry).2]
        · have himage : (φ.value a).elements? = none := by
            rw [elements?_value, helements, Option.map_none]
          rw [Value.equiv_of_rank_ne helements hrank, Value.equiv_of_rank_ne himage]
          rwa [rank_value, rank_value]

/-- The builtin `=` compares neighbours, and each two of them compare like their images. -/
theorem allEquiv_value (args : List Value) : Value.allEquiv (args.map φ.value) = Value.allEquiv args := by
  induction args with
  | nil => rfl
  | cons a rest ih =>
    cases rest with
    | nil => rfl
    | cons b rest =>
      simp only [List.map_cons, Value.allEquiv, equiv_value] at ih ⊢
      rw [ih]

/-! ## Builtins -/

/-- An image stands for the same number as its value, or is refused with the same text. -/
theorem toNumber_value (context : String) (v : Value) :
    (φ.value v).toNumber context = v.toNumber context := by
  rw [φ.value_eq]
  cases v <;> rfl

theorem value_ofNumber (n : Number) : φ.value (.ofNumber n) = .ofNumber n := by
  cases n <;> exact φ.value_eq _

theorem fold_value (op : Operation) (acc : Number) (args : List Value) :
    op.fold acc (args.map φ.value) = op.fold acc args := by
  induction args generalizing acc with
  | nil => rfl
  | cons v rest ih => simp only [List.map_cons, Operation.fold, toNumber_value, ih]

/-- Arithmetic sees numbers only. -/
theorem operation_value (op : Operation) (args : List Value) :
    op.call (args.map φ.value) = (op.call args).map φ.value := by
  cases args with
  | nil => rfl
  | cons v rest =>
    simp only [List.map_cons, Operation.call, toNumber_value, fold_value]
    cases v.toNumber op.name with
    | error e => rfl
    | ok first =>
      show (op.fold first rest >>= fun result => .ok (Value.ofNumber result)) =
        (op.fold first rest >>= fun result => .ok (Value.ofNumber result)).map φ.value
      cases op.fold first rest with
      | error e => rfl
      | ok result => exact congrArg Except.ok (φ.value_ofNumber result).symm

theorem chain_value (c : Comparison) (a : Value) (rest : List Value) :
    c.chain (φ.value a) (rest.map φ.value) = c.chain a rest := by
  induction rest generalizing a with
  | nil => rfl
  | cons b rest ih => simp only [List.map_cons, Comparison.chain, Comparison.holds, toNumber_value, ih]

/-- Comparisons see numbers only, and stop where they stop for the values. -/
theorem comparison_value (c : Comparison) (args : List Value) :
    c.call (args.map φ.value) = (c.call args).map φ.value := by
  cases args with
  | nil => exact congrArg Except.ok (φ.value_bool true).symm
  | cons a rest =>
    simp only [List.map_cons, Comparison.call, chain_value]
    cases c.chain a rest with
    | error e => rfl
    | ok b => exact congrArg Except.ok (φ.value_bool b).symm

/-- Where one argument is expected, its image is given back, or the same number of arguments is refused. -/
theorem single_value (function : String) (args : List Value) :
    Builtin.single function (args.map φ.value) = (Builtin.single function args).map φ.value := by
  match args with
  | [] => rfl
  | [v] => rfl
  | v :: w :: rest => simp [Builtin.single, Except.map]

/-- The number of elements, or the refusal of what has none, is the same for an image. -/
theorem elementCount_value (function : String) (args : List Value) :
    Builtin.elementCount function (args.map φ.value) = Builtin.elementCount function args := by
  rw [Builtin.elementCount, single_value, Builtin.elementCount]
  cases Builtin.single function args with
  | error e => rfl
  | ok v =>
    have hcount := φ.count?_value v
    have hkind := φ.kindName_value v
    rw [φ.value_eq] at hcount hkind
    simp only [Except.map, bind, Except.bind, φ.value_eq v]
    cases v <;> simp_all [Value.mapParts]

theorem negation_value (args : List Value) :
    Builtin.negation (args.map φ.value) = (Builtin.negation args).map φ.value := by
  rw [Builtin.negation, single_value, Builtin.negation]
  cases Builtin.single "not" args with
  | error e => rfl
  | ok v =>
    simp only [Except.map, bind, Except.bind, φ.value_eq v]
    cases v with
    | bool b => exact congrArg Except.ok (φ.value_bool !b).symm
    | _ => rfl

/-- No builtin depends on what closures captured. -/
theorem call_value (b : Builtin) (args : List Value) :
    b.call (args.map φ.value) = (b.call args).map φ.value := by
  cases b with
  | add | sub | mul | div => exact φ.operation_value _ args
  | less | greater | lessEqual | greaterEqual => exact φ.comparison_value _ args
  | equal =>
    rw [Builtin.call, allEquiv_value]
    exact congrArg Except.ok (φ.value_bool _).symm
  | list =>
    rw [Builtin.call, ← value_list]
    rfl
  | isList =>
    simp only [Builtin.call, single_value, Value.isCollection]
    cases Builtin.single "list?" args with
    | error e => rfl
    | ok v => simp only [Except.map, count?_value, value_bool]
  | isEmpty =>
    simp only [Builtin.call, elementCount_value]
    cases Builtin.elementCount "empty?" args with
    | error e => rfl
    | ok n => exact congrArg Except.ok (φ.value_bool _).symm
  | count =>
    simp only [Builtin.call, elementCount_value]
    cases Builtin.elementCount "count" args with
    | error e => rfl
    | ok n =>
      simp only [Except.bind, Builtin.countValue]
      split
      · next n _ => exact congrArg Except.ok (φ.value_ofNumber (.int n)).symm
      · rfl
  | not => exact φ.negation_value args
  | sequence =>
    simp only [Builtin.call, Builtin.last, List.getLast?_map]
    cases args.getLast? with
    | none => exact congrArg Except.ok φ.value_nil.symm
    | some v => rfl
  | printLines => exact congrArg Except.ok φ.value_nil.symm

/-- Builtins print the texts of their arguments, and these are the texts of the images. -/
theorem lines_value (b : Builtin) (args : List Value) : b.lines (args.map φ.value) = b.lines args := by
  cases b with
  | printLines =>
    simp only [Builtin.lines, List.map_map]
    exact List.map_congr_left fun v _ => φ.print_value v
  | _ => rfl

end Image

end SmallLisp

import SmallLisp.Eval.Basic
import SmallLisp.Proofs.Builtin.Results
import SmallLisp.Proofs.Value.Equiv

/-!
# Which forms and functions name a symbol

A form names a symbol where the symbol is looked up, bound or defined; the name of a special form at the head
of a list is none of these (`Value.mentions`). A value may lead to functions, through its elements and through
what closures captured; `Value.ignores` says that none of them names the symbol, and `Env.ignores` says it of an
environment. What collections, builtins and parameter vectors make of their parts leads to nothing new.
-/

namespace SmallLisp

namespace Value

/-! ## Naming a symbol -/

mutual

/-- Whether a form names a symbol, other than as the special form that a list calls for. -/
def mentions (x : Symbol) : Value → Bool
  | .symbol s => s == x
  | .list [] => false
  | .list (head :: operands) =>
    ((SpecialForm.ofHead? head).isNone && mentions x head) || mentionsItems x operands
  | .vector items => mentionsItems x items
  | .set items => mentionsItems x items
  | .map entries => mentionsEntries x entries
  | _ => false

def mentionsItems (x : Symbol) : List Value → Bool
  | [] => false
  | v :: rest => mentions x v || mentionsItems x rest

def mentionsEntries (x : Symbol) : List (Value × Value) → Bool
  | [] => false
  | (k, v) :: rest => mentions x k || (mentions x v || mentionsEntries x rest)

end

mutual

/-- Whether all functions that can be reached from a value are builtins and closures that do not name a
symbol, be it as a parameter or in the body. What closures captured under the symbol itself is out of
reach. -/
def ignores (x : Symbol) : Value → Bool
  | .list items => ignoresItems x items
  | .vector items => ignoresItems x items
  | .set items => ignoresItems x items
  | .map entries => ignoresEntries x entries
  | .native ⟨_, .host _⟩ => false
  | .fn ⟨_, params, rest, body, ⟨bound⟩⟩ =>
    !params.contains x && rest != some x && !mentionsItems x body && ignoresItems x body &&
      ignoresBound x bound
  | _ => true

def ignoresItems (x : Symbol) : List Value → Bool
  | [] => true
  | v :: rest => ignores x v && ignoresItems x rest

def ignoresEntries (x : Symbol) : List (Value × Value) → Bool
  | [] => true
  | (k, v) :: rest => ignores x k && (ignores x v && ignoresEntries x rest)

def ignoresBound (x : Symbol) : List (Symbol × Value) → Bool
  | [] => true
  | (s, v) :: rest => (s == x || ignores x v) && ignoresBound x rest

end

end Value

/-- Whether all functions that can be reached from an environment, other than through the symbol itself, do
not name the symbol. -/
def Env.ignores (x : Symbol) (env : Env) : Bool :=
  Value.ignoresBound x env.entries

/-- A form that does not name a symbol, and from which no function is reached that does. -/
structure Value.Omits (x : Symbol) (form : Value) : Prop where
  mentions_eq : form.mentions x = false
  ignores_eq : form.ignores x = true

namespace Value

variable {x : Symbol}

/-- The recursion through a row of forms looks at each of them. -/
theorem mentionsItems_eq_false {items : List Value} :
    mentionsItems x items = false ↔ ∀ v ∈ items, v.mentions x = false := by
  induction items with
  | nil => simp [mentionsItems]
  | cons v rest ih => simp [mentionsItems, ih]

theorem mentionsEntries_eq_false {entries : List (Value × Value)} :
    mentionsEntries x entries = false ↔
      ∀ entry ∈ entries, entry.1.mentions x = false ∧ entry.2.mentions x = false := by
  induction entries with
  | nil => simp [mentionsEntries]
  | cons entry rest ih => simp [mentionsEntries, ih, and_assoc]

/-- The recursion through a row of values looks at each of them. -/
theorem ignoresItems_iff {items : List Value} :
    ignoresItems x items = true ↔ ∀ v ∈ items, v.ignores x = true := by
  induction items with
  | nil => simp [ignoresItems]
  | cons v rest ih => simp [ignoresItems, ih]

theorem ignoresEntries_iff {entries : List (Value × Value)} :
    ignoresEntries x entries = true ↔
      ∀ entry ∈ entries, entry.1.ignores x = true ∧ entry.2.ignores x = true := by
  induction entries with
  | nil => simp [ignoresEntries]
  | cons entry rest ih => simp [ignoresEntries, ih, and_assoc]

/-- Of what a closure captured, only the value under the symbol itself is passed over. -/
theorem ignoresBound_iff {bound : List (Symbol × Value)} :
    ignoresBound x bound = true ↔ ∀ entry ∈ bound, entry.1 ≠ x → entry.2.ignores x = true := by
  induction bound with
  | nil => simp [ignoresBound]
  | cons entry rest ih =>
    simp only [ignoresBound, Bool.and_eq_true, Bool.or_eq_true, beq_iff_eq, ih, List.forall_mem_cons,
      ne_eq, Decidable.or_iff_not_imp_left]

/-- The forms of a row omit a symbol when the recursions through the row find nothing. -/
theorem omits_of_items {items : List Value} (hmentions : mentionsItems x items = false)
    (hignores : ignoresItems x items = true) : ∀ v ∈ items, v.Omits x := by
  intro v hv
  exact ⟨mentionsItems_eq_false.1 hmentions v hv, ignoresItems_iff.1 hignores v hv⟩

/-- A closure that ignores a symbol does not bind it, and neither its body nor its captured environment leads
to it. -/
theorem ignores_fn {f : Closure Value} :
    ignores x (.fn f) = true ↔ x ∉ f.params ∧ f.rest ≠ some x ∧ (∀ form ∈ f.body, form.Omits x) ∧
      Env.ignores x f.env = true := by
  obtain ⟨identity, params, rest, body, ⟨bound⟩⟩ := f
  simp only [ignores, Env.ignores, Bool.and_eq_true, Bool.not_eq_true', and_assoc]
  constructor
  · rintro ⟨hparams, hrest, hmentions, hignores, hbound⟩
    exact ⟨by simpa using hparams, by simpa using hrest, omits_of_items hmentions hignores, hbound⟩
  · rintro ⟨hparams, hrest, hbody, hbound⟩
    refine ⟨by simpa using hparams, by simpa using hrest, ?_, ?_, hbound⟩
    · exact mentionsItems_eq_false.2 fun form hform => (hbody form hform).mentions_eq
    · exact ignoresItems_iff.2 fun form hform => (hbody form hform).ignores_eq

namespace Omits

/-- A symbol that omits another one is not it. -/
theorem symbol_ne {s : Symbol} (h : Omits x (.symbol s)) : s ≠ x := by
  simpa [mentions] using h.mentions_eq

theorem vector {items : List Value} (h : Omits x (.vector items)) : ∀ v ∈ items, v.Omits x :=
  omits_of_items h.mentions_eq h.ignores_eq

theorem set {items : List Value} (h : Omits x (.set items)) : ∀ v ∈ items, v.Omits x :=
  omits_of_items h.mentions_eq h.ignores_eq

/-- A map literal that omits a symbol omits it in its keys and in its values. -/
theorem map {entries : List (Value × Value)} (h : Omits x (.map entries)) :
    ∀ entry ∈ entries, entry.1.Omits x ∧ entry.2.Omits x := by
  intro entry hentry
  obtain ⟨hkey, hvalue⟩ := mentionsEntries_eq_false.1 h.mentions_eq entry hentry
  obtain ⟨hkey', hvalue'⟩ := ignoresEntries_iff.1 h.ignores_eq entry hentry
  exact ⟨⟨hkey, hkey'⟩, hvalue, hvalue'⟩

variable {head : Value} {operands : List Value}

/-- The operands of a list count, whatever its head is. -/
theorem of_operands (h : Omits x (.list (head :: operands))) : ∀ v ∈ operands, v.Omits x := by
  obtain ⟨hmentions, hignores⟩ := h
  simp only [mentions, ignores, ignoresItems, Bool.or_eq_false_iff, Bool.and_eq_true] at hmentions hignores
  exact omits_of_items hmentions.2 hignores.2

/-- The head of a list counts unless it calls for a special form. -/
theorem of_head (h : Omits x (.list (head :: operands))) (hhead : SpecialForm.ofHead? head = none) :
    head.Omits x := by
  obtain ⟨hmentions, hignores⟩ := h
  simp only [mentions, ignores, ignoresItems, hhead, Option.isNone_none, Bool.true_and,
    Bool.or_eq_false_iff, Bool.and_eq_true] at hmentions hignores
  exact ⟨hmentions.1, hignores.1⟩

end Omits

/-! ## What builtins and collections give -/

/-- An entry leads nowhere but where its key and its value lead. -/
theorem ignores_insertEntry {key value : Value} {entries : List (Value × Value)}
    (hkey : key.ignores x = true) (hvalue : value.ignores x = true)
    (h : (Value.map entries).ignores x = true) :
    (Value.map (insertEntry key value entries)).ignores x = true := by
  have hentries := ignoresEntries_iff.1 h
  apply ignoresEntries_iff.2
  intro entry hentry
  rcases Sorted.mem_of_mem_insert hentry with rfl | hentry
  · exact ⟨hkey, hvalue⟩
  · exact hentries entry hentry

/-- A set leads nowhere but where its elements lead. -/
theorem ignores_ofItems {items : List Value} (h : ∀ v ∈ items, v.ignores x = true) :
    (ofItems items).ignores x = true := by
  -- the elements that are in the set already are general, for the induction on the others
  have hfold : ∀ done : List Value, (∀ v ∈ done, v.ignores x = true) →
      ∀ v ∈ items.foldl (fun acc item => insertItem item acc) done, v.ignores x = true := by
    induction items with
    | nil => exact fun done hdone => hdone
    | cons item rest ih =>
      obtain ⟨hitem, hrest⟩ := List.forall_mem_cons.1 h
      intro done hdone
      apply ih hrest
      intro v hv
      rcases Sorted.mem_of_mem_insert hv with rfl | hv
      · exact hitem
      · exact hdone v hv
  exact ignoresItems_iff.2 (hfold [] (by simp))

theorem ignores_ofNumber (n : Number) : (ofNumber n).ignores x = true := by
  cases n <;> rfl

/-- A builtin gives no functions but those it was given. -/
theorem ignores_call {b : Builtin} {args : List Value} {v : Value} (h : b.call args = .ok v)
    (hargs : ∀ a ∈ args, a.ignores x = true) : v.ignores x = true := by
  cases Builtin.gives_of_call h with
  | argument hv => exact hargs v hv
  | list => exact ignoresItems_iff.2 hargs
  | nil => rfl
  | bool b => rfl
  | number n => exact ignores_ofNumber n

end Value

namespace Env

variable {x : Symbol} {env : Env}

/-- A binding of the symbol itself may lead anywhere; one of another name must ignore the symbol. -/
theorem ignores_insert {s : Symbol} {v : Value} (h : Env.ignores x env = true)
    (hv : s ≠ x → v.ignores x = true) : Env.ignores x (env.insert s v) = true := by
  apply Value.ignoresBound_iff.2
  intro entry hentry hne
  rcases Sorted.mem_of_mem_insert hentry with rfl | hentry
  · exact hv hne
  · exact Value.ignoresBound_iff.1 h entry hentry hne

/-- An environment laid over another one leads nowhere but where the two lead. -/
theorem ignores_merge {base overlay : Env} (hbase : Env.ignores x base = true)
    (hoverlay : Env.ignores x overlay = true) : Env.ignores x (base.merge overlay) = true := by
  obtain ⟨entries⟩ := overlay
  have hentries := Value.ignoresBound_iff.1 hoverlay
  clear hoverlay
  induction entries with
  | nil => exact hbase
  | cons entry rest ih =>
    obtain ⟨hentry, hrest⟩ := List.forall_mem_cons.1 hentries
    exact ignores_insert (ih hrest) hentry

/-- A name other than the symbol is bound to a value that ignores the symbol. -/
theorem ignores_of_lookup {s : Symbol} {v : Value} (h : Env.ignores x env = true) (hs : s ≠ x)
    (hv : lookup env s = .ok v) : v.ignores x = true := by
  unfold lookup at hv
  split at hv
  · next hget =>
    cases hv
    obtain ⟨other, hmem, hother⟩ := Sorted.exists_mem_of_lookup? hget
    cases Std.LawfulEqCmp.eq_of_compare hother
    exact Value.ignoresBound_iff.1 h (s, v) hmem hs
  · cases hv

end Env

namespace Params

variable {x : Symbol}

/-- The rest parameter is written in the vector, so it is another symbol. -/
theorem ne_of_restOfItems {items : List Value} {s : Symbol} (h : restOfItems items = .ok s)
    (hitems : ∀ v ∈ items, v.Omits x) : s ≠ x := by
  unfold restOfItems at h
  split at h
  · cases h
  · split at h <;> cases h
    exact (hitems _ List.mem_cons_self).symbol_ne
  · cases h

/-- All parameters are written in the vector, so each of them is another symbol. -/
theorem not_mem_of_ofItems {items : List Value} {params : Params} (h : ofItems items = .ok params)
    (hitems : ∀ v ∈ items, v.Omits x) : x ∉ params.positional ∧ params.rest ≠ some x := by
  fun_induction ofItems items generalizing params with
  | case1 =>
    cases h
    exact ⟨by simp, by simp⟩
  | case2 items =>
    -- the ampersand: only the rest parameter is left
    obtain ⟨-, hitems⟩ := List.forall_mem_cons.1 hitems
    cases hrest : restOfItems items with
    | error e =>
      rw [hrest] at h
      cases h
    | ok rest =>
      rw [hrest] at h
      cases h
      exact ⟨by simp, by simpa using ne_of_restOfItems hrest hitems⟩
  | case3 s items hs ih =>
    obtain ⟨hfirst, hitems⟩ := List.forall_mem_cons.1 hitems
    cases hothers : ofItems items with
    | error e =>
      rw [hothers] at h
      cases h
    | ok others =>
      rw [hothers] at h
      cases h
      obtain ⟨hpositional, hrest⟩ := ih hothers hitems
      refine ⟨?_, hrest⟩
      rw [List.mem_cons, not_or]
      exact ⟨Ne.symm hfirst.symbol_ne, hpositional⟩
  | case4 v items hv => cases h

/-- The parameters are among the symbols that the form names. -/
theorem not_mem_of_ofForm {form : Value} {params : Params} (h : ofForm form = .ok params)
    (hform : form.Omits x) : x ∉ params.positional ∧ params.rest ≠ some x := by
  cases form with
  | vector items => exact not_mem_of_ofItems h hform.vector
  | _ => cases h

end Params

end SmallLisp

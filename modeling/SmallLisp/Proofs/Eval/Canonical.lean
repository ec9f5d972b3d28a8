import SmallLisp.Proofs.Eval.Frame
import SmallLisp.Proofs.Eval.Origin
import SmallLisp.Proofs.Reader.Readable

/-!
# Sets and maps stay in order

Sets and maps are built by inserting, so they are in order wherever they come from: from the constructors, from
the reader (`Value.IsClean.canonical`), and from the evaluator, which gives nothing but what was there before, what
it builds in order and closures over these (`Eval.eval_canonical`). A map literal is the map of its evaluated
entries, or an error when two of its keys evaluate to equal values (`Eval.entries_of_each`). Main statement:
`canonical_throughout`.
-/

namespace SmallLisp

namespace Value

/-! ## What is read -/

theorem IsClean.inOrder {v : Value} (h : v.IsClean) : v.inOrder = true := by
  have hsorted := h.sorted
  cases v with
  | list items | vector items | set items | map entries =>
    simp only [isSorted, everywhere, Bool.and_eq_true] at hsorted
    exact hsorted.1
  | _ => rfl

/-- The parts of what can be printed and read again can be, too; it holds no closure. -/
theorem IsClean.part {v part : Value} (h : v.IsClean) (hpart : part ∈ v.parts) : part.IsClean := by
  obtain ⟨hreadable, hsorted⟩ := h
  cases v with
  | list items | vector items | set items =>
    exact ⟨everywhere_of_mem_elements hreadable rfl part hpart,
      everywhere_of_mem_elements hsorted rfl part hpart⟩
  | map entries =>
    obtain ⟨entry, hentry, hpart⟩ := mem_parts_map.1 hpart
    obtain ⟨hkey, hvalue⟩ := everywhere_of_mem_entries hreadable hentry
    obtain ⟨hkey', hvalue'⟩ := everywhere_of_mem_entries hsorted hentry
    rcases hpart with rfl | rfl
    · exact ⟨hkey, hkey'⟩
    · exact ⟨hvalue, hvalue'⟩
  | fn f => cases hreadable
  | _ => cases hpart

/-- All that occurs in a clean value is clean. -/
theorem IsClean.deeply {v : Value} (h : v.IsClean) : v.Deeply IsClean := by
  intro u hu
  induction hu with
  | self => exact h
  | part hpart _ ih => exact ih (h.part hpart)

theorem IsClean.below {v : Value} (h : v.IsClean) (n : Nat) : v.Below n :=
  fun _ hf => nomatch (h.deeply _ hf).readable

theorem IsClean.canonical {v : Value} (h : v.IsClean) : v.Canonical :=
  Deeply.mono h.deeply fun _ => IsClean.inOrder

theorem canonical_ofItems {items : List Value} (h : ∀ item ∈ items, item.Canonical) :
    (ofItems items).Canonical :=
  deeply_ofItems (inOrder_ofItems items) h

/-- A map of canonical keys and values is canonical. -/
theorem canonical_ofEntries {entries : List (Value × Value)}
    (h : ∀ entry ∈ entries, entry.1.Canonical ∧ entry.2.Canonical) : (ofEntries entries).Canonical :=
  deeply_ofEntries (inOrder_ofEntries entries) h

end Value

/-- The functions of a host give canonical values when they are given canonical ones. -/
def Host.KeepsCanonical (host : Host) : Prop :=
  ∀ (slot : Nat) (function : HostFunction), host[slot]? = some function →
    ∀ (args : List Value) (v : Value), (∀ arg ∈ args, arg.Canonical) → function args = .ok v →
      v.Canonical

namespace Eval

/-! ## What is evaluated -/

/-- Whatever has an origin among values in order is in order: closures are, and what is built is. -/
theorem inOrder_of_origin {made : List (Closure Value)} {u : Value}
    (h : Origin (fun u => u.inOrder = true) made u) : u.inOrder = true := by
  cases h with
  | old horder => exact horder
  | built _ horder => exact horder
  | made _ => rfl

/-- A value is canonical when it is made of parts in order, of closures, and of what it builds in order. -/
theorem traced_inOrder_iff {made : List (Closure Value)} {v : Value} :
    v.Traced (fun u => u.inOrder = true) made ↔ v.Canonical :=
  ⟨fun h => Value.Deeply.mono h fun _ => inOrder_of_origin, fun h => Value.Deeply.mono h fun _ hu => .old hu⟩

/-- An environment is accounted for by values in order exactly when it is canonical. -/
theorem env_traced_inOrder_iff {made : List (Closure Value)} {env : Env} :
    Env.Traced (fun u => u.inOrder = true) made env ↔ Env.Canonical env :=
  ⟨fun h => Env.Deeply.mono h fun _ => inOrder_of_origin, fun h => Env.Deeply.mono h fun _ hu => .old hu⟩

/-- Canonical forms in canonical environments give canonical values and environments. -/
theorem eval_canonical {host : Host} (hhost : host.KeepsCanonical) {depth : Nat} {form value : Value}
    {env env' : Env} {w w' : World} (hform : form.Canonical) (henv : Env.Canonical env)
    (h : eval host depth form env w = .ok (value, env') w') :
    value.Canonical ∧ Env.Canonical env' := by
  have hkeeps : host.Traces fun u => u.inOrder = true := by
    intro slot function hslot made args v hargs hv
    apply traced_inOrder_iff.2
    exact hhost slot function hslot args v (fun arg harg => traced_inOrder_iff.1 (hargs arg harg)) hv
  have hfits : Fits w.nextIdentity [] w := ⟨rfl, rfl⟩
  have htraces := eval_traces hkeeps depth [] form env (traced_inOrder_iff.2 hform)
    (env_traced_inOrder_iff.2 henv) w hfits
  rw [h] at htraces
  obtain ⟨made, -, -, hvalue, henv'⟩ := htraces
  exact ⟨traced_inOrder_iff.1 hvalue, env_traced_inOrder_iff.1 henv'⟩

/-! ## Map literals -/

/-- What the evaluation of a row of keys and values gives for its first entry. -/
theorem each_entry {ev : Evaluator} {keyForm valueForm : Value} {forms values : List Value} {env env' : Env}
    {w w' : World} (h : each ev (keyForm :: valueForm :: forms) env w = .ok (values, env') w') :
    ∃ key value others env₁ w₁ env₂ w₂, values = key :: value :: others ∧
      ev keyForm env w = .ok (key, env₁) w₁ ∧ ev valueForm env₁ w₁ = .ok (value, env₂) w₂ ∧
      each ev forms env₂ w₂ = .ok (others, env') w' := by
  obtain ⟨⟨key, env₁⟩, w₁, hkey, h⟩ := bind_eq_ok h
  obtain ⟨⟨following, env₃⟩, w₃, hfollowing, h⟩ := bind_eq_ok h
  obtain ⟨⟨value, env₂⟩, w₂, hvalue, hfollowing⟩ := bind_eq_ok hfollowing
  obtain ⟨⟨others, env₄⟩, w₄, hothers, hfollowing⟩ := bind_eq_ok hfollowing
  cases hfollowing
  cases h
  exact ⟨key, value, others, env₁, w₁, env₂, w₂, rfl, hkey, hvalue, hothers⟩

/-- Where all keys and values of some entries evaluate, the entries are put into a map, unless a key is there
already. -/
theorem entries_of_each {ev : Evaluator} {items pairs : List (Value × Value)} {env env' : Env}
    {w w' : World} (done : List (Value × Value))
    (h : each ev (items.flatMap fun item => [item.1, item.2]) env w =
      .ok (pairs.flatMap fun pair => [pair.1, pair.2], env') w') :
    (Value.Fresh done pairs → entries ev done items env w =
      .ok (pairs.foldl (fun acc pair => Value.insertEntry pair.1 pair.2 acc) done, env') w') ∧
    (¬ Value.Fresh done pairs → ∃ pair ∈ pairs, ∃ w'', entries ev done items env w =
      .error (.duplicateKey pair.1.print) w'') := by
  induction items generalizing pairs done env w with
  | nil =>
    cases pairs with
    | nil =>
      cases h
      exact ⟨fun _ => rfl, fun hclash => absurd ⟨nofun, List.Pairwise.nil⟩ hclash⟩
    | cons pair others => cases h
  | cons item rest ih =>
    obtain ⟨keyForm, valueForm⟩ := item
    obtain ⟨key, value, others, env₁, w₁, env₂, w₂, hvalues, hkey, hvalue, hrest⟩ := each_entry h
    cases pairs with
    | nil => cases hvalues
    | cons pair pairs =>
      obtain ⟨key', value'⟩ := pair
      obtain ⟨rfl, rfl, rfl⟩ : key' = key ∧ value' = value ∧
          (pairs.flatMap fun pair => [pair.1, pair.2]) = others := by simpa using hvalues
      have hstep : entries ev done ((keyForm, valueForm) :: rest) env w =
          (if (Value.lookup? key' done).isSome then throw (.duplicateKey key'.print)
            else entries ev (Value.insertEntry key' value' done) rest env₂ : Eval _) w₂ :=
        (bind_of_ok hkey).trans (bind_of_ok hvalue)
      rw [hstep, Value.fresh_cons_iff]
      cases hlookup : Value.lookup? key' done with
      | some old => exact ⟨nofun, fun _ => ⟨(key', value'), List.mem_cons_self, w₂, rfl⟩⟩
      | none =>
        obtain ⟨hfresh, hclash⟩ := ih (Value.insertEntry key' value' done) hrest
        refine ⟨fun h => hfresh h.2, fun h => ?_⟩
        obtain ⟨pair, hpair, herror⟩ := hclash fun hrest => h ⟨rfl, hrest⟩
        exact ⟨pair, List.mem_cons_of_mem _ hpair, herror⟩

/-- A map literal whose keys and values all evaluate is the map of its entries, or fails because two of its keys
evaluate to equal values. -/
theorem eval_map_of_each {host : Host} {depth : Nat} {items pairs : List (Value × Value)} {env env' : Env}
    {w w' : World}
    (h : each (eval host depth) (items.flatMap fun item => [item.1, item.2]) env w =
      .ok (pairs.flatMap fun pair => [pair.1, pair.2], env') w') :
    ((pairs.Pairwise fun a b => (a.1 == b.1) = false) →
      eval host (depth + 1) (.map items) env w = .ok (Value.ofEntries pairs, env') w') ∧
    (¬ (pairs.Pairwise fun a b => (a.1 == b.1) = false) → ∃ pair ∈ pairs, ∃ w'',
      eval host (depth + 1) (.map items) env w = .error (.duplicateKey pair.1.print) w'') := by
  obtain ⟨hfresh, hclash⟩ := entries_of_each [] h
  rw [Value.fresh_nil_iff] at hfresh hclash
  constructor
  · intro hdistinct
    exact bind_of_ok (hfresh hdistinct)
  · intro hequal
    obtain ⟨pair, hpair, w'', herror⟩ := hclash hequal
    exact ⟨pair, hpair, w'', bind_of_error herror⟩

end Eval

/-- Sets and maps are canonical wherever they come from. A set is canonical, holds the elements it is made of and
nothing else, and does not depend on their order or number; a map is canonical and has under each key the value
given last. What is read is canonical. What is evaluated from canonical values is canonical. A map literal whose
keys and values all evaluate gives the map of its entries, or fails exactly because two keys are equal. -/
theorem canonical_throughout (host : Host) (hhost : host.KeepsCanonical) :
    (∀ xs : List Value, (∀ x ∈ xs, x.Canonical) →
      (Value.ofItems xs).Canonical ∧
      (∃ items, Value.ofItems xs = .set items ∧
        ∀ v : Value, (∃ u ∈ items, (u == v) = true) ↔ ∃ u ∈ xs, (u == v) = true) ∧
      ∀ ys : List Value, (∀ v, v ∈ ys ↔ v ∈ xs) → (Value.ofItems ys == Value.ofItems xs) = true) ∧
    (∀ ps : List (Value × Value), (∀ p ∈ ps, p.1.Canonical ∧ p.2.Canonical) →
      (Value.ofEntries ps).Canonical ∧
      ∃ entries, Value.ofEntries ps = .map entries ∧
        ∀ key, Value.lookup? key entries = (ps.reverse.find? fun p => p.1 == key).map Prod.snd) ∧
    (∀ (c after : Cursor) (v : Value), c.read = (.ok (some v), after) → v.Canonical) ∧
    (∀ (depth : Nat) (form value : Value) (env env' : Env) (w w' : World), form.Canonical →
      Env.Canonical env → eval host depth form env w = .ok (value, env') w' →
        value.Canonical ∧ Env.Canonical env') ∧
    ∀ (depth : Nat) (items pairs : List (Value × Value)) (env env' : Env) (w w' : World),
      Eval.each (eval host depth) (items.flatMap fun item => [item.1, item.2]) env w =
        .ok (pairs.flatMap fun pair => [pair.1, pair.2], env') w' →
      ((pairs.Pairwise fun a b => (a.1 == b.1) = false) →
        eval host (depth + 1) (.map items) env w = .ok (Value.ofEntries pairs, env') w') ∧
      (¬ (pairs.Pairwise fun a b => (a.1 == b.1) = false) → ∃ pair ∈ pairs, ∃ w'',
        eval host (depth + 1) (.map items) env w = .error (.duplicateKey pair.1.print) w'') := by
  refine ⟨?_, ?_, ?_, ?_, ?_⟩
  · intro xs hxs
    exact ⟨Value.canonical_ofItems hxs, ⟨_, rfl, Value.exists_mem_ofItems_iff rfl⟩,
      fun ys => Value.beq_ofItems_of_mem_iff⟩
  · intro ps hps
    exact ⟨Value.canonical_ofEntries hps, _, rfl, Value.lookup?_ofEntries rfl⟩
  · intro c after v h
    exact (Cursor.isClean_of_read h).canonical
  · intro depth form value env env' w w' hform henv h
    exact Eval.eval_canonical hhost hform henv h
  · intro depth items pairs env env' w w' h
    exact Eval.eval_map_of_each h

/-- A host function that packs its arguments into a set, in a form that has a set around the call; and a map
literal in which a call and a literal give the same key. -/
theorem canonical_throughout_packed :
    let host : Host := #[fun args => .ok (Value.ofItems args)]
    let pack : Value := .symbol ⟨"pack"⟩
    let env : Env := Bindings.empty.insert ⟨"pack"⟩ (.native ⟨"pack", .host 0⟩)
    let form : Value := .set [.int 3, .list [pack, .int 2, .int 1, .int 2]]
    let value : Value := .set [.int 3, .set [.int 1, .int 2]]
    let items : List (Value × Value) := [(.list [pack, .int 1, .int 1], .nil), (.set [.int 1], .bool true)]
    let pairs : List (Value × Value) := [(.set [.int 1], .nil), (.set [.int 1], .bool true)]
    host.KeepsCanonical ∧ form.Canonical ∧ Env.Canonical env ∧
      eval host 3 form env {} = .ok (value, env) {} ∧ value.Canonical ∧
      Eval.each (eval host 3) (items.flatMap fun item => [item.1, item.2]) env {} =
        .ok (pairs.flatMap fun pair => [pair.1, pair.2], env) {} ∧
      ∃ pair ∈ pairs, ∃ w'', eval host 4 (.map items) env {} = .error (.duplicateKey pair.1.print) w'' := by
  intro host pack env form value items pairs
  have hhost : host.KeepsCanonical := by
    intro slot function hslot args v hargs hv
    cases slot with
    | zero =>
      cases hslot
      cases hv
      exact Value.canonical_ofItems hargs
    | succ slot => cases hslot
  have hform : form.Canonical := Value.IsClean.canonical ⟨by decide, by decide⟩
  have henv : Env.Canonical env :=
    Env.Deeply.insert Env.deeply_empty _ (Value.deeply_iff.2 ⟨rfl, nofun⟩)
  have heval : eval host 3 form env {} = .ok (value, env) {} := rfl
  have heach : Eval.each (eval host 3) (items.flatMap fun item => [item.1, item.2]) env {} =
      .ok (pairs.flatMap fun pair => [pair.1, pair.2], env) {} := rfl
  obtain ⟨-, -, -, hcanonical, hliteral⟩ := canonical_throughout host hhost
  exact ⟨hhost, hform, henv, heval, (hcanonical 3 form value env env {} {} hform henv heval).1, heach,
    (hliteral 3 items pairs env env {} {} heach).2 (by decide)⟩

end SmallLisp

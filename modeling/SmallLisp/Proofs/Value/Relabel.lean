import SmallLisp.Proofs.Value.Image
import SmallLisp.Proofs.Value.Occurs

/-!
# Numbering closures anew

`Value.relabel ι` gives every closure in a value the number that `ι` has for its own, and puts what closures captured
in order, at any depth. Where `ι` keeps the order of numbers this is an image (`Image.relabeling`). Values that have
the same image are the same up to the numbers of closures and up to captured environments with equal bindings.
-/

namespace SmallLisp

namespace Value

mutual

/-- The value with its closures numbered anew and what they captured put in order. -/
def relabel (ι : Nat → Nat) : Value → Value
  | .list items => .list (relabelItems ι items)
  | .vector items => .vector (relabelItems ι items)
  | .map entries => .map (relabelEntries ι entries)
  | .set items => .set (relabelItems ι items)
  | .fn ⟨identity, params, rest, body, ⟨bound⟩⟩ =>
    .fn ⟨ι identity, params, rest, relabelItems ι body, relabelBound ι bound⟩
  | v => v

def relabelItems (ι : Nat → Nat) : List Value → List Value
  | [] => []
  | v :: rest => relabel ι v :: relabelItems ι rest

def relabelEntries (ι : Nat → Nat) : List (Value × Value) → List (Value × Value)
  | [] => []
  | (k, v) :: rest => (relabel ι k, relabel ι v) :: relabelEntries ι rest

def relabelBound (ι : Nat → Nat) : List (Symbol × Value) → Bindings Value
  | [] => Bindings.empty
  | (s, v) :: rest => (relabelBound ι rest).insert s (relabel ι v)

end

variable {ι κ : Nat → Nat}

/-- The recursion through a row of values is `List.map`. -/
theorem relabelItems_eq (items : List Value) : relabelItems ι items = items.map (relabel ι) := by
  induction items with
  | nil => rfl
  | cons v rest ih => rw [relabelItems, ih, List.map_cons]

theorem relabelEntries_eq (entries : List (Value × Value)) :
    relabelEntries ι entries = entries.map (Prod.map (relabel ι) (relabel ι)) := by
  induction entries with
  | nil => rfl
  | cons entry rest ih => rw [relabelEntries, ih, List.map_cons, Prod.map]

/-- The recursion through what a closure captured builds the bindings again from all their names. -/
theorem relabelBound_eq (bound : List (Symbol × Value)) :
    relabelBound ι bound = (Bindings.mk bound).rebuild (fun _ => True) (relabel ι) := by
  induction bound with
  | nil => rfl
  | cons entry rest ih =>
    obtain ⟨s, v⟩ := entry
    rw [relabelBound, ih, Bindings.rebuild, Bindings.rebuild, List.foldr_cons, if_pos trivial]

/-- Numbering anew replaces the parts of a value and the numbers of closures, and nothing else. -/
theorem relabel_eq_mapParts (v : Value) :
    v.relabel ι = v.mapParts (relabel ι) ι (Bindings.rebuild (fun _ => True) (relabel ι)) := by
  cases v with
  | list items | vector items | set items => rw [relabel, relabelItems_eq, mapParts]
  | map entries => rw [relabel, relabelEntries_eq, mapParts]
  | fn f =>
    obtain ⟨identity, params, rest, body, ⟨bound⟩⟩ := f
    rw [relabel, relabelItems_eq, relabelBound_eq, mapParts]
  | _ => rfl

end Value

/-- Numbering closures anew, in the same order. -/
def Image.relabeling (ι : Nat → Nat) (h : StrictMono ι) : Image :=
  .rebuilding (fun _ => True) ι (Value.relabel ι) h Value.relabel_eq_mapParts

/-- The environment with all closures in it numbered anew, put in order. -/
def Env.relabel (ι : Nat → Nat) (env : Env) : Env :=
  env.rebuild (fun _ => True) (Value.relabel ι)

/-- A name is bound to the value it was bound to, numbered anew. -/
theorem Env.get?_relabel {ι : Nat → Nat} (env : Env) (s : Symbol) :
    (env.relabel ι).get? s = (env.get? s).map (Value.relabel ι) :=
  (Bindings.get?_rebuild env s).trans (if_pos trivial)

/-! ## Numbers that do not occur -/

namespace Value

variable {ι κ : Nat → Nat}

mutual

/-- Only the numbers of the closures in a value count. -/
theorem relabel_congr : (v : Value) → (∀ f, Occurs (.fn f) v → ι f.identity = κ f.identity) →
    v.relabel ι = v.relabel κ
  | .list items, h => congrArg Value.list (relabelItems_congr items fun _ hv f hf => h f (.part hv hf))
  | .vector items, h => congrArg Value.vector (relabelItems_congr items fun _ hv f hf => h f (.part hv hf))
  | .set items, h => congrArg Value.set (relabelItems_congr items fun _ hv f hf => h f (.part hv hf))
  | .map entries, h => by
    -- a closure in a key or a value of the map occurs in the map
    have hkeys : ∀ entry ∈ entries, ∀ f, Occurs (.fn f) entry.1 → ι f.identity = κ f.identity :=
      fun entry hentry f hf => h f (.part (mem_parts_map.2 ⟨entry, hentry, .inl rfl⟩) hf)
    have hvalues : ∀ entry ∈ entries, ∀ f, Occurs (.fn f) entry.2 → ι f.identity = κ f.identity :=
      fun entry hentry f hf => h f (.part (mem_parts_map.2 ⟨entry, hentry, .inr rfl⟩) hf)
    exact congrArg Value.map (relabelEntries_congr entries hkeys hvalues)
  | .fn ⟨identity, params, rest, body, ⟨bound⟩⟩, h => by
    have hbody := relabelItems_congr body fun v hv f hf => h f (.part (mem_parts_fn.2 (.inl hv)) hf)
    have hbound := relabelBound_congr bound fun entry hentry f hf =>
      h f (.part (mem_parts_fn.2 (.inr ⟨entry, hentry, rfl⟩)) hf)
    -- besides those in its body and environment, the closure has its own number
    rw [relabel, relabel, hbody, hbound, h _ (.self _)]
  | .nil, _ | .bool _, _ | .int _, _ | .float _, _ | .char _, _ | .string _, _ | .symbol _, _ | .keyword _, _
  | .native _, _ => rfl

theorem relabelItems_congr : (items : List Value) →
    (∀ v ∈ items, ∀ f, Occurs (.fn f) v → ι f.identity = κ f.identity) →
    relabelItems ι items = relabelItems κ items
  | [], _ => rfl
  | v :: rest, h => by
    obtain ⟨hv, hrest⟩ := List.forall_mem_cons.1 h
    rw [relabelItems, relabelItems, relabel_congr v hv, relabelItems_congr rest hrest]

theorem relabelEntries_congr : (entries : List (Value × Value)) →
    (∀ entry ∈ entries, ∀ f, Occurs (.fn f) entry.1 → ι f.identity = κ f.identity) →
    (∀ entry ∈ entries, ∀ f, Occurs (.fn f) entry.2 → ι f.identity = κ f.identity) →
    relabelEntries ι entries = relabelEntries κ entries
  | [], _, _ => rfl
  | (k, v) :: rest, hkeys, hvalues => by
    obtain ⟨hk, hkeys⟩ := List.forall_mem_cons.1 hkeys
    obtain ⟨hv, hvalues⟩ := List.forall_mem_cons.1 hvalues
    rw [relabelEntries, relabelEntries, relabel_congr k hk, relabel_congr v hv,
      relabelEntries_congr rest hkeys hvalues]

theorem relabelBound_congr : (bound : List (Symbol × Value)) →
    (∀ entry ∈ bound, ∀ f, Occurs (.fn f) entry.2 → ι f.identity = κ f.identity) →
    relabelBound ι bound = relabelBound κ bound
  | [], _ => rfl
  | (s, v) :: rest, h => by
    obtain ⟨hv, hrest⟩ := List.forall_mem_cons.1 h
    rw [relabelBound, relabelBound, relabel_congr v hv, relabelBound_congr rest hrest]

end

end Value

/-- Only the numbers of the closures in an environment count. -/
theorem Env.relabel_congr {ι κ : Nat → Nat} (env : Env)
    (h : ∀ entry ∈ env.entries, ∀ f, Value.Occurs (.fn f) entry.2 → ι f.identity = κ f.identity) :
    env.relabel ι = env.relabel κ := by
  have hbound := Value.relabelBound_congr env.entries h
  rwa [Value.relabelBound_eq, Value.relabelBound_eq] at hbound

end SmallLisp

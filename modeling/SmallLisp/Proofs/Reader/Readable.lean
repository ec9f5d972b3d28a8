import Mathlib.Logic.Relation
import SmallLisp.Proofs.Reader.Insertion
import SmallLisp.Proofs.Value.Collection

/-!
# What is read can be printed and read again

Every atom that the lexer cuts off has a spelling of its own (`hasSpelling_of_scan`): a run starts with no
marker and holds none, a number that is out of range is refused, and reserved words are no symbols. A form is
derived from such atoms (`exists_writes_of_readForm`), and sets and maps are built by inserting, so by
induction on the derivation everything in it has a spelling and is in order (`Writes.isClean`). Main
statement: `read_print_of_read`.
-/

namespace SmallLisp

open Text

/-! ## Atoms -/

namespace Token

/-- What starts a symbol and is not layout does not end a run. -/
theorem isTerminator_of_lead_symbol {c : Char} {text : List Char} (hblank : isBlank c = false)
    (hcomment : c ≠ ';') (h : lead c text = .symbol) : isTerminator c = false := by
  unfold lead at h
  split at h
  case h_11 => simp_all [isTerminator, isMarker]
  all_goals cases h

/-- The name of a symbol does not look like a number. -/
theorem startsNumber_of_lead_symbol {c : Char} {text : List Char} (hc : isTerminator c = false)
    (h : lead c text = .symbol) : startsNumber (c :: (splitRun text).1) = false := by
  have hlead : lead c ((splitRun text).1 ++ (splitRun text).2) = _ :=
    lead_of_ordinary hc (terminated_splitRun text)
  rw [splitRun_append, h] at hlead
  split at hlead
  · cases hlead
  · next hnumber => simpa using hnumber

theorem isRunName_ofList {run : List Char} (hne : run ≠ [])
    (hrun : ∀ c ∈ run, isTerminator c = false) : Value.isRunName (String.ofList run) = true := by
  simp only [Value.isRunName, String.toList_ofList, Bool.and_eq_true]
  exact ⟨by simpa using hne, by simpa using hrun⟩

/-- A run that is no number is read as a symbol, or as a reserved word, and either is spelled by it. -/
theorem hasSpelling_symbolNamed {run : List Char} (hne : run ≠ [])
    (hrun : ∀ c ∈ run, isTerminator c = false) (hnumber : startsNumber run = false) :
    (symbolNamed (String.ofList run)).toValue.hasSpelling = true := by
  have hname := isRunName_ofList hne hrun
  unfold symbolNamed
  split
  · rfl
  · split
    · rfl
    · split
      · rfl
      · simp_all [Atom.toValue, Value.hasSpelling]

/-- What is read as a number is an integer or a finite double. -/
theorem hasSpelling_numberNamed {run : String} {a : Atom} (h : numberNamed run = .ok a) :
    a.toValue.hasSpelling = true := by
  unfold numberNamed at h
  split at h
  · cases h
    rfl
  · next x hx =>
    cases h
    exact Number.isFinite_of_ofNumeral? hx
  · cases h

/-- What is read as a character has a spelling, as all characters have. -/
theorem hasSpelling_namedCharacter {name : String} {a : Atom} (h : namedCharacter name = .ok a) :
    a.toValue.hasSpelling = true := by
  have hchar : ∃ c, a = .char c := by
    unfold namedCharacter at h
    split at h
    · exact ⟨_, (Except.ok.inj h).symm⟩
    · split at h
      · exact ⟨_, (Except.ok.inj h).symm⟩
      · split at h
        · exact ⟨_, (Except.ok.inj h).symm⟩
        · split at h
          · exact ⟨_, (Except.ok.inj h).symm⟩
          · cases h
  obtain ⟨c, rfl⟩ := hchar
  rfl

theorem of_map_atom {r : Except ReadFault Atom} {a : Atom} (h : r.map Token.atom = .ok (.atom a)) :
    r = .ok a := by
  cases r with
  | error fault => cases h
  | ok a' =>
    cases h
    rfl

/-- Every atom that is scanned has a spelling of its own. -/
theorem hasSpelling_of_scan {c : Char} {text : List Char} {a : Atom} (hblank : isBlank c = false)
    (hcomment : c ≠ ';') (h : (scan c text).outcome = .ok (.atom a)) :
    a.toValue.hasSpelling = true := by
  have hafter : (scanAfter c text).outcome = .ok (.atom a) := h
  have hrun := ordinary_splitRun text
  cases hlead : lead c text with
  -- one case for each way a token can begin; brackets and dispatched tokens are no atoms
  | single token =>
    rw [scanAfter, hlead] at hafter
    cases hafter
    unfold lead at hlead
    split at hlead
    case h_11 => split at hlead <;> cases hlead
    all_goals cases hlead
  | dispatch =>
    simp only [scanAfter, hlead] at hafter
    unfold scanDispatch at hafter
    split at hafter <;> cases hafter
  | quote =>
    simp only [scanAfter, hlead, Scan.map] at hafter
    cases hquoted : (scanQuoted text).outcome with
    | error fault =>
      rw [hquoted] at hafter
      cases hafter
    | ok s =>
      rw [hquoted] at hafter
      cases hafter
      rfl
  | backslash =>
    rw [scanAfter, hlead] at hafter
    have hchar := of_map_atom hafter
    cases text with
    | nil => cases hchar
    | cons d others => exact hasSpelling_namedCharacter hchar
  | colon =>
    rw [scanAfter, hlead] at hafter
    have hkeyword : keywordNamed (String.ofList (splitRun text).1) = .ok a := of_map_atom hafter
    unfold keywordNamed at hkeyword
    split at hkeyword
    · cases hkeyword
    · next hne =>
      cases hkeyword
      exact isRunName_ofList (by simpa using hne) hrun
  | number =>
    rw [scanAfter_of_number hlead] at hafter
    exact hasSpelling_numberNamed (of_map_atom hafter)
  | symbol =>
    -- the run of a symbol begins with the character itself, which does not look like a number
    have hc := isTerminator_of_lead_symbol hblank hcomment hlead
    have hnumber := startsNumber_of_lead_symbol hc hlead
    rw [scanAfter_of_symbol hlead] at hafter
    have hsymbol : symbolNamed (c.toString ++ String.ofList (splitRun text).1) = a :=
      Token.atom.inj (Except.ok.inj hafter)
    rw [← hsymbol, toString_append_ofList]
    exact hasSpelling_symbolNamed (List.cons_ne_nil _ _) (List.forall_mem_cons.2 ⟨hc, hrun⟩) hnumber

/-- Every atom among some tokens has a spelling of its own. -/
def Spelled (tokens : List Token) : Prop :=
  ∀ a, .atom a ∈ tokens → a.toValue.hasSpelling = true

theorem Spelled.of_subset {tokens others : List Token} (h : Spelled tokens)
    (hsubset : ∀ token ∈ others, token ∈ tokens) : Spelled others :=
  fun a ha => h a (hsubset _ ha)

end Token

namespace Cursor

/-- A token that was taken from a text has a spelling. -/
theorem spelled_of_next {c after : Cursor} {token : Token} (h : c.next = (.ok (some token), after)) :
    Token.Spelled [token] := by
  intro a ha
  obtain rfl := List.mem_singleton.1 ha
  obtain ⟨first, others, hrest, hscan, -, -⟩ := scan_of_next h
  -- what is left behind layout starts with a character of its own
  obtain ⟨hblank, hcomment⟩ : isBlank first = false ∧ first ≠ ';' := by
    apply solid_splitLayout false c.rest
    rw [show (splitLayout false c.rest).2 = first :: others from hrest]
    rfl
  exact Token.hasSpelling_of_scan hblank hcomment hscan

/-- A form that is read is derived from tokens whose atoms have spellings. -/
theorem exists_writes_of_readForm {tokens : List Token} {stack : List Frame} {c after : Cursor}
    {v : Value} (h : Opens tokens stack) (hspelled : Token.Spelled tokens)
    (hread : c.readForm stack = (.ok (some v), after)) :
    ∃ taken, Writes taken v ∧ Token.Spelled taken := by
  fun_induction readForm stack c generalizing tokens with
  | case1 stack c e next hnext => cases hread
  | case2 stack c next hnext => cases stack <;> cases hread
  | case3 stack c token next hnext e hstep => cases hread
  | case4 stack c token next hnext form hstep =>
    cases hread
    refine ⟨tokens ++ [token], Progress.step_accounts h hstep, ?_⟩
    intro a ha
    rcases List.mem_append.1 ha with ha | ha
    · exact hspelled a ha
    · exact spelled_of_next hnext a ha
  | case5 stack c token next hnext inner hstep ih =>
    refine ih (Progress.step_accounts h hstep) ?_ hread
    intro a ha
    rcases List.mem_append.1 ha with ha | ha
    · exact hspelled a ha
    · exact spelled_of_next hnext a ha

end Cursor

/-! ## Forms -/

namespace Value

/-- A value whose text can be read, with every set and map in it in order. -/
structure IsClean (v : Value) : Prop where
  readable : v.isReadable = true
  sorted : v.isSorted = true

theorem isClean_atom {a : Atom} (h : a.toValue.hasSpelling = true) : a.toValue.IsClean := by
  cases a <;> exact ⟨h, rfl⟩

/-- A list, vector or set that is in order is clean when its elements are. -/
theorem isClean_elements {v : Value} {items : List Value} (hitems : v.elements? = some items)
    (horder : v.inOrder = true) (h : ∀ item ∈ items, item.IsClean) : v.IsClean := by
  have hreadable := everyItem_iff.2 fun item hitem => (h item hitem).readable
  have hsorted := everyItem_iff.2 fun item hitem => (h item hitem).sorted
  cases v <;> cases hitems <;>
    exact ⟨by simp [isReadable, everywhere, hasSpelling, hreadable],
      by simp [isSorted, everywhere, horder, hsorted]⟩

/-- A map that is in order is clean when its keys and values are. -/
theorem isClean_map {entries : List (Value × Value)} (horder : (map entries).inOrder = true)
    (h : ∀ entry ∈ entries, entry.1.IsClean ∧ entry.2.IsClean) : (map entries).IsClean := by
  have hreadable := everyEntry_iff.2 fun entry hentry =>
    ⟨(h entry hentry).1.readable, (h entry hentry).2.readable⟩
  have hsorted := everyEntry_iff.2 fun entry hentry =>
    ⟨(h entry hentry).1.sorted, (h entry hentry).2.sorted⟩
  exact ⟨by simp [isReadable, everywhere, hasSpelling, hreadable],
    by simp [isSorted, everywhere, horder, hsorted]⟩

/-- A set is built in order, so only its elements count. -/
theorem isClean_ofItems {items : List Value} (h : ∀ v ∈ items, v.IsClean) : (ofItems items).IsClean := by
  apply isClean_elements rfl (inOrder_ofItems items)
  intro item hitem
  exact h item (Sorted.mem_of_mem_collect hitem)

theorem isClean_ofEntries {entries : List (Value × Value)}
    (h : ∀ entry ∈ entries, entry.1.IsClean ∧ entry.2.IsClean) : (ofEntries entries).IsClean := by
  apply isClean_map (inOrder_ofEntries entries)
  intro entry hentry
  exact h entry (Sorted.mem_of_mem_collect hentry)

end Value

/-- The tokens of one form of a collection are among those of the collection. -/
theorem Token.Spelled.of_phrase {opening closing : Token} {items : List Phrase} {item : Phrase}
    (h : Spelled (opening :: (items.flatMap Phrase.tokens ++ [closing]))) (hitem : item ∈ items) :
    Spelled item.tokens := by
  apply h.of_subset
  intro token htoken
  apply List.mem_cons_of_mem
  exact List.mem_append_left _ (List.mem_flatMap.2 ⟨item, hitem, htoken⟩)

theorem Token.Spelled.of_entry {opening closing : Token} {entries : List (Phrase × Phrase)}
    {entry : Phrase × Phrase}
    (h : Spelled (opening :: (entries.flatMap (fun entry => entry.1.tokens ++ entry.2.tokens) ++
      [closing]))) (hentry : entry ∈ entries) : Spelled (entry.1.tokens ++ entry.2.tokens) := by
  apply h.of_subset
  intro token htoken
  apply List.mem_cons_of_mem
  exact List.mem_append_left _ (List.mem_flatMap.2 ⟨entry, hentry, htoken⟩)

/-- A form derived from atoms that have spellings can be printed and is in order throughout. -/
theorem Writes.isClean {tokens : List Token} {v : Value} (h : Writes tokens v)
    (hspelled : Token.Spelled tokens) : v.IsClean := by
  induction h with
  | atom a => exact Value.isClean_atom (hspelled a List.mem_cons_self)
  | list items hitems ih =>
    apply Value.isClean_elements rfl rfl
    intro v hv
    obtain ⟨item, hitem, rfl⟩ := List.mem_map.1 hv
    exact ih item hitem (hspelled.of_phrase hitem)
  | vector items hitems ih =>
    apply Value.isClean_elements rfl rfl
    intro v hv
    obtain ⟨item, hitem, rfl⟩ := List.mem_map.1 hv
    exact ih item hitem (hspelled.of_phrase hitem)
  -- sets and maps are built by inserting, so their order need not be looked at
  | set items hitems ih =>
    apply Value.isClean_ofItems
    intro v hv
    obtain ⟨item, hitem, rfl⟩ := List.mem_map.1 hv
    exact ih item hitem (hspelled.of_phrase hitem)
  | map entries hkeys hvalues hdistinct ihkeys ihvalues =>
    apply Value.isClean_ofEntries
    intro pair hpair
    obtain ⟨entry, hentry, rfl⟩ := List.mem_map.1 hpair
    have hboth := hspelled.of_entry hentry
    exact ⟨ihkeys entry hentry (hboth.of_subset fun _ => List.mem_append_left _),
      ihvalues entry hentry (hboth.of_subset fun _ => List.mem_append_right _)⟩

/-- Whatever is read, wherever the text stands, can be printed and is in order throughout. -/
theorem Cursor.isClean_of_read {c after : Cursor} {v : Value} (h : c.read = (.ok (some v), after)) :
    v.IsClean := by
  obtain ⟨last, hform, -⟩ := exists_readForm_of_read_some h
  obtain ⟨taken, hwrites, hspelled⟩ := exists_writes_of_readForm .nil (fun a ha => nomatch ha) hform
  exact hwrites.isClean hspelled

namespace Value

/-- The text of a clean value is read as the value, and nothing is left of it. -/
theorem IsClean.exists_read_print {v : Value} (h : v.IsClean) :
    ∃ after : Cursor, after.skipLayout.rest = [] ∧ (Cursor.ofString v.print).read = (.ok (some v), after) := by
  have hreads := reads v h.readable h.sorted
  have hsolid : (Cursor.ofString v.print).skipLayout.rest = v.chars ++ [] := by
    apply Cursor.rest_skipLayout .nil (hreads.solid [])
    simp [Cursor.ofString, Cursor.ofList, print]
  exact Cursor.read_of_reads hreads terminated_nil hsolid

/-- A clean value is read back from its text. -/
theorem IsClean.read_print {v : Value} (h : v.IsClean) : read v.print = .ok (some v) := by
  obtain ⟨after, -, hread⟩ := h.exists_read_print
  rw [read, hread]

/-- A text, and the text of the first form that is read from it. -/
def Reprints (text text' : String) : Prop :=
  ∃ v, read text = .ok (some v) ∧ text' = v.print

/-- The first printed text is printed over and over. -/
theorem transGen_reprints_iff {text text' : String} {v : Value} (hread : read text = .ok (some v))
    (hprint : read v.print = .ok (some v)) :
    Relation.TransGen Reprints text text' ↔ text' = v.print := by
  constructor
  · intro h
    induction h with
    | single hstep =>
      obtain ⟨w, hw, rfl⟩ := hstep
      rw [hread] at hw
      cases hw
      rfl
    | tail _ hstep ih =>
      obtain ⟨w, hw, rfl⟩ := hstep
      rw [ih, hprint] at hw
      cases hw
      rfl
  · rintro rfl
    exact .single ⟨v, hread, rfl⟩

/-- Whatever is read, at any place of any text, has a text that can be read, at every depth. So what is read from
a text is also read from its own text, and printing and reading over and over gives that text again. -/
theorem read_print_of_read :
    (∀ (c after : Cursor) (v : Value), c.read = (.ok (some v), after) → v.isReadable = true) ∧
    ∀ (text : String) (v : Value), read text = .ok (some v) →
      read v.print = .ok (some v) ∧
        ∀ text' : String, Relation.TransGen Reprints text text' ↔ text' = v.print := by
  refine ⟨fun c after v h => (Cursor.isClean_of_read h).readable, ?_⟩
  intro text v hread
  have hcursor : (Cursor.ofString text).read = (.ok (some v), (Cursor.ofString text).read.2) :=
    Prod.ext hread rfl
  have hclean := Cursor.isClean_of_read hcursor
  exact ⟨hclean.read_print, fun text' => transGen_reprints_iff hread hclean.read_print⟩

/-- A comment, a symbol that starts with a sign, a keyword that is a digit, elements that are out of order and
twice there, and an error after the form. -/
theorem read_print_of_read_unordered_set :
    let text := ";\n#\x7b:1 +a :1\x7d)"
    let v : Value := .set [.symbol ⟨"+a"⟩, .keyword ⟨"1"⟩]
    read text = .ok (some v) ∧ v.isReadable = true ∧ read v.print = .ok (some v) ∧
      ∀ text' : String, Relation.TransGen Reprints text text' ↔ text' = v.print := by
  intro text v
  let first : Phrase := ⟨[.atom (.keyword "1")], .keyword ⟨"1"⟩⟩
  let second : Phrase := ⟨[.atom (.symbol "+a")], .symbol ⟨"+a"⟩⟩
  have hwrites : Writes [.opening .set, .atom (.keyword "1"), .atom (.symbol "+a"), .atom (.keyword "1"),
      .closing .brace] v := by
    apply Writes.set [first, second, first]
    simp only [List.forall_mem_cons]
    exact ⟨.atom _, .atom _, .atom _, List.forall_mem_nil _⟩
  have htokens : (Cursor.ofString text).tokens.1 = .ok [.opening .set, .atom (.keyword "1"),
      .atom (.symbol "+a"), .atom (.keyword "1"), .closing .brace, .closing .paren] := by
    decide +kernel
  have hread : read text = .ok (some v) := by
    obtain ⟨after, place, -, hform⟩ := Cursor.takes_of_writes hwrites _ [] [.closing .paren] htokens
    rw [read, Cursor.read, hform]
    rfl
  have hcursor : (Cursor.ofString text).read = (.ok (some v), (Cursor.ofString text).read.2) :=
    Prod.ext hread rfl
  exact ⟨hread, read_print_of_read.1 _ _ v hcursor, read_print_of_read.2 text v hread⟩

end Value

end SmallLisp

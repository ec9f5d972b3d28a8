import SmallLisp.Proofs.Reader.Joined
import SmallLisp.Proofs.Reader.Open

/-!
# Completing a text that is too short

A text that ended inside a form can be continued to one that has this form. The string or the mark that was cut
off is finished (`Token.Faulty.exists_spells`), an open comment ends with its line, a key that waits gets a
value, and then the open collections are closed from the inside out (`readForm_closers`). This needs every open
map to take what is closed inside it: a map may wait for a value, or for nothing, but not for the rest of a key.
Main statement: `read_completable`.
-/

namespace SmallLisp

open Text (QuotedPart Solid Terminated)

/-! ## Tokens that were cut off -/

/-- Two stretches of quoted text make one. -/
theorem Text.QuotedPart.append {part s part' s' : List Char} (h : QuotedPart part s)
    (h' : QuotedPart part' s') : QuotedPart (part ++ part') (s ++ s') := by
  induction h with
  | nil => exact h'
  | plain hquote hbackslash _ ih => exact .plain hquote hbackslash ih
  | escaped hletter _ ih => exact .escaped hletter ih

namespace Token

/-- A stretch of quoted text between quotes spells its characters. -/
theorem spells_quoted {part s : List Char} (h : QuotedPart part s) (rest : List Char) :
    Spells ('"' :: (part ++ ['"'])) rest (.atom (.string (String.ofList s))) := by
  have hscan : scanQuoted (part ++ '"' :: rest) = ⟨part ++ ['"'], .ok s, rest⟩ := by
    rw [scanQuoted_part h]
    simp [scanQuoted, Except.map]
  have hafter : scanAfter '"' (part ++ '"' :: rest) =
      (scanQuoted (part ++ '"' :: rest)).map fun s => .atom (.string (String.ofList s)) := rfl
  refine ⟨'"', part ++ '"' :: rest, by simp, by decide, by decide, ?_⟩
  rw [scan, hafter, hscan]
  exact ⟨rfl, rfl⟩

/-- A token that was cut off can be finished: it is an atom then, or opens a set. -/
theorem Faulty.exists_spells {construct : String} {text : List Char}
    (h : Faulty (.unexpectedEnd construct) text) {rest : List Char} (hrest : Terminated rest) :
    ∃ more, (∃ a, Spells (text ++ more) rest (.atom a)) ∨
      Spells (text ++ more) ('\x7d' :: rest) (.opening .set) := by
  cases h with
  | @openString part s stop hpart hstop =>
    rcases hstop with rfl | rfl
    · refine ⟨['"'], .inl ⟨.string (String.ofList s), ?_⟩⟩
      rw [List.append_nil]
      exact spells_quoted hpart rest
    · -- the backslash becomes part of an escape
      have hescaped : QuotedPart (part ++ ['\\', 'n']) (s ++ ['\n']) := hpart.append (.escaped rfl .nil)
      refine ⟨['n', '"'], .inl ⟨.string (String.ofList (s ++ ['\n'])), ?_⟩⟩
      simpa using spells_quoted hescaped rest
  | openMark hmark =>
    rcases hmark with rfl | rfl
    · exact ⟨['a'], .inl ⟨_, spells_character (c := 'a') (by simp) hrest rfl⟩⟩
    · exact ⟨['\x7b'], .inr (spells_opening .set _)⟩

end Token

/-! ## Collections that can be closed -/

namespace Frame

/-- The collection may end as it is. -/
def Closable (f : Frame) : Prop :=
  ∀ place, ∃ v, f.finish place = .ok v

/-- The collection takes any form, and may end then. -/
def Accepts (f : Frame) : Prop :=
  ∀ v place, ∃ f', f.add v place = .ok f' ∧ f'.shape = f.shape ∧ f'.Closable

end Frame

/-- The brackets that close the open collections, the innermost first. -/
def Frame.closers (stack : List Frame) : List Char :=
  stack.map fun frame => frame.shape.closer.char

namespace Cursor

theorem solid_closers (stack : List Frame) : Solid (Frame.closers stack) := by
  cases stack with
  | nil =>
    intro c hc
    cases hc
  | cons frame outer => exact Value.solid_closer

theorem terminated_closers (stack : List Frame) : Terminated (Frame.closers stack) := by
  cases stack with
  | nil => exact Text.terminated_nil
  | cons frame outer => exact Text.terminated_cons (Token.isTerminator_char _) _

/-- The bracket that closes the innermost collection is read. -/
theorem readForm_closer {frame : Frame} {c : Cursor} {rest : List Char} (hframe : frame.Closable)
    (outer : List Frame) (hc : c.skipLayout.rest = frame.shape.closer.char :: rest) :
    ∃ (v : Value) (after : Cursor), after.rest = rest ∧
      c.readForm (frame :: outer) = after.resume (Progress.deliver v frame.opened outer) := by
  obtain ⟨after, place, hafter, hread⟩ :=
    readForm_of_spells (frame :: outer) (Token.spells_closing frame.shape.closer rest) hc
  obtain ⟨v, hfinish⟩ := hframe place
  refine ⟨v, after, hafter, ?_⟩
  simp only [hread, Progress.step, Progress.close, if_true, hfinish]

/-- Behind a form the brackets are read up to the end of the outermost collection. The induction is on the open
collections: each of them takes the form, and is itself the form that the next one takes. -/
theorem resume_closers {stack : List Frame} (hstack : ∀ f ∈ stack, f.Accepts) {c : Cursor}
    (hc : c.rest = Frame.closers stack) (v : Value) (place : Text.Location) :
    ∃ w after, c.resume (Progress.deliver v place stack) = (.ok (some w), after) := by
  induction stack generalizing c v place with
  | nil => exact ⟨v, c, rfl⟩
  | cons frame outer ih =>
    obtain ⟨frame', hadd, hshape, hclosable⟩ := hstack frame List.mem_cons_self v place
    have hskip : c.skipLayout.rest = frame'.shape.closer.char :: Frame.closers outer := by
      rw [hshape]
      exact rest_skipLayout .nil (solid_closers (frame :: outer)) hc
    obtain ⟨w, after, hafter, hread⟩ := readForm_closer hclosable outer hskip
    simp only [Progress.deliver, hadd, resume, hread]
    exact ih (fun f hf => hstack f (List.mem_cons_of_mem frame hf)) hafter w frame'.opened

/-- Closing brackets finish a collection that may be closed, and those around it. -/
theorem readForm_closers {frame : Frame} {outer : List Frame} {c : Cursor} (hframe : frame.Closable)
    (houter : ∀ f ∈ outer, f.Accepts) (hc : c.skipLayout.rest = Frame.closers (frame :: outer)) :
    ∃ v after, c.readForm (frame :: outer) = (.ok (some v), after) := by
  obtain ⟨v, after, hafter, hread⟩ := readForm_closer hframe outer hc
  rw [hread]
  exact resume_closers houter hafter v frame.opened

/-- An atom and closing brackets finish all collections that take it. -/
theorem readForm_atom_closers {stack : List Frame} {c : Cursor} {text : List Char} {a : Atom}
    (hstack : ∀ f ∈ stack, f.Accepts) (hatom : Token.Spells text (Frame.closers stack) (.atom a))
    (hc : c.skipLayout.rest = text ++ Frame.closers stack) :
    ∃ v after, c.readForm stack = (.ok (some v), after) := by
  obtain ⟨after, place, hafter, hread⟩ := readForm_of_spells stack hatom hc
  rw [hread]
  exact resume_closers hstack hafter a.toValue place

end Cursor

/-! ## Maps that are open -/

namespace Value

theorem length_alternating (pairs : List (Value × Value)) :
    (alternating pairs).length = 2 * pairs.length := by
  induction pairs with
  | nil => rfl
  | cons pair pairs ih =>
    have hcons : alternating (pair :: pairs) = pair.1 :: pair.2 :: alternating pairs := rfl
    rw [hcons, List.length_cons, List.length_cons, List.length_cons, ih]
    omega

/-- An even number of forms is not an odd one. -/
theorem alternating_ne_concat (pairs others : List (Value × Value)) (key : Value) :
    alternating pairs ≠ alternating others ++ [key] := by
  intro h
  have hlength := congrArg List.length h
  rw [List.length_append, length_alternating, length_alternating, List.length_singleton] at hlength
  omega

/-- Keys and values in turn tell the pairs. -/
theorem alternating_injective {pairs others : List (Value × Value)}
    (h : alternating pairs = alternating others) : pairs = others := by
  induction pairs generalizing others with
  | nil =>
    cases others with
    | nil => rfl
    | cons pair others => cases h
  | cons pair pairs ih =>
    cases others with
    | nil => cases h
    | cons pair' others =>
      obtain ⟨hkey, hrest⟩ := List.cons.inj h
      obtain ⟨hvalue, hrest⟩ := List.cons.inj hrest
      rw [Prod.ext hkey hvalue, ih hrest]

end Value

namespace Cursor

/-- The text is too short for the form that begins here, with the given collections open. -/
def Incomplete (stack : List Frame) (c : Cursor) : Prop :=
  ∃ e after, c.readForm stack = (.error e, after) ∧ e.isIncomplete = true

/-- No whole form begins here: there is nothing but layout, or the text is too short for the form. -/
def Unfinished (c : Cursor) : Prop :=
  c.skipLayout.rest = [] ∨ c.Incomplete []

/-- Each map that is open at the end of the text is between two entries, or at the value, begun or not, of a
key that differs from the keys before it. -/
def MapsReady (start : Cursor) : Prop :=
  ∀ opener forms stop, Within start opener .map forms stop → Unfinished stop →
    (∃ pairs, forms = Value.alternating pairs ∧ stop.skipLayout.rest = []) ∨
      ∃ pairs key, forms = Value.alternating pairs ++ [key] ∧ ∀ pair ∈ pairs, (pair.1 == key) = false

end Cursor

/-- A map takes the value of a key that it does not have yet. -/
theorem Frame.accepts_of_fresh {opened : Text.Location} {pairs entries : List (Value × Value)} {key : Value}
    (hentries : Value.ofEntries pairs = .map entries) (h : ∀ pair ∈ pairs, (pair.1 == key) = false)
    (keyStart : Text.Location) : (Frame.mk opened (.map entries (some (key, keyStart)))).Accepts := by
  intro v place
  have hlookup := (Value.lookup?_eq_none_iff hentries key).2 h
  simp only [Frame.add, hlookup, Option.isSome_none, Bool.false_eq_true, if_false]
  exact ⟨_, rfl, rfl, fun _ => ⟨_, rfl⟩⟩

namespace Cursor

/-- The innermost collection where no whole form follows: it takes one, or the text ended and it may end too. -/
theorem MapsReady.accepts_or_closable {start opener inside c : Cursor} {outer : List Frame} {frame : Frame}
    (hready : MapsReady start) (houter : Opened start outer opener)
    (hopen : opener.next = (.ok (some (.opening frame.shape)), inside))
    (hspans : frame.content.Spans inside c) (hunfinished : Unfinished c) :
    frame.Accepts ∨ frame.Closable ∧ c.skipLayout.rest = [] := by
  obtain ⟨opened, content⟩ := frame
  cases content with
  | map entries pending =>
    cases pending with
    | none =>
      obtain ⟨pairs, -, hforms⟩ := hspans
      rcases hready _ _ _ (houter.within hopen hforms) hunfinished with ⟨-, -, hend⟩ | ⟨others, key, hodd, -⟩
      · exact .inr ⟨fun _ => ⟨_, rfl⟩, hend⟩
      · exact absurd hodd (Value.alternating_ne_concat _ _ _)
    | some waiting =>
      obtain ⟨key, keyStart⟩ := waiting
      obtain ⟨pairs, middle, hentries, hforms, -, hkey⟩ := hspans
      rcases hready _ _ _ (houter.within hopen (hforms.concat hkey)) hunfinished with
        ⟨others, heven, -⟩ | ⟨others, key', hodd, hfresh⟩
      · exact absurd heven.symm (Value.alternating_ne_concat _ _ _)
      · obtain ⟨hpairs, hkeys⟩ := List.append_inj' hodd rfl
        cases hkeys
        rw [← Value.alternating_injective hpairs] at hfresh
        exact .inl (Frame.accepts_of_fresh hentries hfresh keyStart)
  | _ => exact .inl fun v place => ⟨_, rfl, rfl, fun _ => ⟨_, rfl⟩⟩

/-- Where the text is too short for the form that begins, every collection around it takes this form. -/
theorem MapsReady.accepts {start c : Cursor} {stack : List Frame} (hready : MapsReady start)
    (h : Opened start stack c) (hne : c.skipLayout.rest ≠ []) (hshort : ∀ stack, c.Incomplete stack) :
    ∀ frame ∈ stack, frame.Accepts := by
  induction h with
  | nil =>
    intro frame hframe
    cases hframe
  | @cons outer frame opener inside c houter hopen hplace hresume hspans ih =>
    -- the form around is the collection itself, which begins at its bracket
    have hshort' : ∀ stack, opener.Incomplete stack := by
      intro stack
      rw [Incomplete, hresume]
      exact hshort (frame :: stack)
    refine List.forall_mem_cons.2 ⟨?_, ih (skipLayout_rest_ne_nil_of_next hopen) hshort'⟩
    rcases hready.accepts_or_closable houter hopen hspans (.inr (hshort [])) with haccepts | ⟨-, hend⟩
    · exact haccepts
    · exact absurd hend hne

/-! ## Completing the text -/

/-- A text that was cut off inside a token. -/
theorem exists_completion_of_refused {stack : List Frame} {c after : Cursor} {e : ReadError}
    (hstack : ∀ frame ∈ stack, frame.Accepts) (hnext : c.next = (.error e, after))
    (hincomplete : e.isIncomplete = true) :
    ∃ more v last, (c.extend more).readForm stack = (.ok (some v), last) := by
  obtain ⟨first, others, hrest, hscan, -, -⟩ := scan_of_next_error hnext
  obtain ⟨fault, location⟩ := e
  cases fault with
  | unexpectedEnd construct =>
    have hskip : ∀ more, (c.extend more).skipLayout.rest = first :: others ++ more := by
      intro more
      rw [skipLayout_extend (by rw [hrest]; exact List.cons_ne_nil _ _), rest_extend, hrest]
    obtain ⟨more, ⟨a, hatom⟩ | hset⟩ := (Token.faulty_of_scan hscan).exists_spells (terminated_closers stack)
    · refine ⟨more ++ Frame.closers stack, readForm_atom_closers hstack hatom ?_⟩
      rw [hskip, List.append_assoc]
    -- a lone dispatch mark can only become the opening of a set, here of the empty one
    · refine ⟨more ++ '\x7d' :: Frame.closers stack, ?_⟩
      have hc := hskip (more ++ '\x7d' :: Frame.closers stack)
      rw [← List.append_assoc] at hc
      obtain ⟨inside, place, hinside, hread⟩ := readForm_of_spells stack hset hc
      have hclosable : (Frame.mk place (.empty .set)).Closable := fun _ => ⟨_, rfl⟩
      rw [hread]
      exact readForm_closers hclosable hstack
        (rest_skipLayout .nil (solid_closers (⟨place, .empty .set⟩ :: stack)) hinside)
  | _ => cases hincomplete

/-- A text that ended between two tokens: a newline ends its last comment. -/
theorem exists_completion_of_ended {frame : Frame} {outer : List Frame} {c : Cursor}
    (hframe : frame.Accepts ∨ frame.Closable) (houter : ∀ f ∈ outer, f.Accepts)
    (hend : c.skipLayout.rest = []) :
    ∃ more v last, (c.extend ('\n' :: more)).readForm (frame :: outer) = (.ok (some v), last) := by
  have hskip : ∀ more, Solid more → (c.extend ('\n' :: more)).skipLayout.rest = more := by
    intro more hmore
    rw [skipLayout_extend_newline hend]
    exact rest_skipLayout .nil hmore rfl
  rcases hframe with haccepts | hclosable
  · have hatom : Token.Spells "nil".toList (Frame.closers (frame :: outer)) (.atom .nil) :=
      Token.spells_run (by decide) (Text.ordinary_of_all (by decide)) (terminated_closers _) rfl
    exact ⟨_, readForm_atom_closers (List.forall_mem_cons.2 ⟨haccepts, houter⟩) hatom (hskip _ hatom.solid)⟩
  · exact ⟨_, readForm_closers hclosable houter (hskip _ (solid_closers _))⟩

/-- A stack that is reached by reading can be left by reading on, if the open maps are ready. -/
theorem MapsReady.exists_completion {start c : Cursor} {stack : List Frame} {e : ReadError}
    (hready : MapsReady start) (h : Opened start stack c) (hfails : Fails stack c e)
    (hincomplete : e.isIncomplete = true) :
    ∃ more v last, (c.rest = [] → Terminated more) ∧
      (c.extend more).readForm stack = (.ok (some v), last) := by
  cases hfails with
  -- a token was cut off: it is completed, and the open collections are closed behind it
  | refused hnext =>
    have hne : c.skipLayout.rest ≠ [] := by
      obtain ⟨first, others, hrest, -⟩ := scan_of_next_error hnext
      rw [hrest]
      exact List.cons_ne_nil _ _
    have hshort : ∀ stack, c.Incomplete stack :=
      fun stack => ⟨e, _, readForm_of_next_error stack hnext, hincomplete⟩
    obtain ⟨more, v, last, hread⟩ :=
      exists_completion_of_refused (hready.accepts h hne hshort) hnext hincomplete
    exact ⟨more, v, last, fun hnil => absurd (c.leads_skipLayout.rest_eq_nil hnil) hne, hread⟩
  -- the text ended inside a collection, perhaps in a comment: a new line ends that first
  | ended hnext hfinish =>
    obtain ⟨hend, -⟩ := rest_of_next_none hnext
    cases h with
    | nil => cases hfinish
    | @cons outer frame opener inside c houter hopen hplace hresume hspans =>
      have hshort : ∀ stack, opener.Incomplete stack := by
        intro stack
        rw [Incomplete, hresume, readForm_of_next_none _ hnext]
        exact ⟨_, _, rfl, rfl⟩
      have hframe := hready.accepts_or_closable houter hopen hspans (.inl hend)
      have haccepts := hready.accepts houter (skipLayout_rest_ne_nil_of_next hopen) hshort
      obtain ⟨more, v, last, hread⟩ :=
        exists_completion_of_ended (hframe.imp_right And.left) haccepts hend
      exact ⟨'\n' :: more, v, last, fun _ => Text.terminated_cons (by decide) more, hread⟩
  -- no further text mends a misplaced token
  | misplaced hnext hstep =>
    rw [Progress.isIncomplete_of_step hstep] at hincomplete
    cases hincomplete

/-! ## Up to the place where no whole form follows -/

/-- A cursor stops here or behind the next token. -/
theorem Stop.after {c after stop : Cursor} {token : Token} (h : Stop c stop)
    (hnext : c.next = (.ok (some token), after)) : stop = c ∨ Stop after stop := by
  cases h with
  | here => exact .inl rfl
  | later hnext' h =>
    cases hnext.symm.trans hnext'
    exact .inr h

/-- Whole forms that end where none follows include every whole form on the way. -/
theorem Forms.after {c middle stop : Cursor} {v : Value} {forms : List Value} (h : Forms c forms stop)
    (hunfinished : Unfinished stop) (hform : c.readForm [] = (.ok (some v), middle)) :
    ∃ others, forms = v :: others ∧ Forms middle others stop := by
  cases h with
  | nil =>
    rcases hunfinished with hend | ⟨e, after, herror, -⟩
    · exact absurd hend (skipLayout_rest_ne_nil_of_form hform)
    · cases hform.symm.trans herror
  | cons hform' h =>
    cases hform.symm.trans hform'
    exact ⟨_, rfl, h⟩

theorem next_of_fst {c : Cursor} {result : Except ReadError (Option Token)} (h : c.next.1 = result) :
    c.next = (result, c.next.2) :=
  Prod.ext h rfl

theorem readForm_of_atom {c after : Cursor} {a : Atom} (h : c.next = (.ok (some (.atom a)), after)) :
    c.readForm [] = (.ok (some a.toValue), after) := by
  rw [readForm_of_next_some [] h]
  rfl

end Cursor

namespace Value

/-- An incomplete form can be completed. If a text is too short for its first form, and every map that is open
at its end is between two entries or at the value of a key that is new in it, then the text can be continued to
one that has a first form. -/
theorem read_completable {text : String} {e : ReadError} (h : read text = .error e)
    (hincomplete : e.isIncomplete = true) (hready : (Cursor.ofString text).MapsReady) :
    ∃ more v, read (text ++ more) = .ok (some v) := by
  have hform := Cursor.readForm_of_read_error (Prod.ext h rfl : _ = (Except.error e, _))
  obtain ⟨stack, last, hsteps, hfails⟩ := Cursor.exists_steps_of_error hform
  obtain ⟨more, v, after, hmore, hread⟩ :=
    hready.exists_completion (Cursor.Opened.nil.steps hsteps) hfails hincomplete
  have hwhole := Cursor.readForm_of_steps (hsteps.extend more hmore)
  rw [hread, Cursor.ofString, Cursor.extend_ofList] at hwhole
  refine ⟨String.ofList more, v, ?_⟩
  rw [read, Cursor.read, Cursor.ofString, String.toList_append, String.toList_ofList, hwhole]

/-- A string is cut off inside an escape, at the value of the second key of a map. -/
theorem read_completable_open_escape :
    let text := "\x7b:a 1 :b \"x\\"
    let e : ReadError := ⟨.unexpectedEnd "string", ⟨1, 10⟩⟩
    read text = .error e ∧ e.isIncomplete = true ∧ (Cursor.ofString text).MapsReady ∧
      ∃ more v, read (text ++ more) = .ok (some v) := by
  intro text e
  have hread : read text = .error e :=
    error_of_map (by decide +kernel : (read text).map (fun _ => ()) = .error e)
  have hready : (Cursor.ofString text).MapsReady := by
    have htokens : ∃ c₁ c₂ c₃ c₄ last : Cursor,
        (Cursor.ofString text).next = (.ok (some (.opening .map)), c₁) ∧
        c₁.next = (.ok (some (.atom (.keyword "a"))), c₂) ∧ c₂.next = (.ok (some (.atom (.int 1))), c₃) ∧
        c₃.next = (.ok (some (.atom (.keyword "b"))), c₄) ∧ c₄.next = (.error e, last) :=
      ⟨_, _, _, _, _, Cursor.next_of_fst (by decide +kernel), Cursor.next_of_fst (by decide +kernel),
        Cursor.next_of_fst (by decide +kernel), Cursor.next_of_fst (by decide +kernel),
        Cursor.next_of_fst (by decide +kernel)⟩
    obtain ⟨c₁, c₂, c₃, c₄, last, h₀, h₁, h₂, h₃, h₄⟩ := htokens
    intro opener forms stop hwithin hunfinished
    obtain ⟨inside, -, hopen, hforms⟩ := hwithin.holds
    -- the only bracket is the first token
    rcases hwithin.reached.after h₀ with rfl | hstop
    · cases h₀.symm.trans hopen
      obtain ⟨_, rfl, hforms₁⟩ := hforms.after hunfinished (Cursor.readForm_of_atom h₁)
      obtain ⟨_, rfl, hforms₂⟩ := hforms₁.after hunfinished (Cursor.readForm_of_atom h₂)
      obtain ⟨_, rfl, hforms₃⟩ := hforms₂.after hunfinished (Cursor.readForm_of_atom h₃)
      cases hforms₃ with
      | nil => exact .inr ⟨[(.keyword ⟨"a"⟩, .int 1)], .keyword ⟨"b"⟩, rfl, by decide +kernel⟩
      | cons hform _ => cases (Cursor.readForm_of_next_error [] h₄).symm.trans hform
    · exfalso
      rcases hstop.after h₁ with rfl | hstop
      · cases h₁.symm.trans hopen
      rcases hstop.after h₂ with rfl | hstop
      · cases h₂.symm.trans hopen
      rcases hstop.after h₃ with rfl | hstop
      · cases h₃.symm.trans hopen
      cases hstop with
      | here => cases h₄.symm.trans hopen
      | later hnext _ => cases h₄.symm.trans hnext
  exact ⟨hread, rfl, hready, read_completable hread rfl hready⟩

end Value

end SmallLisp

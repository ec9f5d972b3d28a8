import SmallLisp.Proofs.Console.Chunks
import SmallLisp.Proofs.Reader.Passage

/-!
# Where a console goes on after a read error

A console that cannot read on skips the text up to the next newline and goes on behind it. `Cursor.Reaches` tells
at which cursor a console stands when it has performed some of the items of a buffer, so that every report of a
read error is one of its steps. Behind an error reading goes on at the first line start behind the place `stop`
where it ended (`firstLineStart_afterLine`). This is the first one at or behind `stop` unless `stop` is a line start
itself: then a whole line is skipped that was never read. Few faults end with a newline (`newline_of_readForm`).
Main statement: `feed_resumes_behind_line`.
-/

namespace SmallLisp

namespace Text

/-! ## Line starts -/

/-- An offset where a line begins: the first one, or one right behind a newline. -/
def LineStart (text : List Char) (p : Nat) : Prop :=
  p = 0 ∨ text[p - 1]? = some '\n'

instance (text : List Char) (p : Nat) : Decidable (LineStart text p) :=
  inferInstanceAs (Decidable (_ ∨ _))

/-- The first line start at or behind an offset, or the end of the text when there is none. -/
structure FirstLineStart (text : List Char) (start p : Nat) : Prop where
  start_le : start ≤ p
  le_length : p ≤ text.length
  lineStart : p = text.length ∨ LineStart text p
  least : ∀ q, start ≤ q → q < p → ¬LineStart text q

/-- The current line of a text is cut off with its newline, or all of the text if there is none. -/
theorem afterLine_cases (text : List Char) :
    (∃ line, '\n' ∉ line ∧ text = line ++ '\n' :: afterLine text) ∨ '\n' ∉ text ∧ afterLine text = [] := by
  induction text with
  | nil => exact .inr ⟨by simp, rfl⟩
  | cons c rest ih =>
    by_cases hc : c = '\n'
    · exact .inl ⟨[], by simp, by simp [afterLine, hc]⟩
    · have hafter : afterLine (c :: rest) = afterLine rest := by simp [afterLine, hc]
      rw [hafter]
      rcases ih with ⟨line, hline, hrest⟩ | ⟨hrest, hnil⟩
      · exact .inl ⟨c :: line, by simp [hline, Ne.symm hc], by rw [List.cons_append, ← hrest]⟩
      · exact .inr ⟨by simp [hrest, Ne.symm hc], hnil⟩

/-- No line starts inside a stretch without newlines, its first offset apart. -/
theorem not_lineStart_inside (before : List Char) {line : List Char} (rest : List Char) (hline : '\n' ∉ line)
    {q : Nat} (hlower : before.length < q) (hupper : q ≤ before.length + line.length) :
    ¬LineStart (before ++ line ++ rest) q := by
  rintro (rfl | hnewline)
  · exact absurd hlower (Nat.not_lt_zero _)
  · have hindex : q - 1 - before.length < line.length := by omega
    rw [List.append_assoc, List.getElem?_append_right (by omega), List.getElem?_append_left hindex] at hnewline
    exact hline (List.mem_of_getElem? hnewline)

/-- Cutting off the current line leads to the first line start behind the place where reading stopped. -/
theorem firstLineStart_afterLine (before rest : List Char) :
    ∃ next, afterLine rest = (before ++ rest).drop next ∧
      FirstLineStart (before ++ rest) (min (before.length + 1) (before ++ rest).length) next := by
  rcases afterLine_cases rest with ⟨line, hline, hrest⟩ | ⟨hrest, hnil⟩
  · generalize afterLine rest = tail at hrest
    subst hrest
    -- the line that is skipped ends with the newline behind which the next one starts
    have hsplit : before ++ (line ++ '\n' :: tail) = before ++ line ++ ['\n'] ++ tail := by simp
    have hlength : (before ++ line ++ ['\n']).length = before.length + line.length + 1 := by
      simp only [List.length_append, List.length_singleton]
    refine ⟨before.length + line.length + 1, ?_, ?_, ?_, .inr (.inr ?_), ?_⟩
    · rw [hsplit, List.drop_left' hlength]
    · omega
    · rw [hsplit, ← hlength]
      exact (List.prefix_append _ tail).length_le
    · rw [hsplit, Nat.add_sub_cancel, List.getElem?_append_left (by simp),
        List.getElem?_append_right (by simp)]
      simp
    · intro q hlower hupper
      rw [← List.append_assoc]
      exact not_lineStart_inside before _ hline (by simp at hlower; omega) (by omega)
  -- without a newline there is no next line, and the end of the text counts as its start
  · rw [hnil]
    refine ⟨(before ++ rest).length, (List.drop_length).symm, Nat.min_le_right _ _, Nat.le_refl _, .inl rfl, ?_⟩
    intro q hlower hupper
    rw [List.length_append] at hlower hupper
    have hinside := not_lineStart_inside before [] hrest (by omega) (by omega : q ≤ _)
    rwa [List.append_nil] at hinside

/-- The first line start behind an offset is the first one at or behind it, unless the offset is one itself. -/
theorem firstLineStart_iff {text : List Char} {stop next : Nat} (hstop : stop ≤ text.length)
    (h : FirstLineStart text (min (stop + 1) text.length) next) :
    FirstLineStart text stop next ↔ ¬(LineStart text stop ∧ stop < text.length) := by
  have hlower := h.start_le
  have hupper := h.le_length
  constructor
  · rintro hfirst ⟨hstart, hlt⟩
    exact hfirst.least stop (Nat.le_refl stop) (by omega) hstart
  · intro hother
    refine ⟨by omega, h.le_length, h.lineStart, ?_⟩
    intro q hq hlt
    by_cases heq : q = stop
    · rw [heq]
      exact fun hstart => hother ⟨hstart, by omega⟩
    · exact h.least q (by omega) hlt

end Text

/-! ## The last character that was read -/

namespace Token

open Text

/-- What is found when the last character of a token, or of what should be one, is a newline. -/
def EndsLine (outcome : Except ReadFault Token) : Prop :=
  outcome = .error (.unknownDispatch '\n') ∨ outcome = .error (.unsupportedEscape '\n') ∨
    outcome = .ok (.atom (.char '\n'))

/-- A run that follows a character ends with an ordinary one, or is empty. -/
theorem last_of_run (c : Char) (text : List Char) :
    ∃ front last, c :: text = front ++ last :: (splitRun text).2 ∧
      (last = '\n' → c = '\n' ∧ (splitRun text).1 = []) := by
  have happend := splitRun_append text
  rcases List.eq_nil_or_concat (splitRun text).1 with hnil | ⟨run, last, hrun⟩
  · rw [hnil, List.nil_append] at happend
    exact ⟨[], c, by rw [happend, List.nil_append], fun hc => ⟨hc, hnil⟩⟩
  · refine ⟨c :: run, last, ?_, ?_⟩
    · rw [hrun, List.concat_eq_append, List.append_assoc] at happend
      exact congrArg (c :: ·) happend.symm
    · rintro rfl
      have hordinary := ordinary_splitRun text '\n' (by rw [hrun]; simp)
      exact absurd hordinary (by decide)

/-- Quoted text ends with its quote, or with the letter of an escape that means nothing. -/
theorem last_of_scanQuoted (text : List Char) :
    (scanQuoted text).rest = [] ∨
      ∃ front last, text = front ++ last :: (scanQuoted text).rest ∧
        (last = '\n' → (scanQuoted text).outcome = .error (.unsupportedEscape '\n')) := by
  obtain ⟨part, s, stop, rfl, hpart, hstop⟩ := exists_quotedPart text
  rw [scanQuoted_part hpart]
  cases hstop with
  | nothing => exact .inl rfl
  | quote rest => exact .inr ⟨part, '"', rfl, fun h => absurd h (by decide)⟩
  | backslash => exact .inl rfl
  | letter hletter rest =>
    simp only [scanQuoted, hletter]
    refine .inr ⟨part ++ ['\\'], _, by simp; rfl, ?_⟩
    rintro rfl
    rfl

/-- What a token that is no layout ends with. Only a newline behind a dispatch mark or a backslash makes a newline
its last character. -/
theorem last_of_scan {c : Char} (hc : c ≠ '\n') (text : List Char) :
    (scan c text).rest = [] ∨
      ∃ front last, c :: text = front ++ last :: (scan c text).rest ∧
        (last = '\n' → EndsLine (scan c text).outcome) := by
  -- keywords, numbers and symbols are runs, and no run has a newline in it
  have hrun : (scanAfter c text).rest = (splitRun text).2 →
      ∃ front last, c :: text = front ++ last :: (scan c text).rest ∧
        (last = '\n' → EndsLine (scan c text).outcome) := by
    intro hrest
    obtain ⟨front, last, htext, hlast⟩ := last_of_run c text
    exact ⟨front, last, by rw [htext]; exact congrArg (front ++ last :: ·) hrest.symm,
      fun h => absurd (hlast h).1 hc⟩
  cases hlead : lead c text with
  | single token =>
    refine .inr ⟨[], c, ?_, fun h => absurd h hc⟩
    simp [scan, Scan.cons, scanAfter, hlead]
  | dispatch =>
    have hscan : scan c text = (scanDispatch text).cons c := by rw [scan, scanAfter, hlead]
    rw [hscan]
    unfold scanDispatch
    split
    -- nothing behind the mark, a set, or a character that means nothing, which may be the newline
    · exact .inl rfl
    · next rest => exact .inr ⟨[c], '\x7b', rfl, fun h => absurd h (by decide)⟩
    · next d rest _ =>
      refine .inr ⟨[c], d, rfl, ?_⟩
      rintro rfl
      exact .inl rfl
  | quote =>
    have hscan : scan c text =
        ((scanQuoted text).map fun s => .atom (.string (String.ofList s))).cons c := by
      rw [scan, scanAfter, hlead]
    rw [hscan]
    rcases last_of_scanQuoted text with hnil | ⟨front, last, htext, hlast⟩
    · exact .inl hnil
    · refine .inr ⟨c :: front, last, by rw [List.cons_append]; exact congrArg (c :: ·) htext, ?_⟩
      intro hnewline
      refine .inr (.inl ?_)
      simp [Scan.cons, Scan.map, hlast hnewline, Except.map]
  | backslash =>
    have hscan : scan c text = ((scanCharacter text).map .atom).cons c := by rw [scan, scanAfter, hlead]
    rw [hscan]
    cases text with
    | nil => exact .inl rfl
    | cons d rest =>
      obtain ⟨front, last, htext, hlast⟩ := last_of_run d rest
      refine .inr ⟨c :: front, last, congrArg (c :: ·) htext, ?_⟩
      intro hnewline
      -- the newline is the character that the backslash names
      obtain ⟨rfl, hnil⟩ := hlast hnewline
      refine .inr (.inr ?_)
      simp [Scan.cons, Scan.map, Scan.bind, scanCharacter, scanRun, hnil, Except.map, Except.bind]
      rfl
  | colon => exact .inr (hrun (by rw [scanAfter, hlead]; rfl))
  | number => exact .inr (hrun (by rw [scanAfter, hlead]; rfl))
  | symbol => exact .inr (hrun (by rw [scanAfter, hlead]; rfl))

end Token

namespace Progress

/-- An atom is refused only as the value of a key that is there already. -/
theorem fault_of_step_atom {stack : List Frame} {a : Atom} {place : Text.Location} {e : ReadError}
    (h : step stack (.atom a) place = .error e) : ∃ key, e.fault = .duplicateKey key := by
  cases stack with
  | nil => cases h
  | cons frame outer =>
    simp only [step, deliver] at h
    split at h
    · cases h
    · next hadd =>
      cases h
      unfold Frame.add at hadd
      split at hadd
      case h_5 =>
        split at hadd
        · cases hadd
          exact ⟨_, rfl⟩
        · cases hadd
      all_goals cases hadd

end Progress

/-- The faults that may be found by reading a newline. -/
def ReadFault.EndsLine (fault : ReadFault) : Prop :=
  fault = .unknownDispatch '\n' ∨ fault = .unsupportedEscape '\n' ∨ ∃ key, fault = .duplicateKey key

namespace Cursor

/-- What a token ends with that stands behind layout. -/
theorem last_of_skipLayout {c : Cursor} {first : Char} {others : List Char}
    (h : c.skipLayout.rest = first :: others) :
    (Token.scan first others).rest = [] ∨
      ∃ front last, c.rest = front ++ last :: (Token.scan first others).rest ∧
        (last = '\n' → Token.EndsLine (Token.scan first others).outcome) := by
  have hfirst : first ≠ '\n' := by
    rintro rfl
    have hsolid : Text.Solid c.skipLayout.rest := Text.solid_splitLayout false c.rest
    exact absurd (hsolid '\n' (by rw [h]; rfl)).1 (by decide)
  obtain ⟨layout, hlayout, -⟩ := c.leads_skipLayout
  rcases Token.last_of_scan hfirst others with hnil | ⟨front, last, htext, hlast⟩
  · exact .inl hnil
  · exact .inr ⟨layout ++ front, last, by rw [hlayout, h, htext, List.append_assoc], hlast⟩

/-- Where reading a form fails with text left, the last character it read is a newline for few faults only. -/
theorem newline_of_readForm {stack : List Frame} {c stopped : Cursor} {e : ReadError}
    (h : c.readForm stack = (.error e, stopped)) :
    stopped.rest = [] ∨
      ∃ front last, c.rest = front ++ last :: stopped.rest ∧ (last = '\n' → e.fault.EndsLine) := by
  fun_induction readForm stack c with
  | case1 stack c e' after hnext =>
    cases h
    obtain ⟨first, others, hrest, hscan, -, hafter⟩ := scan_of_next_error hnext
    rw [hafter]
    refine (last_of_skipLayout hrest).imp_right ?_
    rintro ⟨front, last, htext, hlast⟩
    refine ⟨front, last, htext, fun hnewline => ?_⟩
    rw [hscan] at hlast
    rcases hlast hnewline with hfault | hfault | hfault
    · exact .inl (Except.error.inj hfault)
    · exact .inr (.inl (Except.error.inj hfault))
    · cases hfault
  -- at the end of the text nothing is left
  | case2 stack c after hnext =>
    obtain ⟨hrest, hafter⟩ := rest_of_next_none hnext
    obtain ⟨-, rfl⟩ := Prod.mk.inj h
    exact .inl (by rw [hafter, hrest])
  | case3 stack c token after hnext e' hstep =>
    cases h
    obtain ⟨first, others, hrest, hscan, hafter, -⟩ := scan_of_next hnext
    rw [hafter]
    refine (last_of_skipLayout hrest).imp_right ?_
    rintro ⟨front, last, htext, hlast⟩
    refine ⟨front, last, htext, fun hnewline => ?_⟩
    rw [hscan] at hlast
    -- a token that was taken ends with the newline only if it is the character of that name
    rcases hlast hnewline with hfault | hfault | hfault <;> cases hfault
    exact .inr (.inr (Progress.fault_of_step_atom hstep))
  | case4 stack c token after hnext form hstep => cases h
  | case5 stack c token after hnext inner hstep ih =>
    -- the tokens before are in front of what the induction speaks of
    obtain ⟨passed, hpassed, -⟩ := leads_of_next hnext
    refine (ih h).imp_right ?_
    rintro ⟨front, last, htext, hlast⟩
    exact ⟨passed ++ front, last, by rw [hpassed, htext, List.append_assoc], hlast⟩

/-! ## Where a console stands -/

/-- A console that performs the items of a buffer stands at a cursor after some of them. -/
inductive Reaches (buffer : List Char) (atEnd : Bool) : List Item → Cursor → Prop where
  | start : Reaches buffer atEnd [] (ofList buffer)
  | form {items : List Item} {c after : Cursor} {v : Value} (h : Reaches buffer atEnd items c)
      (hread : c.read = (.ok (some v), after)) : Reaches buffer atEnd (items ++ [.form v]) after
  | refused {items : List Item} {c after : Cursor} {e : ReadError} (h : Reaches buffer atEnd items c)
      (hread : c.read = (.error e, after)) (hreport : (e.isIncomplete && !atEnd) = false) :
      Reaches buffer atEnd (items ++ [.refused e]) (ofList (Text.afterLine after.rest))

variable {buffer : List Char} {atEnd : Bool} {items : List Item} {c : Cursor}

/-- The unread text is the end of the buffer. -/
theorem Reaches.exists_append (h : Reaches buffer atEnd items c) : ∃ before, buffer = before ++ c.rest := by
  induction h with
  | start => exact ⟨[], rfl⟩
  | @form items c after v h hread ih =>
    obtain ⟨before, hbefore⟩ := ih
    obtain ⟨passed, hpassed, -⟩ := c.leads_read
    rw [hread] at hpassed
    exact ⟨before ++ passed, by rw [hbefore, hpassed, List.append_assoc]⟩
  | @refused items c after e h hread hreport ih =>
    obtain ⟨before, hbefore⟩ := ih
    obtain ⟨passed, hpassed, -⟩ := c.leads_read
    rw [hread] at hpassed
    obtain ⟨line, hline⟩ := Text.exists_append_afterLine after.rest
    refine ⟨before ++ passed ++ line, ?_⟩
    rw [hbefore, hpassed, List.append_assoc, List.append_assoc]
    exact congrArg (fun rest => before ++ (passed ++ rest)) hline

/-- What is left to perform are the items of the unread text. -/
theorem Reaches.items_eq (h : Reaches buffer atEnd items c) :
    (ofList buffer).items atEnd = (items ++ (c.items atEnd).1, (c.items atEnd).2) := by
  induction h with
  | start => rfl
  | form h hread ih => rw [ih, items_of_read_some atEnd hread, List.append_assoc]; rfl
  | refused h hread hreport ih => rw [ih, items_of_read_error hread hreport, List.append_assoc]; rfl

theorem read_of_items_form {v : Value} {rest : List Item} (h : (c.items atEnd).1 = .form v :: rest) :
    ∃ after, c.read = (.ok (some v), after) ∧ (after.items atEnd).1 = rest := by
  match hread : c.read with
  | (.ok none, after) =>
    rw [items_of_read_none atEnd hread] at h
    cases h
  | (.ok (some form), after) =>
    rw [items_of_read_some atEnd hread] at h
    obtain ⟨hform, hrest⟩ := List.cons.inj h
    exact ⟨after, by rw [Item.form.inj hform], hrest⟩
  | (.error e, after) =>
    cases hreport : e.isIncomplete && !atEnd with
    | true =>
      rw [items_of_read_open hread hreport] at h
      cases h
    | false =>
      rw [items_of_read_error hread hreport] at h
      cases h

theorem read_of_items_refused {e : ReadError} {rest : List Item}
    (h : (c.items atEnd).1 = .refused e :: rest) :
    ∃ after, c.read = (.error e, after) ∧ (e.isIncomplete && !atEnd) = false ∧
      ((ofList (Text.afterLine after.rest)).items atEnd).1 = rest := by
  match hread : c.read with
  | (.ok none, after) =>
    rw [items_of_read_none atEnd hread] at h
    cases h
  | (.ok (some form), after) =>
    rw [items_of_read_some atEnd hread] at h
    cases h
  | (.error e', after) =>
    cases hreport : e'.isIncomplete && !atEnd with
    | true =>
      rw [items_of_read_open hread hreport] at h
      cases h
    | false =>
      rw [items_of_read_error hread hreport] at h
      obtain ⟨herror, hrest⟩ := List.cons.inj h
      obtain rfl := Item.refused.inj herror
      exact ⟨after, rfl, hreport, hrest⟩

/-- Every item that a console performs is read where it stands. -/
theorem exists_reaches {before rest : List Item} (h : ((ofList buffer).items atEnd).1 = before ++ rest) :
    ∃ c, Reaches buffer atEnd before c ∧ (c.items atEnd).1 = rest := by
  induction before using List.reverseRecOn generalizing rest with
  | nil => exact ⟨ofList buffer, .start, h⟩
  | append_singleton before item ih =>
    rw [List.append_assoc] at h
    obtain ⟨c, hreaches, hitems⟩ := ih h
    cases item with
    | form v =>
      obtain ⟨after, hread, hrest⟩ := read_of_items_form hitems
      exact ⟨after, hreaches.form hread, hrest⟩
    | refused e =>
      obtain ⟨after, hread, hreport, hrest⟩ := read_of_items_refused hitems
      exact ⟨_, hreaches.refused hread hreport, hrest⟩

end Cursor

namespace Console

/-- Feeding a buffer goes on from wherever the console stands. -/
theorem feed_of_reaches {buffer : List Char} {atEnd : Bool} {items : List Item} {cursor : Cursor}
    (h : Cursor.Reaches buffer atEnd items cursor) (c : Console) :
    c.feed buffer atEnd = (c.performAll items).1.feedFrom cursor atEnd (c.performAll items).2 := by
  rw [feed_eq_settle, feedFrom_eq_settle, h.items_eq]
  simp only [settle, performAll_append]

open Text (LineStart FirstLineStart)

/-- After every read error that it reports, a console goes on at the first line start behind the offset `stop` where
reading ended, or at the end of the buffer. This is the first line start at or behind `stop` exactly when the last
character that was read is no newline or nothing follows it, which holds for all but three kinds of faults. -/
theorem feed_resumes_behind_line (c : Console) {buffer : List Char} {atEnd : Bool} {before later : List Item}
    {e : ReadError} (h : ((Cursor.ofList buffer).items atEnd).1 = before ++ .refused e :: later) :
    c.feed buffer atEnd =
        c.settle (before ++ .refused e :: later) ((Cursor.ofList buffer).items atEnd).2 ∧
      ∃ cursor stopped stop next,
        Cursor.Reaches buffer atEnd before cursor ∧ cursor.read = (.error e, stopped) ∧
        stop ≤ buffer.length ∧ stopped.rest = buffer.drop stop ∧
        c.feed buffer atEnd =
          (c.performAll (before ++ [.refused e])).1.feedFrom (Cursor.ofList (buffer.drop next)) atEnd
            (c.performAll (before ++ [.refused e])).2 ∧
        FirstLineStart buffer (min (stop + 1) buffer.length) next ∧
        (FirstLineStart buffer stop next ↔ ¬(LineStart buffer stop ∧ stop < buffer.length)) ∧
        (LineStart buffer stop ∧ stop < buffer.length → e.fault.EndsLine) := by
  refine ⟨by rw [feed_eq_settle, h], ?_⟩
  obtain ⟨cursor, hreaches, hitems⟩ := Cursor.exists_reaches h
  obtain ⟨stopped, hread, hreport, -⟩ := Cursor.read_of_items_refused hitems
  obtain ⟨front, hfront⟩ := hreaches.exists_append
  obtain ⟨passed, hpassed, -⟩ := cursor.leads_read
  rw [hread] at hpassed
  have hbuffer : buffer = front ++ passed ++ stopped.rest := by
    rw [hfront, hpassed, List.append_assoc]
  obtain ⟨next, hnext, hfirst⟩ := Text.firstLineStart_afterLine (front ++ passed) stopped.rest
  rw [← hbuffer] at hnext hfirst
  have hstop : (front ++ passed).length ≤ buffer.length := by
    rw [hbuffer]
    exact (List.prefix_append (front ++ passed) stopped.rest).length_le
  refine ⟨cursor, stopped, (front ++ passed).length, next, hreaches, hread, hstop, ?_, ?_, hfirst,
    Text.firstLineStart_iff hstop hfirst, ?_⟩
  · rw [hbuffer, List.drop_left]
  · rw [← hnext]
    exact feed_of_reaches (hreaches.refused hread hreport) c
  · rintro ⟨hstart, hlt⟩
    rcases Cursor.newline_of_readForm (Cursor.readForm_of_read_error hread) with hnil | ⟨part, last, hpart, hlast⟩
    · rw [hbuffer, hnil, List.append_nil] at hlt
      exact absurd hlt (Nat.lt_irrefl _)
    · -- the character before `stop` is the last one that was read
      apply hlast
      obtain rfl : passed = part ++ [last] := by
        have hsplit : passed ++ stopped.rest = (part ++ [last]) ++ stopped.rest := by
          rw [← hpassed, hpart, List.append_assoc]
          rfl
        exact List.append_cancel_right hsplit
      rcases hstart with hzero | hnewline
      · simp at hzero
      · rw [hbuffer] at hnewline
        simpa [List.getElem?_append] using hnewline

/-- A stray bracket: the rest of its line is skipped, and the next line is read. -/
theorem feed_resumes_behind_line_stray_bracket :
    let c : Console := { session := Session.standard, echo := true }
    let buffer := ") 1\n2\n".toList
    let e : ReadError := ⟨.unmatchedDelimiter ')', ⟨1, 1⟩⟩
    ∃ later, ((Cursor.ofList buffer).items true).1 = [] ++ .refused e :: later ∧
      ∃ stop next, FirstLineStart buffer stop next ∧
        c.feed buffer true =
          { c with errors := 1 }.feedFrom (Cursor.ofList (buffer.drop next)) true #[.reported (.read e)] := by
  intro c buffer e
  have hread : (Cursor.ofList buffer).read.1 = .error e :=
    error_of_map (by decide +kernel : (Cursor.ofList buffer).read.1.map (fun _ => ()) = .error e)
  have hitems : ((Cursor.ofList buffer).items true).1 = [] ++ .refused e :: _ :=
    congrArg Prod.fst (Cursor.items_of_read_error (Prod.ext hread rfl) rfl)
  refine ⟨_, hitems, ?_⟩
  obtain ⟨-, cursor, stopped, stop, next, -, -, -, -, hfeed, -, hiff, hfault⟩ := feed_resumes_behind_line c hitems
  refine ⟨stop, next, hiff.2 fun hstart => ?_, hfeed⟩
  rcases hfault hstart with hdispatch | hescape | ⟨key, hkey⟩
  · cases hdispatch
  · cases hescape
  · cases hkey

/-- A newline behind a dispatch mark: the line behind it is skipped though reading stopped at its start. -/
theorem feed_skips_unread_line :
    let c : Console := { session := Session.standard, echo := true }
    let buffer := "#\n1\n2\n".toList
    let e : ReadError := ⟨.unknownDispatch '\n', ⟨1, 1⟩⟩
    (Cursor.ofList buffer).read.1 = .error e ∧ (Cursor.ofList buffer).read.2.rest = buffer.drop 2 ∧
      FirstLineStart buffer 2 2 ∧ ¬FirstLineStart buffer 2 4 ∧
      c.feed buffer true =
        { c with errors := 1 }.feedFrom (Cursor.ofList (buffer.drop 4)) true #[.reported (.read e)] ∧
      (c.feed buffer true).transcript.text =
        "Error: No dispatch macro for: #\n (line 1, column 1)\n2\n" := by
  intro c buffer e
  have hread : (Cursor.ofList buffer).read.1 = .error e :=
    error_of_map (by decide +kernel : (Cursor.ofList buffer).read.1.map (fun _ => ()) = .error e)
  have hrest : (Cursor.ofList buffer).read.2.rest = buffer.drop 2 := by decide +kernel
  have hfirst : FirstLineStart buffer 2 2 :=
    ⟨Nat.le_refl 2, by decide, .inr (by decide), fun q hlower hupper => absurd hupper (by omega)⟩
  have hfeed : c.feed buffer true =
      { c with errors := 1 }.feedFrom (Cursor.ofList (buffer.drop 4)) true #[.reported (.read e)] := by
    have hreaches : Cursor.Reaches buffer true ([] ++ [.refused e])
        (Cursor.ofList (Text.afterLine (Cursor.ofList buffer).read.2.rest)) :=
      .refused .start (Prod.ext hread rfl) rfl
    rw [hrest] at hreaches
    exact feed_of_reaches hreaches c
  refine ⟨hread, hrest, hfirst, ?_, hfeed, by decide +kernel⟩
  intro hother
  exact hother.least 2 (Nat.le_refl 2) (by decide) (by decide)

end Console

end SmallLisp

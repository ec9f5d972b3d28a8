import SmallLisp.Proofs.Reader.Passage

/-!
# Texts joined by a newline

A newline ends a token, a comment and the rest of a line just as the end of a text does. So behind a text that
reads as whole forms, and a newline, reading starts afresh on a new line (`readAll_extend_newline`). There it
finds what it finds at the beginning of a text, with every location lower by the lines above
(`readAll_lower`). Main statement: `readAll_joined`.
-/

namespace SmallLisp

open Text (Location Position)

/-! ## Reading below other lines -/

/-- The same error, some lines further down. -/
def ReadError.lower (lines : Nat) (e : ReadError) : ReadError :=
  ⟨e.fault, e.location.lower lines⟩

def Partial.lower (lines : Nat) : Partial → Partial
  | .map entries (some (key, start)) => .map entries (some (key, start.lower lines))
  | content => content

/-- The same open collection, some lines further down. -/
def Frame.lower (lines : Nat) (f : Frame) : Frame :=
  ⟨f.opened.lower lines, f.content.lower lines⟩

def Progress.lower (lines : Nat) : Progress → Progress
  | .done form => .done form
  | .reading stack => .reading (stack.map (Frame.lower lines))

namespace Frame

variable (lines : Nat) (f : Frame)

theorem shape_lower : (f.lower lines).shape = f.shape := by
  obtain ⟨opened, content⟩ := f
  cases content with
  | map entries pending => cases pending <;> rfl
  | _ => rfl

/-- A collection further down takes a value like the one further up. -/
theorem add_lower (v : Value) (start : Location) :
    (f.lower lines).add v (start.lower lines) =
      ((f.add v start).map (Frame.lower lines)).mapError (ReadError.lower lines) := by
  obtain ⟨opened, content⟩ := f
  cases content with
  | map entries pending =>
    cases pending with
    | none => rfl
    | some waiting =>
      simp only [add, lower, Partial.lower]
      split <;> rfl
  | _ => rfl

/-- A collection further down is closed like the one further up. -/
theorem finish_lower (place : Location) :
    (f.lower lines).finish (place.lower lines) = (f.finish place).mapError (ReadError.lower lines) := by
  obtain ⟨opened, content⟩ := f
  cases content with
  | map entries pending => cases pending <;> rfl
  | _ => rfl

end Frame

namespace Progress

variable (lines : Nat) (stack : List Frame)

/-- A form goes into the innermost collection alike further down. -/
theorem deliver_lower (v : Value) (start : Location) :
    deliver v (start.lower lines) (stack.map (Frame.lower lines)) =
      ((deliver v start stack).map (lower lines)).mapError (ReadError.lower lines) := by
  cases stack with
  | nil => rfl
  | cons frame outer =>
    simp only [List.map_cons, deliver, Frame.add_lower]
    cases frame.add v start <;> rfl

/-- A closing bracket closes or is refused alike further down. -/
theorem close_lower (closer : Closer) (place : Location) :
    close closer (place.lower lines) (stack.map (Frame.lower lines)) =
      ((close closer place stack).map (lower lines)).mapError (ReadError.lower lines) := by
  cases stack with
  | nil => rfl
  | cons frame outer =>
    simp only [List.map_cons, close, Frame.shape_lower, Frame.finish_lower]
    split
    · cases frame.finish place with
      | error e => rfl
      | ok v => exact deliver_lower lines outer v frame.opened
    · rfl

/-- A token makes the same of open collections that stand some lines further down. -/
theorem step_lower (token : Token) (place : Location) :
    step (stack.map (Frame.lower lines)) token (place.lower lines) =
      ((step stack token place).map (lower lines)).mapError (ReadError.lower lines) := by
  cases token with
  | opening shape => cases shape <;> rfl
  | closing closer => exact close_lower lines stack closer place
  | atom a => exact deliver_lower lines stack a.toValue place

/-- The end of the text is refused alike further down. -/
theorem finish_lower :
    finish (stack.map (Frame.lower lines)) = (finish stack).mapError (ReadError.lower lines) := by
  cases stack with
  | nil => rfl
  | cons frame outer =>
    simp only [List.map_cons, finish, Frame.shape_lower]
    rfl

end Progress

namespace Cursor

/-- The same unread text, some lines and bytes further down. -/
def lower (lines bytes : Nat) (c : Cursor) : Cursor :=
  ⟨c.rest, c.position.lower lines bytes, c.tokenStart.lower lines⟩

variable (lines bytes : Nat)

theorem skipLayout_lower (c : Cursor) :
    (c.lower lines bytes).skipLayout = c.skipLayout.lower lines bytes := by
  simp only [skipLayout, lower, Position.advance_lower]
  rfl

/-- A token is the same further down, and an error is reported further down. -/
theorem takeToken_lower (c : Cursor) :
    (c.lower lines bytes).takeToken =
      (c.takeToken.1.mapError (ReadError.lower lines), c.takeToken.2.lower lines bytes) := by
  obtain ⟨rest, position, tokenStart⟩ := c
  cases rest with
  | nil => rfl
  | cons first others =>
    simp only [takeToken, lower, Position.advance_lower]
    cases (Token.scan first others).outcome <;> rfl

theorem next_lower {c after : Cursor} {result : Except ReadError (Option Token)}
    (h : c.next = (result, after)) :
    (c.lower lines bytes).next = (result.mapError (ReadError.lower lines), after.lower lines bytes) := by
  rw [next, skipLayout_lower, takeToken_lower, ← next, h]

/-- A form is read below other lines as it is read above. -/
theorem readForm_lower (stack : List Frame) (c : Cursor) :
    (c.lower lines bytes).readForm (stack.map (Frame.lower lines)) =
      ((c.readForm stack).1.mapError (ReadError.lower lines), (c.readForm stack).2.lower lines bytes) := by
  fun_induction readForm stack c with
  | case1 stack c e after hnext => exact readForm_of_next_error _ (next_lower lines bytes hnext)
  | case2 stack c after hnext =>
    rw [readForm_of_next_none _ (next_lower lines bytes hnext), Progress.finish_lower]
  | case3 stack c token after hnext e hstep =>
    have hlower := Progress.step_lower lines stack token after.tokenStart
    rw [hstep] at hlower
    rw [readForm_of_next_some _ (next_lower lines bytes hnext)]
    simp only [lower, hlower]
    rfl
  | case4 stack c token after hnext form hstep =>
    have hlower := Progress.step_lower lines stack token after.tokenStart
    rw [hstep] at hlower
    rw [readForm_of_next_some _ (next_lower lines bytes hnext)]
    simp only [lower, hlower]
    rfl
  | case5 stack c token after hnext inner hstep ih =>
    have hlower := Progress.step_lower lines stack token after.tokenStart
    rw [hstep] at hlower
    rw [readForm_of_next_some _ (next_lower lines bytes hnext), ← ih]
    simp only [lower, hlower]
    rfl

theorem skipTrailer_lower (c : Cursor) :
    (c.lower lines bytes).skipTrailer = c.skipTrailer.lower lines bytes := by
  simp only [skipTrailer, lower, Position.advance_lower]

/-- One form is read alike further down. -/
theorem read_lower (c : Cursor) :
    (c.lower lines bytes).read =
      (c.read.1.mapError (ReadError.lower lines), c.read.2.lower lines bytes) := by
  have hform := c.readForm_lower lines bytes []
  rw [List.map_nil] at hform
  unfold read
  rw [hform]
  rcases c.readForm [] with ⟨result, after⟩
  match result with
  | .error e => rfl
  | .ok none => rfl
  | .ok (some form) => simp only [Except.mapError, skipTrailer_lower]

/-- Below other lines the same forms are read, or the same error, lower by these lines. -/
theorem readAll_lower (c : Cursor) :
    (c.lower lines bytes).readAll = c.readAll.mapError (ReadError.lower lines) := by
  fun_induction readAll c with
  | case1 c e after hread =>
    have hlower := c.read_lower lines bytes
    rw [hread] at hlower
    exact readAll_of_read_error hlower
  | case2 c after hread =>
    have hlower := c.read_lower lines bytes
    rw [hread] at hlower
    exact readAll_of_read_none hlower
  | case3 c form after hread ih =>
    have hlower := c.read_lower lines bytes
    rw [hread] at hlower
    rw [readAll_of_read_some hlower, ih]
    cases after.readAll <;> rfl

end Cursor

/-! ## Behind a newline -/

namespace Text

/-- A newline ends the rest of a line as the end of the text does. -/
theorem splitTrailer_append_newline (inComment : Bool) (text more : List Char) :
    splitTrailer inComment (text ++ '\n' :: more) =
      ((splitTrailer inComment text).1, (splitTrailer inComment text).2 ++ '\n' :: more) := by
  induction text generalizing inComment with
  | nil => rfl
  | cons c rest ih =>
    simp only [List.cons_append, splitTrailer]
    split
    · rfl
    · split
      · rw [ih]
      · split
        · rw [ih]
        · rfl

/-- A newline ends a comment, so layout that reaches the end of a text goes on behind the newline. -/
theorem splitLayout_append_newline {inComment : Bool} {text : List Char}
    (h : (splitLayout inComment text).2 = []) (more : List Char) :
    splitLayout inComment (text ++ '\n' :: more) =
      (text ++ '\n' :: (splitLayout false more).1, (splitLayout false more).2) := by
  induction text generalizing inComment with
  | nil => cases inComment <;> rfl
  | cons c rest ih =>
    simp only [List.cons_append, splitLayout] at h ⊢
    by_cases hin : inComment = true
    · rw [if_pos hin] at h ⊢
      rw [ih h]
    · rw [if_neg hin] at h ⊢
      by_cases hblank : isBlank c = true
      · rw [if_pos hblank] at h ⊢
        rw [ih h]
      · rw [if_neg hblank] at h ⊢
        by_cases hcomment : (c == ';') = true
        · rw [if_pos hcomment] at h ⊢
          rw [ih h]
        · rw [if_neg hcomment] at h
          cases h

end Text

namespace Cursor

/-- The cursor on a new line behind the unread text, with the given text before it. -/
def newLine (c : Cursor) (text : List Char) : Cursor :=
  let position := c.position.advance (c.rest ++ ['\n'])
  ⟨text, position, position.location⟩

/-- However far the text was read, the new line is the same. -/
theorem newLine_of_leads {c d : Cursor} (h : Leads c d) (text : List Char) : d.newLine text = c.newLine text := by
  obtain ⟨passed, hrest, hposition⟩ := h
  simp only [newLine, hrest, hposition, Position.advance_append]

/-- Layout that reaches the end of the text goes on behind the newline. -/
theorem skipLayout_extend_newline {c : Cursor} (h : c.skipLayout.rest = []) (more : List Char) :
    (c.extend ('\n' :: more)).skipLayout = (c.newLine more).skipLayout := by
  have hsplit := Text.splitLayout_append_newline h more
  have hposition : c.position.advance (c.rest ++ '\n' :: (Text.splitLayout false more).1) =
      (c.position.advance (c.rest ++ ['\n'])).advance (Text.splitLayout false more).1 := by
    rw [← Position.advance_append, List.append_assoc, List.singleton_append]
  simp only [skipLayout, extend, newLine, hsplit, hposition]

/-- A form of a text is the same when a line follows the text. -/
theorem read_extend_newline {c after : Cursor} {form : Value} (h : c.read = (.ok (some form), after))
    (more : List Char) :
    (c.extend ('\n' :: more)).read = (.ok (some form), after.extend ('\n' :: more)) := by
  obtain ⟨last, hform, rfl⟩ := exists_readForm_of_read_some h
  have hextend := readForm_extend_of_form hform ('\n' :: more)
    fun _ => Text.terminated_cons (by decide) more
  rw [read, hextend]
  simp only [skipTrailer, extend, Text.splitTrailer_append_newline]

/-- The first read of a text tells all of them. -/
theorem readAll_eq_of_read_eq {c d : Cursor} (h : c.read = d.read) : c.readAll = d.readAll := by
  rcases hread : d.read with ⟨result, after⟩
  rw [hread] at h
  match result with
  | .error e => rw [readAll_of_read_error h, readAll_of_read_error hread]
  | .ok none => rw [readAll_of_read_none h, readAll_of_read_none hread]
  | .ok (some form) => rw [readAll_of_read_some h, readAll_of_read_some hread]

/-- Behind a text of whole forms and a newline, reading starts afresh. -/
theorem readAll_extend_newline {c : Cursor} {forms : List Value} (h : c.readAll = .ok forms)
    (more : List Char) :
    (c.extend ('\n' :: more)).readAll = (c.newLine more).readAll.map (forms ++ ·) := by
  fun_induction readAll c generalizing forms with
  | case1 c e after hread => cases h
  | case2 c after hread =>
    cases h
    -- only layout is left, and the newline ends it, a comment included
    have hlayout : c.skipLayout.rest = [] := skipLayout_rest_of_read_none (by rw [hread])
    have hsame : (c.extend ('\n' :: more)).read = (c.newLine more).read := by
      rw [← read_skipLayout, skipLayout_extend_newline hlayout, read_skipLayout]
    rw [readAll_eq_of_read_eq hsame]
    cases (c.newLine more).readAll <;> rfl
  | case3 c form after hread ih =>
    cases hafter : after.readAll with
    | error e =>
      rw [hafter] at h
      cases h
    | ok others =>
      rw [hafter] at h
      cases h
      have hleads := c.leads_read
      rw [hread] at hleads
      rw [readAll_of_read_some (read_extend_newline hread more), ih hafter, newLine_of_leads hleads]
      cases (c.newLine more).readAll <;> rfl

/-- A line behind a whole text begins like a text, lower by the lines of that text. -/
theorem newLine_ofList (first second : List Char) :
    (ofList first).newLine second = (ofList second).lower (1 + first.count '\n')
      (Position.start.advance (first ++ ['\n'])).offset := by
  have hposition := Position.advance_newline first
  generalize (Position.start.advance (first ++ ['\n'])).offset = bytes at hposition ⊢
  simp only [newLine, ofList, lower, hposition]
  rfl

end Cursor

namespace Value

/-- Reading distributes over joining texts by a newline. Behind a text that reads as some forms, a second text
adds its own forms, or fails with its own fault, in its own column, and lower by the lines of the first. -/
theorem readAll_joined {first : String} {forms : List Value} (h : readAll first = .ok forms)
    (second : String) :
    (∀ others, readAll second = .ok others →
      readAll (first ++ "\n" ++ second) = .ok (forms ++ others)) ∧
    ∀ e, readAll second = .error e →
      readAll (first ++ "\n" ++ second) =
        .error ⟨e.fault, ⟨e.location.line + (1 + first.toList.count '\n'), e.location.column⟩⟩ := by
  have hjoined : readAll (first ++ "\n" ++ second) =
      ((readAll second).mapError (ReadError.lower (1 + first.toList.count '\n'))).map (forms ++ ·) := by
    have htext : (first ++ "\n" ++ second).toList = first.toList ++ '\n' :: second.toList := by
      simp
    have hfirst : (Cursor.ofList first.toList).readAll = .ok forms := h
    rw [readAll, Cursor.ofString, htext, ← Cursor.extend_ofList, Cursor.readAll_extend_newline hfirst,
      Cursor.newLine_ofList, Cursor.readAll_lower]
    rfl
  constructor
  · intro others hothers
    rw [hjoined, hothers]
    rfl
  · intro e he
    rw [hjoined, he]
    rfl

/-- The first text ends in a comment that is open, the second one in a stray bracket on its second line. -/
theorem readAll_joined_open_comment :
    let first := "\\a\n:k ; \""
    let second := "b\n )"
    let forms : List Value := [.char 'a', .keyword ⟨"k"⟩]
    readAll first = .ok forms ∧ readAll second = .error ⟨.unmatchedDelimiter ')', ⟨2, 2⟩⟩ ∧
      readAll (first ++ "\n" ++ second) = .error ⟨.unmatchedDelimiter ')', ⟨4, 2⟩⟩ := by
  intro first second forms
  have htokens : (Cursor.ofString first).tokens.1 = .ok [.atom (.char 'a'), .atom (.keyword "k")] := by
    decide +kernel
  have hfirst : readAll first = .ok forms :=
    Cursor.readAll_of_writesAll htokens (.cons (.cons .nil (.atom (.keyword "k"))) (.atom (.char 'a')))
  have hsecond : readAll second = .error ⟨.unmatchedDelimiter ')', ⟨2, 2⟩⟩ :=
    error_of_map (by decide +kernel : (readAll second).map (fun _ => ()) = _)
  have hlines : first.toList.count '\n' = 1 := by decide
  have hjoined := (readAll_joined hfirst second).2 _ hsecond
  rw [hlines] at hjoined
  exact ⟨hfirst, hsecond, hjoined⟩

end Value

end SmallLisp

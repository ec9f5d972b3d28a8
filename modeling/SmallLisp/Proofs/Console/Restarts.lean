import SmallLisp.Proofs.Console.Recovery
import SmallLisp.Proofs.Reader.Progress

/-!
# A console comes to the end of its buffer

A console finds its way by byte offsets: where the cursor began, where reading stopped, and where the next newline is.
`Text.fromByte?` is the text from an offset on, which there is only on a boundary between characters, and `feedRound` is
one round of feeding that goes by such offsets. Whatever a cursor reads, the offsets are those of the text before it
(`Cursor.BeganBehind`), so no round asks for a text that is not there, and a round that starts anew does so further on
(`feedRound_cases`). Hence the rounds end, with the result of feeding the buffer (`feed_stops`). Main statement:
`read_and_feed_end`.
-/

namespace SmallLisp

namespace Text

/-! ## Byte offsets -/

/-- The text from a byte offset on, if a character begins there or the text ends there. -/
def fromByte? : List Char → Nat → Option (List Char)
  | text, 0 => some text
  | [], _ + 1 => none
  | c :: rest, n + 1 => if c.utf8Size ≤ n + 1 then fromByte? rest (n + 1 - c.utf8Size) else none

/-- The byte offset of the first newline. -/
def newlineByte? : List Char → Option Nat
  | [] => none
  | c :: rest => if c == '\n' then some 0 else (newlineByte? rest).map (c.utf8Size + ·)

/-- The byte offset where reading goes on when it stopped at a given one: behind the next newline, or at the end. -/
def resumeByte? (buffer : List Char) (stop : Nat) : Option Nat :=
  (fromByte? buffer stop).map fun rest =>
    match newlineByte? rest with
    | some i => stop + i + 1
    | none => byteSize buffer

/-- From the byte behind a part of the text on stands what follows the part. -/
theorem fromByte?_append (before rest : List Char) : fromByte? (before ++ rest) (byteSize before) = some rest := by
  induction before with
  | nil => cases rest <;> rfl
  | cons c before ih =>
    have hpos := c.utf8Size_pos
    obtain ⟨n, hn⟩ : ∃ n, byteSize (c :: before) = n + 1 :=
      Nat.exists_eq_add_one_of_ne_zero (Nat.ne_of_gt (byteSize_pos (List.cons_ne_nil c before)))
    have hsize := byteSize_cons c before
    rw [hn] at hsize ⊢
    rw [List.cons_append, fromByte?, if_pos (by omega), show n + 1 - c.utf8Size = byteSize before by omega, ih]

example : fromByte? "aéb".toList 1 = some "éb".toList ∧ fromByte? "aéb".toList 2 = none := by decide

theorem newlineByte?_line {line : List Char} (h : '\n' ∉ line) (rest : List Char) :
    newlineByte? (line ++ '\n' :: rest) = some (byteSize line) := by
  induction line with
  | nil => rfl
  | cons c line ih =>
    obtain ⟨hc, hline⟩ := not_or.1 (fun hmem => h (List.mem_cons.2 hmem))
    simp [newlineByte?, Ne.symm hc, ih hline, byteSize_cons]

theorem newlineByte?_eq_none {text : List Char} (h : '\n' ∉ text) : newlineByte? text = none := by
  induction text with
  | nil => rfl
  | cons c rest ih =>
    obtain ⟨hc, hrest⟩ := not_or.1 (fun hmem => h (List.mem_cons.2 hmem))
    simp [newlineByte?, Ne.symm hc, ih hrest]

/-- The offset where reading goes on is that of the text behind the current line. -/
theorem resumeByte?_append (before rest : List Char) :
    ∃ line, rest = line ++ afterLine rest ∧
      resumeByte? (before ++ rest) (byteSize before) = some (byteSize (before ++ line)) ∧
      ((∃ front, line = front ++ ['\n']) ∨ afterLine rest = []) := by
  simp only [resumeByte?, fromByte?_append, Option.map_some]
  rcases afterLine_cases rest with ⟨line, hline, hrest⟩ | ⟨hrest, hnil⟩
  · refine ⟨line ++ ['\n'], by rw [List.append_assoc]; exact hrest, ?_, .inl ⟨line, rfl⟩⟩
    have hnewline := newlineByte?_line hline (afterLine rest)
    rw [← hrest] at hnewline
    have hsize : byteSize ['\n'] = 1 := by decide
    simp only [hnewline, byteSize_append, hsize, Nat.add_assoc]
  · exact ⟨rest, by rw [hnil, List.append_nil], by rw [newlineByte?_eq_none hrest], .inr hnil⟩

/-- The offset behind the front of a text is a position in it. -/
theorem isValid_byteSize {text : String} {before rest : List Char} (h : text.toList = before ++ rest) :
    String.Pos.Raw.IsValid text ⟨byteSize before⟩ := by
  refine String.Pos.Raw.isValid_iff_exists_append.2 ⟨String.ofList before, String.ofList rest, ?_, rfl⟩
  rw [← String.ofList_append, ← h, String.ofList_toList]

end Text

/-! ## Where a cursor began -/

namespace Cursor

/-- A cursor that began behind the front `before` of a buffer and has come to where it stands. -/
def BeganBehind (buffer before : List Char) (c : Cursor) : Prop :=
  ∃ slice, buffer = before ++ slice ∧ Leads (ofList slice) c

variable {buffer before : List Char} {c : Cursor}

theorem BeganBehind.ofList {slice : List Char} (h : buffer = before ++ slice) :
    BeganBehind buffer before (ofList slice) :=
  ⟨slice, h, .refl _⟩

/-- The place where a cursor began does not change as it moves on. -/
theorem BeganBehind.leads (h : BeganBehind buffer before c) {d : Cursor} (hd : Leads c d) :
    BeganBehind buffer before d := by
  obtain ⟨slice, hbuffer, hleads⟩ := h
  exact ⟨slice, hbuffer, hleads.trans hd⟩

/-- The offsets add up to that of the text before the cursor. -/
theorem BeganBehind.offset (h : BeganBehind buffer before c) :
    ∃ passed, buffer = before ++ passed ++ c.rest ∧
      Text.byteSize before + c.position.offset = Text.byteSize (before ++ passed) := by
  obtain ⟨slice, rfl, passed, hrest, hposition⟩ := h
  refine ⟨passed, by rw [List.append_assoc, ← hrest]; rfl, ?_⟩
  rw [hposition, Text.Position.offset_advance, Text.byteSize_append]
  exact congrArg _ (Nat.zero_add _)

/-- After an error reading begins anew behind the current line: further on than before, and on a new line unless
nothing is left. -/
theorem BeganBehind.restart (h : BeganBehind buffer before c) {e : ReadError} {stopped : Cursor}
    (hread : c.read = (.error e, stopped)) :
    ∃ skipped, buffer = before ++ skipped ++ Text.afterLine stopped.rest ∧
      Text.resumeByte? buffer (Text.byteSize before + stopped.position.offset) =
        some (Text.byteSize (before ++ skipped)) ∧
      skipped ≠ [] ∧ ((∃ front, skipped = front ++ ['\n']) ∨ Text.afterLine stopped.rest = []) := by
  have hlt := length_rest_of_read_error hread
  have hleads := c.leads_read
  rw [hread] at hleads
  obtain ⟨passed, hbuffer, hoffset⟩ := (h.leads hleads).offset
  obtain ⟨line, hline, hresume, hend⟩ := Text.resumeByte?_append (before ++ passed) stopped.rest
  rw [← hbuffer, List.append_assoc] at hresume
  have hsplit : buffer = before ++ (passed ++ line) ++ Text.afterLine stopped.rest := by
    rw [hbuffer, List.append_assoc, List.append_assoc, List.append_assoc, ← hline]
  refine ⟨passed ++ line, hsplit, by rw [hoffset, hresume], ?_, ?_⟩
  · -- the read has passed something, so the text left behind it is shorter than the one at the cursor
    intro hnil
    obtain ⟨rfl, rfl⟩ := List.append_eq_nil_iff.1 hnil
    obtain ⟨first, hfirst, -⟩ := h.offset
    rw [List.append_nil] at hbuffer
    have hrest : first ++ c.rest = stopped.rest := by
      rw [hbuffer, List.append_assoc] at hfirst
      exact (List.append_cancel_left hfirst).symm
    rw [← hrest, List.length_append] at hlt
    omega
  · refine hend.imp_left ?_
    rintro ⟨front, rfl⟩
    exact ⟨passed ++ front, by rw [List.append_assoc]⟩

end Cursor

/-! ## Rounds of feeding -/

/-- A console in the middle of a buffer: its cursor began at the byte offset `start`. -/
structure Feeding where
  console : Console
  start : Nat
  cursor : Cursor
  transcript : Transcript

/-- A console in front of a buffer. -/
def Feeding.front (c : Console) (buffer : List Char) : Feeding :=
  ⟨c, 0, Cursor.ofList buffer, #[]⟩

/-- The cursor of a console began where `start` says. -/
def Feeding.Stands (buffer : List Char) (s : Feeding) : Prop :=
  ∃ before, s.start = Text.byteSize before ∧ Cursor.BeganBehind buffer before s.cursor

namespace Console

/-- One round of feeding, by byte offsets: a form is run, or an error is reported and a new cursor begins behind the
next newline. There is no result if the buffer has no text at an offset. -/
def feedRound (buffer : List Char) (atEnd : Bool) (s : Feeding) : Feeding ⊕ Option Feed :=
  match s.cursor.read with
  | (.ok none, _) => .inr (some ⟨s.console, .done, [], s.transcript⟩)
  | (.ok (some form), after) =>
    .inl ⟨(s.console.runForm form).1, s.start, after, s.transcript ++ (s.console.runForm form).2⟩
  | (.error e, stopped) =>
    if e.isIncomplete && !atEnd then
      .inr ((Text.fromByte? buffer (s.start + s.cursor.position.offset)).map fun rest =>
        ⟨s.console, .needMore, rest, s.transcript⟩)
    else
      match Text.resumeByte? buffer (s.start + stopped.position.offset) with
      | none => .inr none
      | some next =>
        match Text.fromByte? buffer next with
        | none => .inr none
        | some rest =>
          .inl ⟨{ s.console with errors := s.console.errors + 1 }, next, Cursor.ofList rest,
            s.transcript.push (.reported (.read e))⟩

/-- The result that is to come. -/
def outcome (atEnd : Bool) (s : Feeding) : Feed :=
  s.console.feedFrom s.cursor atEnd s.transcript

variable {buffer : List Char} {atEnd : Bool} {s : Feeding}

/-- A round ends with the result that was to come, or goes on to a state with the same result to come and less text.
A cursor that begins anew does so further on. -/
theorem feedRound_cases (hs : s.Stands buffer) :
    feedRound buffer atEnd s = .inr (some (outcome atEnd s)) ∨
      ∃ next, feedRound buffer atEnd s = .inl next ∧ next.Stands buffer ∧
        next.cursor.rest.length < s.cursor.rest.length ∧ outcome atEnd next = outcome atEnd s ∧
        ∀ e stopped, s.cursor.read = (.error e, stopped) → s.start < next.start := by
  obtain ⟨before, hstart, hbegan⟩ := hs
  match hread : s.cursor.read with
  | (.ok none, after) =>
    left
    simp only [feedRound, hread, outcome]
    rw [feedFrom_eq_settle, Cursor.items_of_read_none atEnd hread]
    simp [settle, performAll]
  -- a form is run, and the cursor goes on in the same slice
  | (.ok (some form), after) =>
    right
    refine ⟨⟨(s.console.runForm form).1, s.start, after, s.transcript ++ (s.console.runForm form).2⟩,
      by simp only [feedRound, hread], ⟨before, hstart, ?_⟩, Cursor.length_rest_of_read_some hread, ?_, by simp⟩
    · have hleads := s.cursor.leads_read
      rw [hread] at hleads
      exact hbegan.leads hleads
    · simp only [outcome]
      rw [feedFrom_eq_settle, feedFrom_eq_settle, Cursor.items_of_read_some atEnd hread]
      simp [settle, performAll, Array.append_assoc]
  | (.error e, stopped) =>
    cases hreport : e.isIncomplete && !atEnd with
    | true =>
      left
      obtain ⟨passed, hbuffer, hoffset⟩ := hbegan.offset
      -- an open form is left as a slice of the buffer, which begins at the cursor
      have hrest : Text.fromByte? buffer (s.start + s.cursor.position.offset) = some s.cursor.rest := by
        rw [hstart, hoffset]
        nth_rewrite 1 [hbuffer]
        exact Text.fromByte?_append _ _
      simp only [feedRound, hread, hreport, if_true, hrest, Option.map_some, outcome]
      rw [feedFrom_eq_settle, Cursor.items_of_read_open hread hreport]
      simp [settle, performAll]
    | false =>
      right
      -- after an error a new cursor begins behind the line, at a later byte of the buffer
      obtain ⟨skipped, hsplit, hresume, hskipped, -⟩ := hbegan.restart hread
      have hrest : Text.fromByte? buffer (Text.byteSize (before ++ skipped)) =
          some (Text.afterLine stopped.rest) := by
        nth_rewrite 1 [hsplit]
        exact Text.fromByte?_append _ _
      refine ⟨⟨{ s.console with errors := s.console.errors + 1 }, Text.byteSize (before ++ skipped),
          Cursor.ofList (Text.afterLine stopped.rest), s.transcript.push (.reported (.read e))⟩,
        by simp only [feedRound, hread, hreport, hstart, hresume, hrest]; rfl, ⟨_, rfl, .ofList hsplit⟩, ?_, ?_, ?_⟩
      · exact Nat.lt_of_le_of_lt (Text.length_afterLine_le stopped.rest) (Cursor.length_rest_of_read_error hread)
      · simp only [outcome]
        rw [feedFrom_eq_settle, feedFrom_eq_settle, Cursor.items_of_read_error hread hreport]
        simp [settle, performAll]
      · intro e' stopped' _
        rw [hstart, Text.byteSize_append]
        exact Nat.lt_add_of_pos_right (Text.byteSize_pos hskipped)

/-- The last round gives what feeding is to give. -/
theorem feedRound_last (hs : s.Stands buffer) {result : Option Feed}
    (h : feedRound buffer atEnd s = .inr result) : result = some (outcome atEnd s) := by
  rcases feedRound_cases hs with hlast | ⟨next, hnext, -⟩
  · exact Sum.inr.inj (h.symm.trans hlast)
  · exact absurd (h.symm.trans hnext) Sum.inr_ne_inl

/-- A round that is followed by another one leaves less text, the same outcome, and after an error a later
start. -/
theorem feedRound_again (hs : s.Stands buffer) {next : Feeding} (h : feedRound buffer atEnd s = .inl next) :
    next.Stands buffer ∧ next.cursor.rest.length < s.cursor.rest.length ∧ outcome atEnd next = outcome atEnd s ∧
      ∀ e stopped, s.cursor.read = (.error e, stopped) → s.start < next.start := by
  rcases feedRound_cases hs with hlast | ⟨other, hother, hkept⟩
  · exact absurd (h.symm.trans hlast) Sum.inl_ne_inr
  · exact Sum.inl.inj (h.symm.trans hother) ▸ hkept

theorem stands_front (c : Console) (buffer : List Char) : (Feeding.front c buffer).Stands buffer :=
  ⟨[], rfl, .ofList rfl⟩

/-- A buffer is fed after as many rounds as it has characters, and one more at most. -/
theorem feed_stops (c : Console) (buffer : List Char) (atEnd : Bool) :
    ∃ n ≤ buffer.length + 1,
      Loop.Stops (feedRound buffer atEnd) (.front c buffer) n (some (c.feed buffer atEnd)) := by
  refine Loop.stops_of_variant (Feeding.Stands buffer) (fun s : Feeding => s.cursor.rest.length)
    (fun s => some (outcome atEnd s)) ?_ ?_ (.front c buffer) (stands_front c buffer)
  · intro s result hs hlast
    exact feedRound_last hs hlast
  · intro s next hs hagain
    obtain ⟨hnext, hlt, houtcome, -⟩ := feedRound_again hs hagain
    exact ⟨hnext, hlt, congrArg some houtcome⟩

/-- Where feeding arrives, its cursor stands in the buffer: it does at the front, and each round keeps it. -/
theorem stands_of_arrives {c : Console} (h : Loop.Arrives (feedRound buffer atEnd) (.front c buffer) s) :
    s.Stands buffer :=
  h.invariant (stands_front c buffer) fun _ _ hs hround => (feedRound_again hs hround).1

end Console

namespace Feeding

variable {text : String} {s : Feeding}

/-- The offset where a cursor began is a position in the text, and so is every one that it comes to. -/
theorem Stands.isValid_start (hs : s.Stands text.toList) : String.Pos.Raw.IsValid text ⟨s.start⟩ := by
  obtain ⟨before, hstart, slice, hbuffer, -⟩ := hs
  rw [hstart]
  exact Text.isValid_byteSize hbuffer

/-- Wherever the cursor goes, its offset is at a character of the buffer. -/
theorem Stands.isValid_offset (hs : s.Stands text.toList) {d : Cursor} (hd : Cursor.Leads s.cursor d) :
    String.Pos.Raw.IsValid text ⟨s.start + d.position.offset⟩ := by
  obtain ⟨before, hstart, hbegan⟩ := hs
  obtain ⟨passed, hbuffer, hoffset⟩ := (hbegan.leads hd).offset
  rw [hstart, hoffset]
  exact Text.isValid_byteSize hbuffer

end Feeding

namespace Cursor

/-- A form that is still open has a text. -/
theorem items_snd_ne_nil (c : Cursor) (atEnd : Bool) : (c.items atEnd).2 ≠ some [] := by
  fun_induction items c atEnd with
  | case1 c after hread => simp
  | case2 c form after hread ih => exact ih
  | case3 c e after hread hopen =>
    intro hnil
    have hlt := length_rest_of_read_error hread
    rw [Option.some.inj hnil] at hlt
    exact absurd hlt (Nat.not_lt_zero _)
  | case4 c e after hread hreport ih => exact ih

end Cursor

namespace Console

/-- Feeding is done exactly when nothing remains. -/
theorem verdict_feed_iff (c : Console) (buffer : List Char) (atEnd : Bool) :
    (c.feed buffer atEnd).verdict = .done ↔ (c.feed buffer atEnd).remaining = [] := by
  have hopen := (Cursor.ofList buffer).items_snd_ne_nil atEnd
  rw [feed_eq_settle]
  cases htail : ((Cursor.ofList buffer).items atEnd).2 with
  | none => simp [settle]
  | some tail =>
    rw [htail] at hopen
    have htext : tail ≠ [] := fun hnil => hopen (congrArg some hnil)
    simp [settle, htext]

/-- Every read and every feeding of a text ends. A read that finds something moves on, and one that finds nothing has
passed the layout that was left. Wherever a console stands, the offsets it goes by are positions in the text, and a
new start is behind the old one. Nothing is left of a text exactly when the console is done with it, as it always is
when no more text can follow. -/
theorem read_and_feed_end (c : Console) (text : String) (atEnd : Bool) :
    (∀ n, let cursor := (Cursor.ofString text).afterReads n
      (∃ rounds ≤ cursor.rest.length + 1,
        Loop.Stops Cursor.readRound ([], cursor) rounds (cursor.readForm [])) ∧
      cursor.read.1 = (cursor.readForm []).1 ∧
      (cursor.read.1 ≠ .ok none → cursor.position.offset < cursor.read.2.position.offset) ∧
      (cursor.read.1 = .ok none ↔ Text.IsLayout cursor.rest) ∧
      (cursor.read.1 = .ok none →
        cursor.read.2.rest = [] ∧ cursor.read.2.position.offset = text.utf8ByteSize)) ∧
    (∃ rounds ≤ text.length + 1,
      Loop.Stops Cursor.readAllRound ([], Cursor.ofString text) rounds (Value.readAll text)) ∧
    (∃ rounds ≤ text.length + 1,
      Loop.Stops (feedRound text.toList atEnd) (.front c text.toList) rounds
        (some (c.feed text.toList atEnd))) ∧
    (∀ s, Loop.Arrives (feedRound text.toList atEnd) (.front c text.toList) s →
      String.Pos.Raw.IsValid text ⟨s.start⟩ ∧
      String.Pos.Raw.IsValid text ⟨s.start + s.cursor.position.offset⟩ ∧
      ∀ e stopped, s.cursor.read = (.error e, stopped) →
        String.Pos.Raw.IsValid text ⟨s.start + stopped.position.offset⟩ ∧
        ∀ next, feedRound text.toList atEnd s = .inl next → s.start < next.start) ∧
    ((c.feed text.toList atEnd).verdict = .done ↔ (c.feed text.toList atEnd).remaining = []) ∧
    (atEnd = true → (c.feed text.toList atEnd).verdict ≠ .needMore) := by
  refine ⟨?_, ?_, ?_, ?_, verdict_feed_iff c _ atEnd, ?_⟩
  · intro n cursor
    refine ⟨cursor.readForm_stops [], cursor.read_fst, Cursor.offset_read_lt, cursor.read_eq_none_iff, ?_⟩
    intro hnone
    have hleads := (Cursor.ofString text).leads_afterReads n
    exact ⟨Cursor.rest_read_of_none hnone, Cursor.offset_read_of_none hleads hnone⟩
  · rw [← String.length_toList]
    exact Cursor.readAll_stops (Cursor.ofString text)
  · rw [← String.length_toList]
    exact feed_stops c text.toList atEnd
  · intro s hs
    -- a cursor that stands in the buffer is at a character of it, before the read and after it
    have hstands := stands_of_arrives hs
    refine ⟨hstands.isValid_start, hstands.isValid_offset (.refl _), ?_⟩
    intro e stopped hread
    have hleads := s.cursor.leads_read
    rw [hread] at hleads
    exact ⟨hstands.isValid_offset hleads, fun next hnext => (feedRound_again hstands hnext).2.2.2 e stopped hread⟩
  · rintro rfl
    rw [feed_eq_settle, Cursor.items_atEnd_snd]
    simp [settle]

end Console

end SmallLisp

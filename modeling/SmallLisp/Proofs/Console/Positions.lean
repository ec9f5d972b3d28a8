import SmallLisp.Proofs.Console.Restarts
import SmallLisp.Proofs.Reader.Places

/-!
# Where a console reports read errors

A console begins anew behind every read error that it reports, and positions are counted from there. So an error is
reported where it stands in the lines that are read since the last one. A new start is the start of a line
(`Reaches.exists_skipped`), so the column is that in the whole buffer, and the line is short by the lines that were
left behind (`Location.behind_lower`). Main statement: `feed_reports_located`.
-/

namespace SmallLisp

open Text (Location)

namespace Text

/-- Below whole lines a text ends in the same column, as many lines further down. -/
theorem Location.behind_lower {lines : List Char} (h : lines = [] ∨ ∃ front, lines = front ++ ['\n'])
    (text : List Char) : behind (lines ++ text) = (behind text).lower (lines.count '\n') := by
  rcases h with rfl | ⟨front, rfl⟩
  · rfl
  · have hcount : (front ++ ['\n']).count '\n' = 1 + front.count '\n' := by
      simp [Nat.add_comm]
    rw [← Position.location_advance_start, Position.advance_append, Position.advance_newline,
      Position.advance_lower, Position.location_lower, Position.location_advance_start, hcount]

theorem Location.lower_eq_self_iff {l : Location} {lines : Nat} : l = l.lower lines ↔ lines = 0 := by
  obtain ⟨line, column⟩ := l
  simp [lower]

end Text

namespace Cursor

variable {buffer : List Char} {atEnd : Bool} {items : List Item} {c : Cursor}

/-- The cursor of a console began in front of the buffer if no error was reported. After an error it began at a later
line, or nothing is left to read. -/
theorem Reaches.exists_skipped (h : Reaches buffer atEnd items c) :
    ∃ skipped, BeganBehind buffer skipped c ∧ (skipped = [] ↔ ∀ item ∈ items, ∃ v, item = .form v) ∧
      ((skipped = [] ∨ ∃ front, skipped = front ++ ['\n']) ∨ c.rest = []) := by
  induction h with
  | start => exact ⟨[], .ofList rfl, by simp, .inl (.inl rfl)⟩
  | @form items c after v h hread ih =>
    obtain ⟨skipped, hbegan, hforms, hlines⟩ := ih
    have hleads := c.leads_read
    rw [hread] at hleads
    refine ⟨skipped, hbegan.leads hleads, ?_, hlines.imp_right hleads.rest_eq_nil⟩
    rw [hforms]
    simp [or_imp, forall_and]
  | @refused items c after e h hread hreport ih =>
    obtain ⟨skipped, hbegan, -, -⟩ := ih
    obtain ⟨more, hbuffer, -, hmore, hline⟩ := hbegan.restart hread
    refine ⟨skipped ++ more, .ofList hbuffer, ?_, hline.imp_left fun ⟨front, hfront⟩ => .inr ?_⟩
    · simp [hmore]
    · exact ⟨skipped ++ front, by rw [hfront, List.append_assoc]⟩

theorem items_of_fault {text : List Char} {e : ReadError} (rest : List Char)
    (hread : (ofList text).read.1.map (fun _ => ()) = .error e)
    (hrest : Text.afterLine (ofList text).read.2.rest = rest) :
    ((ofList text).items true).1 = .refused e :: ((ofList rest).items true).1 := by
  rw [items_of_read_error (Prod.ext (error_of_map hread) rfl) (by simp), hrest]

/-- A read error is located at the text it is about, counted from where the cursor began. -/
theorem BeganBehind.error_located {skipped : List Char} (h : BeganBehind buffer skipped c) {e : ReadError}
    {stopped : Cursor} (hread : c.read = (.error e, stopped)) :
    ∃ place passed, Concerns c e.fault place ∧ buffer = skipped ++ passed ++ place.skipLayout.rest ∧
      place.skipLayout.rest ≠ [] ∧ e.location = Location.behind passed := by
  obtain ⟨stack, last, hsteps, hfails⟩ := exists_steps_of_error (readForm_of_read_error hread)
  obtain ⟨place, hconcerns, hlocation⟩ := (Opened.nil.steps hsteps).fails hfails
  obtain ⟨slice, rfl, passed, hpassed, hposition⟩ := (h.leads hconcerns.stop.leads).leads place.leads_skipLayout
  have hbehind : place.skipLayout.tokenStart = Location.behind passed := by
    rw [← Text.Position.location_advance_start]
    exact congrArg Text.Position.location hposition
  refine ⟨place, passed, hconcerns, ?_, hconcerns.ne_nil, hlocation.trans hbehind⟩
  rw [List.append_assoc]
  exact congrArg (skipped ++ ·) hpassed

end Cursor

namespace Console

/-- Every read error is reported in the transcript with the location of the text it is about, counted from the line
where reading began: at first the first line of the buffer, and after an error the line behind it. The column is that
in the whole buffer. The line is short by the lines before that start, so it is right for the first read error of the
buffer and for no other. -/
theorem feed_reports_located (c : Console) {buffer : List Char} {atEnd : Bool} {before later : List Item}
    {e : ReadError} (h : ((Cursor.ofList buffer).items atEnd).1 = before ++ .refused e :: later) :
    (c.feed buffer atEnd).transcript =
        (c.performAll before).2.push (.reported (.read e)) ++
          ((c.performAll (before ++ [.refused e])).1.performAll later).2 ∧
      ∃ cursor place skipped passed,
        Cursor.Reaches buffer atEnd before cursor ∧ Cursor.BeganBehind buffer skipped cursor ∧
        cursor.read.1 = .error e ∧ Cursor.Concerns cursor e.fault place ∧
        buffer = skipped ++ passed ++ place.skipLayout.rest ∧ place.skipLayout.rest ≠ [] ∧
        e.location = Location.behind passed ∧
        Location.behind (skipped ++ passed) = e.location.lower (skipped.count '\n') ∧
        (e.location = Location.behind (skipped ++ passed) ↔ ∀ item ∈ before, ∃ v, item = .form v) := by
  constructor
  · rw [feed_eq_settle, h]
    simp [settle, performAll_append, performAll]
  · obtain ⟨cursor, hreaches, hitems⟩ := Cursor.exists_reaches h
    obtain ⟨stopped, hread, -, -⟩ := Cursor.read_of_items_refused hitems
    obtain ⟨skipped, hbegan, hforms, hlines⟩ := hreaches.exists_skipped
    obtain ⟨place, passed, hconcerns, hbuffer, htext, hlocation⟩ := hbegan.error_located hread
    -- an error is about some text, so there was something left to read
    have hstart : skipped = [] ∨ ∃ front, skipped = front ++ ['\n'] := by
      refine hlines.resolve_right fun hnil => htext ?_
      exact (hconcerns.stop.leads.trans place.leads_skipLayout).rest_eq_nil hnil
    have hlower : Location.behind (skipped ++ passed) = e.location.lower (skipped.count '\n') := by
      rw [hlocation]
      exact Location.behind_lower hstart passed
    refine ⟨cursor, place, skipped, passed, hreaches, hbegan, by rw [hread], hconcerns, hbuffer, htext, hlocation,
      hlower, ?_⟩
    rw [hlower, Location.lower_eq_self_iff, ← hforms]
    rcases hstart with rfl | ⟨front, rfl⟩
    · simp
    · simp

/-- Stray brackets on two lines: the second one is reported in its column, and a line too high. -/
theorem feed_reports_located_second_bracket :
    let c : Console := { session := Session.standard, echo := true }
    let buffer := ")\n  ]\n".toList
    let first : ReadError := ⟨.unmatchedDelimiter ')', ⟨1, 1⟩⟩
    let e : ReadError := ⟨.unmatchedDelimiter ']', ⟨1, 3⟩⟩
    ∃ later, ((Cursor.ofList buffer).items true).1 = [.refused first] ++ .refused e :: later ∧
      ∃ (place : Cursor) (skipped passed : List Char), buffer = skipped ++ passed ++ place.skipLayout.rest ∧
        (c.feed buffer true).transcript =
          (c.performAll [.refused first]).2.push (.reported (.read e)) ++
            ((c.performAll [.refused first, .refused e]).1.performAll later).2 ∧
        Location.behind (skipped ++ passed) = e.location.lower (skipped.count '\n') ∧
        e.location ≠ Location.behind (skipped ++ passed) := by
  intro c buffer first e
  have hitems : ((Cursor.ofList buffer).items true).1 =
      [.refused first] ++ .refused e :: ((Cursor.ofList []).items true).1 := by
    rw [Cursor.items_of_fault (e := first) "  ]\n".toList (by decide +kernel) (by decide +kernel),
      Cursor.items_of_fault (e := e) [] (by decide +kernel) (by decide +kernel)]
    rfl
  refine ⟨_, hitems, ?_⟩
  obtain ⟨htranscript, cursor, place, skipped, passed, -, -, -, -, hbuffer, -, -, hlower, hfirst⟩ :=
    feed_reports_located c hitems
  refine ⟨place, skipped, passed, hbuffer, htranscript, hlower, fun hlocation => ?_⟩
  obtain ⟨v, hv⟩ := hfirst.1 hlocation _ List.mem_cons_self
  cases hv

/-- The second of two read errors is reported on the first line though its bracket stands on the second one. -/
theorem feed_reports_wrong_line :
    let c : Console := { session := Session.standard, echo := true }
    let buffer := ")\n)\n".toList
    let e : ReadError := ⟨.unmatchedDelimiter ')', ⟨1, 1⟩⟩
    ((Cursor.ofList buffer).items true).1 = [.refused e, .refused e] ∧
      buffer = ")\n".toList ++ ")\n".toList ∧ Location.behind ")\n".toList = ⟨2, 1⟩ ∧
      (c.feed buffer true).transcript.text =
        "Error: Unmatched delimiter: ) (line 1, column 1)\nError: Unmatched delimiter: ) (line 1, column 1)\n" := by
  intro c buffer e
  refine ⟨?_, rfl, by decide, ?_⟩
  · rw [Cursor.items_of_fault (e := e) ")\n".toList (by decide +kernel) (by decide +kernel),
      Cursor.items_of_fault (e := e) [] (by decide +kernel) (by decide +kernel),
      Cursor.items_of_read_none true (Cursor.read_of_layout rfl)]
  · decide +kernel

end Console

end SmallLisp

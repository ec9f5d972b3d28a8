import SmallLisp.Proofs.Text.Location
import SmallLisp.Proofs.Token.Faults

/-!
# How reading passes over a text

Whatever a cursor does, it passes characters and counts them (`Leads`), so its location is the one behind the
text it passed (`location_of_leads`). A read that found the text too short has passed all of it
(`rest_read_of_incomplete`). A form, or an error that more text cannot mend, which is found in whole lines is
found there whatever follows, by every call of a series of reads. Main statement: `read_sealed_final`.
-/

namespace SmallLisp

open Text (Location Position Sealed Terminated)

namespace Cursor

/-! ## Passing characters -/

/-- The second cursor stands further on in the text of the first: the characters between them were passed,
and its position counts them. -/
def Leads (c d : Cursor) : Prop :=
  ∃ passed, c.rest = passed ++ d.rest ∧ d.position = c.position.advance passed

theorem Leads.refl (c : Cursor) : Leads c c :=
  ⟨[], rfl, rfl⟩

/-- What was passed on two ways, one after the other, was passed on the whole way. -/
theorem Leads.trans {c d e : Cursor} (hd : Leads c d) (he : Leads d e) : Leads c e := by
  obtain ⟨passed, hrest, hposition⟩ := hd
  obtain ⟨more, hrest', hposition'⟩ := he
  refine ⟨passed ++ more, ?_, ?_⟩
  · rw [hrest, hrest', List.append_assoc]
  · rw [hposition', hposition, Position.advance_append]

/-- Where nothing is left, nothing is ahead. -/
theorem Leads.rest_eq_nil {c d : Cursor} (h : Leads c d) (hnil : c.rest = []) : d.rest = [] := by
  obtain ⟨passed, hrest, -⟩ := h
  rw [hnil] at hrest
  exact (List.nil_eq_append_iff.1 hrest).2

theorem leads_skipLayout (c : Cursor) : Leads c c.skipLayout :=
  ⟨(Text.splitLayout false c.rest).1, (Text.splitLayout_append false c.rest).symm, rfl⟩

/-- A token moves the cursor forward over its own text, also when it is refused. -/
theorem leads_takeToken (c : Cursor) : Leads c c.takeToken.2 := by
  unfold takeToken
  split
  · exact .refl c
  · next first others hrest =>
    exact ⟨(Token.scan first others).lexeme, by rw [hrest, Token.lexeme_append_rest], rfl⟩

theorem leads_next (c : Cursor) : Leads c c.next.2 :=
  c.leads_skipLayout.trans c.skipLayout.leads_takeToken

theorem leads_of_next {c after : Cursor} {result : Except ReadError (Option Token)}
    (h : c.next = (result, after)) : Leads c after := by
  have hleads := c.leads_next
  rwa [h] at hleads

/-- Reading moves the cursor forward, by induction on the tokens that are taken. -/
theorem leads_readForm (stack : List Frame) (c : Cursor) : Leads c (c.readForm stack).2 := by
  fun_induction readForm stack c with
  | case5 stack c token after hnext inner hstep ih => exact (leads_of_next hnext).trans ih
  | _ => exact leads_of_next ‹_›

theorem leads_skipTrailer (c : Cursor) : Leads c c.skipTrailer :=
  ⟨(Text.splitTrailer false c.rest).1, (Text.splitTrailer_append false c.rest).symm, rfl⟩

/-- One read moves the cursor forward, over the trailer too. -/
theorem leads_read (c : Cursor) : Leads c c.read.2 := by
  have hform := c.leads_readForm []
  unfold read
  split
  · next form after hread =>
    rw [hread] at hform
    exact hform.trans after.leads_skipTrailer
  · exact hform

/-- Where the cursor stands when the given number of reads was made, each from where the one before it
stopped. -/
def afterReads (c : Cursor) : Nat → Cursor
  | 0 => c
  | n + 1 => (c.afterReads n).read.2

theorem leads_afterReads (c : Cursor) (n : Nat) : Leads c (c.afterReads n) := by
  induction n with
  | zero => exact .refl c
  | succ n ih => exact ih.trans (leads_read _)

/-- The location of a cursor is the one behind the text that was passed. -/
theorem location_of_leads {text : String} {c : Cursor} (h : Leads (ofString text) c) :
    ∃ before, text.toList = before ++ c.rest ∧ c.position.location = Location.behind before := by
  obtain ⟨before, hrest, hposition⟩ := h
  exact ⟨before, hrest, by rw [hposition]; exact Position.location_advance_start before⟩

end Cursor

/-! ## A text that is too short is passed whole -/

namespace Progress

/-- A token that has no place among the open collections is an error that more text cannot mend. -/
theorem isIncomplete_of_step {stack : List Frame} {token : Token} {place : Location} {e : ReadError}
    (h : step stack token place = .error e) : e.isIncomplete = false := by
  -- a form is refused by a map that has its key, and by nothing else
  have hdeliver : ∀ {v start outer}, deliver v start outer = .error e → e.isIncomplete = false := by
    intro v start outer hd
    cases outer with
    | nil => cases hd
    | cons frame outer =>
      simp only [deliver] at hd
      split at hd
      · cases hd
      · next hadd =>
        cases hd
        unfold Frame.add at hadd
        split at hadd
        case h_5 =>
          split at hadd
          · cases hadd
            rfl
          · cases hadd
        all_goals cases hadd
  cases token with
  | opening shape => cases h
  | atom a => exact hdeliver h
  | closing closer =>
    cases stack with
    | nil =>
      cases h
      rfl
    | cons frame outer =>
      simp only [step, close] at h
      split at h
      · split at h
        · exact hdeliver h
        · next hfinish =>
          cases h
          -- a map that is closed behind a key cannot be finished
          unfold Frame.finish at hfinish
          split at hfinish
          case h_5 =>
            cases hfinish
            rfl
          all_goals cases hfinish
      · cases h
        rfl

end Progress

namespace Cursor

/-- What is refused as a token is scanned behind the layout, and the fault is located there. -/
theorem scan_of_next_error {c after : Cursor} {e : ReadError} (h : c.next = (.error e, after)) :
    ∃ first others, c.skipLayout.rest = first :: others ∧
      (Token.scan first others).outcome = .error e.fault ∧ e.location = c.skipLayout.tokenStart ∧
      after.rest = (Token.scan first others).rest := by
  unfold next takeToken at h
  split at h
  · cases h
  · next first others hrest =>
    obtain ⟨hresult, hafter⟩ := Prod.mk.inj h
    refine ⟨first, others, hrest, ?_⟩
    cases houtcome : (Token.scan first others).outcome with
    | ok token =>
      rw [houtcome] at hresult
      cases hresult
    | error fault =>
      rw [houtcome] at hresult
      cases hresult
      exact ⟨rfl, rfl, by rw [← hafter]⟩

/-- Where no token is left, the cursor has passed the layout at the end of the text. -/
theorem rest_of_next_none {c after : Cursor} (h : c.next = (.ok none, after)) :
    c.skipLayout.rest = [] ∧ after = c.skipLayout := by
  unfold next takeToken at h
  split at h
  · next hrest => exact ⟨hrest, (Prod.mk.inj h).2.symm⟩
  · next first others hrest =>
    obtain ⟨hresult, -⟩ := Prod.mk.inj h
    cases houtcome : (Token.scan first others).outcome <;>
      simp [houtcome, ReadError.locate, Except.map] at hresult

/-- Where the text was too short for a form, all of it was passed. -/
theorem rest_readForm_of_incomplete {stack : List Frame} {c after : Cursor} {e : ReadError}
    (h : c.readForm stack = (.error e, after)) (hincomplete : e.isIncomplete = true) :
    after.rest = [] := by
  fun_induction readForm stack c with
  | case1 stack c e' last hnext =>
    cases h
    obtain ⟨first, others, -, hscan, -, hrest⟩ := scan_of_next_error hnext
    obtain ⟨fault, location⟩ := e
    cases fault with
    | unexpectedEnd construct => rw [hrest, Token.rest_of_scan_end hscan]
    | _ => cases hincomplete
  | case2 stack c last hnext =>
    obtain ⟨hrest, hlast⟩ := rest_of_next_none hnext
    rw [← (Prod.mk.inj h).2, hlast, hrest]
  | case3 stack c token last hnext e' hstep =>
    cases h
    rw [Progress.isIncomplete_of_step hstep] at hincomplete
    cases hincomplete
  | case4 stack c token last hnext form hstep => cases h
  | case5 stack c token last hnext inner hstep ih => exact ih h

/-- An error comes from the form itself: skipping the trailer cannot fail. -/
theorem readForm_of_read_error {c after : Cursor} {e : ReadError} (h : c.read = (.error e, after)) :
    c.readForm [] = (.error e, after) := by
  unfold read at h
  split at h
  · cases h
  · exact h

/-- A read that finds the text too short has passed all of it. -/
theorem rest_read_of_incomplete {c after : Cursor} {e : ReadError} (h : c.read = (.error e, after))
    (hincomplete : e.isIncomplete = true) : after.rest = [] :=
  rest_readForm_of_incomplete (readForm_of_read_error h) hincomplete

/-- Where no form was left, nothing is. -/
theorem rest_read_of_none {c : Cursor} (h : c.read.1 = .ok none) : c.read.2.rest = [] := by
  have hlayout := skipLayout_rest_of_read_none h
  have hnext : c.next = (.ok none, c.skipLayout) := by rw [next, takeToken, hlayout]
  rw [read, readForm_of_next_none [] hnext]
  exact hlayout

end Cursor

/-! ## More text behind the unread one -/

theorem Text.terminated_append {rest more : List Char} (h : Terminated rest)
    (hmore : rest = [] → Terminated more) : Terminated (rest ++ more) := by
  cases rest with
  | nil => exact hmore rfl
  | cons c others => exact h

/-- A token is the same before more text, unless it ends where the text did and the new text makes its run
longer. -/
theorem Token.scan_extend_of_ok {c : Char} {text : List Char} {token : Token}
    (h : (scan c text).outcome = .ok token) (more : List Char)
    (hmore : (scan c text).rest = [] → Terminated more) :
    scan c (text ++ more) = (scan c text).extend more := by
  have hrest : Terminated (scanAfter c text).rest → Terminated ((scanAfter c text).rest ++ more) :=
    fun hrest => Text.terminated_append hrest hmore
  have hscan := scanAfter_before h hrest
  have hcovers : (scanAfter c text).lexeme ++ (scanAfter c text).rest = text := scanAfter_covers c text
  rw [← List.append_assoc, hcovers] at hscan
  rw [scan, hscan]
  rfl

namespace Cursor

/-- A token stays the same before more text when something ends it. -/
theorem next_extend_of_token {c after : Cursor} {token : Token} (h : c.next = (.ok (some token), after))
    (more : List Char) (hmore : after.rest = [] → Terminated more) :
    (c.extend more).next = (.ok (some token), after.extend more) := by
  obtain ⟨first, others, hrest, hscan, hafter, -⟩ := scan_of_next h
  rw [hafter] at hmore
  have hskip := skipLayout_extend (c := c) (by rw [hrest]; exact List.cons_ne_nil _ _) more
  have hextend := Token.scan_extend_of_ok hscan more hmore
  rw [next, takeToken, hrest] at h
  rw [next, hskip, takeToken, rest_extend, hrest, List.cons_append]
  dsimp only at h ⊢
  rw [hextend]
  obtain ⟨hresult, rfl⟩ := Prod.mk.inj h
  exact Prod.ext hresult rfl

/-- A form stays the same before more text when something ends its last token. -/
theorem readForm_extend_of_form {stack : List Frame} {c after : Cursor} {v : Value}
    (h : c.readForm stack = (.ok (some v), after)) (more : List Char)
    (hmore : after.rest = [] → Terminated more) :
    (c.extend more).readForm stack = (.ok (some v), after.extend more) := by
  fun_induction readForm stack c with
  | case1 stack c e last hnext => cases h
  | case2 stack c last hnext => cases stack <;> cases h
  | case3 stack c token last hnext e hstep => cases h
  | case4 stack c token last hnext form hstep =>
    cases h
    have hstep' : Progress.step stack token (after.extend more).tokenStart = .ok (.done v) := hstep
    rw [readForm_of_next_some stack (next_extend_of_token hnext more hmore), hstep']
  | case5 stack c token last hnext inner hstep ih =>
    -- where nothing is left after this token, nothing is left after the form
    have hlast : last.rest = [] → Terminated more := by
      intro hnil
      have hleads := last.leads_readForm inner
      rw [h] at hleads
      exact hmore (hleads.rest_eq_nil hnil)
    have hstep' : Progress.step stack token (last.extend more).tokenStart = .ok (.reading inner) := hstep
    rw [readForm_of_next_some stack (next_extend_of_token hnext more hlast), hstep']
    exact ih h

/-! ## Whole lines -/

/-- A read that left something gave a form or an error that more text cannot mend. -/
theorem settled_of_rest_ne_nil {c : Cursor} (h : c.read.2.rest ≠ []) :
    c.read.1 ≠ .ok none ∧ ∀ e, c.read.1 = .error e → e.isIncomplete = false := by
  refine ⟨fun hnone => h (rest_read_of_none hnone), ?_⟩
  intro e he
  apply Bool.eq_false_iff.2
  intro hincomplete
  exact h (rest_read_of_incomplete (Prod.ext he rfl : c.read = (.error e, c.read.2)) hincomplete)

/-- As long as something is left of sealed text, reading goes the same way whatever follows. -/
theorem afterReads_extend {c : Cursor} (h : Sealed c.rest) (more : List Char) {n : Nat}
    (hrest : (c.afterReads n).rest ≠ []) :
    (c.extend more).afterReads n = (c.afterReads n).extend more ∧ Sealed (c.afterReads n).rest := by
  induction n with
  | zero => exact ⟨rfl, h⟩
  | succ n ih =>
    have hbefore : (c.afterReads n).rest ≠ [] :=
      fun hnil => hrest ((c.afterReads n).leads_read.rest_eq_nil hnil)
    obtain ⟨hsame, hsealed⟩ := ih hbefore
    obtain ⟨hsome, hsettled⟩ := settled_of_rest_ne_nil hrest
    obtain ⟨hread, hsealed'⟩ := read_extend hsealed hsome hsettled more
    refine ⟨?_, hsealed'⟩
    show ((c.extend more).afterReads n).read.2 = _
    rw [hsame, hread]
    rfl

/-- What a read finds in whole lines is final. If the lines are sealed, and some read of them gives a form, or
an error that more text cannot mend, then the same read gives the same form or the same error, location
included, when any text follows the lines, and it stops at the same position. -/
theorem read_sealed_final {text : String} (hsealed : Sealed text.toList) (more : String) (n : Nat) :
    let alone := (ofString text).afterReads n
    let followed := (ofString (text ++ more)).afterReads n
    (∃ v, alone.read.1 = .ok (some v)) ∨ (∃ e, alone.read.1 = .error e ∧ e.isIncomplete = false) →
      followed.read.1 = alone.read.1 ∧ followed.read.2.position = alone.read.2.position := by
  intro alone followed hverdict
  have hsome : alone.read.1 ≠ .ok none := by
    intro hnone
    rcases hverdict with ⟨v, hv⟩ | ⟨e, he, -⟩
    · cases hnone.symm.trans hv
    · cases hnone.symm.trans he
  have hsettled : ∀ e, alone.read.1 = .error e → e.isIncomplete = false := by
    intro e he
    rcases hverdict with ⟨v, hv⟩ | ⟨e', he', hcomplete⟩
    · cases he.symm.trans hv
    · cases he.symm.trans he'
      exact hcomplete
  -- something was found, so something was left to read
  have hrest : alone.rest ≠ [] := by
    intro hnil
    have hlt := alone.length_rest_read_lt hsome
    rw [hnil] at hlt
    exact absurd hlt (Nat.not_lt_zero _)
  obtain ⟨hsame, hsealed'⟩ := afterReads_extend hsealed more.toList hrest
  obtain ⟨hread, -⟩ := read_extend hsealed' hsome hsettled more.toList
  have hfollowed : followed = alone.extend more.toList := by
    rw [← hsame, ofString, extend_ofList, ← String.toList_append]
    rfl
  rw [hfollowed, hread]
  exact ⟨rfl, rfl⟩

/-- The second read of two lines: a stray bracket is reported at once, though the text behind the lines is an
open string. -/
theorem read_sealed_final_stray_bracket :
    let text := "[1\n2] ) ; \"\n"
    let e : ReadError := ⟨.unmatchedDelimiter ')', ⟨2, 4⟩⟩
    Sealed text.toList ∧ ((ofString text).afterReads 1).read.1 = .error e ∧
      ((ofString (text ++ "\"b")).afterReads 1).read.1 = .error e ∧
      ((ofString (text ++ "\"b")).afterReads 1).read.2.position = ⟨2, 5, 7⟩ := by
  intro text e
  have hsealed : Sealed text.toList := by decide
  have hread : ((ofString text).afterReads 1).read.1 = .error e :=
    error_of_map (by decide +kernel : ((ofString text).afterReads 1).read.1.map (fun _ => ()) = .error e)
  have hposition : ((ofString text).afterReads 1).read.2.position = ⟨2, 5, 7⟩ := by decide +kernel
  obtain ⟨hsame, hstop⟩ := read_sealed_final hsealed "\"b" 1 (.inr ⟨e, hread, rfl⟩)
  exact ⟨hsealed, hread, hsame.trans hread, hstop.trans hposition⟩

end Cursor

end SmallLisp

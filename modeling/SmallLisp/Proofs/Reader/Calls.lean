import SmallLisp.Proofs.Reader.Trailer

/-!
# Where a cursor stands after any calls

A cursor takes one token, takes all of them, or skips the rest of a line. These calls can be made in any order, and
a cursor that gave an error is used like any other (`afterCalls`). The tokens of some calls begin at places of
their own, each behind its layout (`starts`). After every call the cursor stands right behind the token that began
last, or behind the rest of its line (`StandsAfter`): one call keeps this (`StandsAfter.call`), and so any number of
them does (`StandsAfter.calls`). Main statement: `position_faithful`.
-/

namespace SmallLisp

open Text (Location Position Solid)

namespace Text

namespace Location

/-- Further up, or on the same line and not further to the right. -/
def AtOrBefore (a b : Location) : Prop :=
  a.line < b.line ∨ a.line = b.line ∧ a.column ≤ b.column

/-- No text leads back. -/
theorem behind_atOrBefore_append (before passed : List Char) :
    (behind before).AtOrBefore (behind (before ++ passed)) := by
  induction passed using List.reverseRecOn with
  | nil => exact .inr ⟨by rw [List.append_nil], by rw [List.append_nil]⟩
  | append_singleton passed c ih =>
    unfold AtOrBefore at ih ⊢
    rw [← List.append_assoc]
    by_cases hc : c = '\n'
    · rw [hc, behind_newline]
      dsimp only
      omega
    · rw [behind_concat hc]
      dsimp only
      omega

end Location

/-- Behind a trailer there is no other one. -/
theorem splitTrailer_splitTrailer (text : List Char) :
    splitTrailer false (splitTrailer false text).2 = ([], (splitTrailer false text).2) := by
  obtain ⟨-, hstop⟩ := splitTrailer_spec text
  cases hrest : (splitTrailer false text).2 with
  | nil => rfl
  | cons c rest =>
    rw [hrest] at hstop
    rcases hstop c rfl with rfl | ⟨hblank, hcomment⟩
    · rfl
    · by_cases hc : c = '\n'
      · simp [splitTrailer, hc]
      · simp [splitTrailer, hc, hblank, hcomment]

end Text

namespace Cursor

/-! ## Calls -/

/-- What a cursor can be asked for. -/
inductive Call where
  | next
  | tokens
  | skipTrailer
deriving DecidableEq, Repr

/-- The cursor after a call, also when the call failed. -/
def afterCall (c : Cursor) : Call → Cursor
  | .next => c.next.2
  | .tokens => c.tokens.2
  | .skipTrailer => c.skipTrailer

/-- The cursor after calls in a row. -/
def afterCalls (c : Cursor) (calls : List Call) : Cursor :=
  calls.foldl afterCall c

/-- Where the tokens of a text begin, each behind its layout. The last place is the end of the text, or holds
what is no token. -/
def tokenStarts (c : Cursor) : List Cursor :=
  match _ : c.next with
  | (.error _, _) => [c.skipLayout]
  | (.ok none, _) => [c.skipLayout]
  | (.ok (some _), after) => c.skipLayout :: after.tokenStarts
termination_by c.rest.length
decreasing_by exact length_rest_of_next_some ‹_›

/-- Where the tokens begin that a call looks for. -/
def callStarts (c : Cursor) : Call → List Cursor
  | .next => [c.skipLayout]
  | .tokens => c.tokenStarts
  | .skipTrailer => []

/-- Where the tokens begin that calls in a row look for; the most recent one is the last. -/
def starts (c : Cursor) : List Call → List Cursor
  | [] => []
  | call :: calls => c.callStarts call ++ (c.afterCall call).starts calls

/-! ## Where tokens begin -/

/-- A place where a token begins: the text leads there, and the layout before it was skipped. -/
def Begins (start place : Cursor) : Prop :=
  ∃ c, Leads start c ∧ place = c.skipLayout

variable {start place c : Cursor} {begun : List Cursor}

theorem Begins.leads (h : Begins start place) : Leads start place := by
  obtain ⟨c, hleads, rfl⟩ := h
  exact hleads.trans c.leads_skipLayout

theorem Begins.solid (h : Begins start place) : Solid place.rest := by
  obtain ⟨c, -, rfl⟩ := h
  exact Text.solid_splitLayout false c.rest

theorem Begins.tokenStart (h : Begins start place) : place.tokenStart = place.position.location := by
  obtain ⟨c, -, rfl⟩ := h
  rfl

theorem Begins.of_leads (h : Begins c place) (hc : Leads start c) : Begins start place := by
  obtain ⟨d, hleads, rfl⟩ := h
  exact ⟨d, hc.trans hleads, rfl⟩

theorem begins_skipLayout (c : Cursor) : Begins c c.skipLayout :=
  ⟨c, .refl c, rfl⟩

/-- Each token of a text begins behind its own layout. -/
theorem begins_of_mem_tokenStarts (h : place ∈ c.tokenStarts) : Begins c place := by
  fun_induction tokenStarts c with
  | case1 c e after hnext =>
    rw [List.mem_singleton.1 h]
    exact c.begins_skipLayout
  | case2 c after hnext =>
    rw [List.mem_singleton.1 h]
    exact c.begins_skipLayout
  | case3 c token after hnext ih =>
    rcases List.mem_cons.1 h with rfl | h
    · exact c.begins_skipLayout
    · exact (ih h).of_leads (leads_of_next hnext)

/-- Each token that a call takes begins behind its own layout. -/
theorem begins_of_mem_callStarts {call : Call} (h : place ∈ c.callStarts call) : Begins c place := by
  cases call with
  | next =>
    rw [List.mem_singleton.1 h]
    exact c.begins_skipLayout
  | tokens => exact begins_of_mem_tokenStarts h
  | skipTrailer => cases h

/-- Taking all tokens ends with the token that began last. -/
theorem getLast?_tokenStarts (c : Cursor) :
    ∃ place, c.tokenStarts.getLast? = some place ∧ c.tokens.2 = place.takeToken.2 := by
  fun_induction tokenStarts c with
  | case1 c e after hnext =>
    refine ⟨c.skipLayout, rfl, ?_⟩
    rw [tokens_of_next_error hnext]
    exact (congrArg Prod.snd hnext).symm
  | case2 c after hnext =>
    refine ⟨c.skipLayout, rfl, ?_⟩
    rw [tokens_of_next_none hnext]
    exact (congrArg Prod.snd hnext).symm
  | case3 c token after hnext ih =>
    obtain ⟨place, hlast, htokens⟩ := ih
    refine ⟨place, ?_, ?_⟩
    · rw [List.getLast?_cons, hlast]
      rfl
    · rw [tokens_of_next_some hnext]
      exact htokens

/-! ## What every call keeps -/

@[simp]
theorem tokenStart_takeToken (c : Cursor) : c.takeToken.2.tokenStart = c.tokenStart := by
  unfold takeToken
  split <;> rfl

/-- Skipping the rest of a line twice is skipping it once. -/
theorem skipTrailer_skipTrailer (c : Cursor) : c.skipTrailer.skipTrailer = c.skipTrailer := by
  have hsplit := Text.splitTrailer_splitTrailer c.rest
  unfold skipTrailer
  dsimp only
  rw [hsplit]
  rfl

/-- Right behind the token that began last; without any, where the calls began. -/
def behindLast (start : Cursor) (begun : List Cursor) : Cursor :=
  begun.getLast?.elim start fun place => place.takeToken.2

/-- The cursor stands behind the token that began last, or behind the rest of its line. -/
structure StandsAfter (start : Cursor) (begun : List Cursor) (c : Cursor) : Prop where
  begins : ∀ place ∈ begun, Begins start place
  stands : c = behindLast start begun ∨ c = (behindLast start begun).skipTrailer

namespace StandsAfter

theorem initial (start : Cursor) : StandsAfter start [] start :=
  ⟨nofun, .inl rfl⟩

/-- The cursor stands at or after the end of the token that began last. -/
theorem leads_behindLast (h : StandsAfter start begun c) : Leads (behindLast start begun) c := by
  rcases h.stands with hc | hc
  · rw [← hc]
    exact .refl c
  · rw [hc]
    exact leads_skipTrailer _

/-- Wherever the last token began, it was on the way. -/
theorem leads_last (h : StandsAfter start begun c) (hlast : begun.getLast? = some place) :
    Begins start place ∧ Leads place c := by
  have hbehind := h.leads_behindLast
  rw [behindLast, hlast] at hbehind
  exact ⟨h.begins place (List.mem_of_getLast? hlast), place.leads_takeToken.trans hbehind⟩

/-- No call moves the cursor back. -/
theorem leads (h : StandsAfter start begun c) : Leads start c := by
  cases hlast : begun.getLast? with
  | none =>
    have hbehind := h.leads_behindLast
    rw [behindLast, hlast] at hbehind
    exact hbehind
  | some place =>
    obtain ⟨hbegins, hleads⟩ := h.leads_last hlast
    exact hbegins.leads.trans hleads

/-- The start of a token is kept until the next one is looked for. -/
theorem tokenStart (h : StandsAfter start begun c) :
    c.tokenStart = begun.getLast?.elim start.tokenStart fun place => place.position.location := by
  have hkept : c.tokenStart = (behindLast start begun).tokenStart := by
    rcases h.stands with hc | hc
    · rw [hc]
    · rw [hc]
      rfl
  rw [hkept, behindLast]
  cases hlast : begun.getLast? with
  | none => rfl
  | some place =>
    have hbegins := h.begins place (List.mem_of_getLast? hlast)
    exact place.tokenStart_takeToken.trans hbegins.tokenStart

/-- One call: tokens begin behind what was read, and the rest of a line is skipped only once. -/
theorem call (h : StandsAfter start begun c) (call : Call) :
    StandsAfter start (begun ++ c.callStarts call) (c.afterCall call) := by
  refine ⟨?_, ?_⟩
  · intro place hplace
    rcases List.mem_append.1 hplace with hplace | hplace
    · exact h.begins place hplace
    · exact (begins_of_mem_callStarts hplace).of_leads h.leads
  · cases call with
    | next =>
      left
      show c.skipLayout.takeToken.2 = behindLast start (begun ++ [c.skipLayout])
      rw [behindLast, List.getLast?_concat]
      rfl
    | tokens =>
      left
      obtain ⟨place, hlast, htokens⟩ := c.getLast?_tokenStarts
      show c.tokens.2 = behindLast start (begun ++ c.tokenStarts)
      rw [behindLast, List.getLast?_append, hlast, htokens]
      rfl
    | skipTrailer =>
      -- the rest of a line that was skipped before is empty
      right
      show c.skipTrailer = (behindLast start (begun ++ [])).skipTrailer
      rw [List.append_nil]
      rcases h.stands with hc | hc
      · rw [hc]
      · rw [hc, skipTrailer_skipTrailer]

/-- Any number of calls. -/
theorem calls (h : StandsAfter start begun c) (calls : List Call) :
    StandsAfter start (begun ++ c.starts calls) (c.afterCalls calls) := by
  induction calls generalizing begun c with
  | nil =>
    show StandsAfter start (begun ++ []) c
    rwa [List.append_nil]
  | cons call calls ih =>
    show StandsAfter start (begun ++ (c.callStarts call ++ (c.afterCall call).starts calls))
      ((c.afterCall call).afterCalls calls)
    rw [← List.append_assoc]
    exact ih (h.call call)

end StandsAfter

/-- Whatever is asked of a cursor, in any order and also after errors, it knows where it stands: what it consumed
and what is unread make up the text, the offset counts the bytes of what it consumed, the line its newlines, and
the column the characters behind the last of them. The start of a token is kept until the next token is looked
for. It is the location that the cursor had behind the layout, before the first character of the token, and nothing
but this token and the rest of its line was consumed since. -/
theorem position_faithful (text : String) (calls : List Call) :
    let c := (ofString text).afterCalls calls
    ∃ consumed : List Char,
      text.toList = consumed ++ c.rest ∧
      c.position.offset = (String.ofList consumed).utf8ByteSize ∧
      c.position.line = 1 + consumed.count '\n' ∧
      c.position.column = 1 + (consumed.reverse.takeWhile (· != '\n')).length ∧
      c.tokenStart.AtOrBefore c.position.location ∧
      match ((ofString text).starts calls).getLast? with
      | none => c.tokenStart = ⟨1, 1⟩
      | some place =>
        c.tokenStart = place.position.location ∧
        (c = place.takeToken.2 ∨ c = place.takeToken.2.skipTrailer) ∧
        ∃ before taken : List Char, consumed = before ++ taken ∧ place.rest = taken ++ c.rest ∧
          Solid place.rest ∧ c.tokenStart = Location.behind before := by
  intro c
  have h : StandsAfter (ofString text) ((ofString text).starts calls) c :=
    (StandsAfter.initial (ofString text)).calls calls
  obtain ⟨consumed, htext, hposition⟩ := h.leads
  have hlocation : c.position.location = Location.behind consumed := by
    rw [hposition]
    exact Position.location_advance_start consumed
  have hoffset : c.position.offset = (String.ofList consumed).utf8ByteSize := by
    rw [hposition, Position.offset_advance]
    exact Nat.zero_add _
  obtain ⟨hline, hcolumn⟩ := Location.mk.inj hlocation
  refine ⟨consumed, htext, hoffset, hline, hcolumn, ?_⟩
  have hstart := h.tokenStart
  cases hlast : ((ofString text).starts calls).getLast? with
  | none =>
    rw [hlast] at hstart
    refine ⟨?_, hstart⟩
    rw [hstart, hlocation]
    exact Location.behind_atOrBefore_append [] consumed
  | some place =>
    rw [hlast] at hstart
    obtain ⟨hbegins, taken, htaken, -⟩ := h.leads_last hlast
    obtain ⟨before, hbefore, hplace⟩ := hbegins.leads
    -- what was passed before the place and what was passed since are all that was consumed
    have hsplit : consumed ++ c.rest = before ++ taken ++ c.rest := by
      rw [List.append_assoc, ← htaken, ← htext, ← hbefore]
    have hconsumed : consumed = before ++ taken := List.append_cancel_right hsplit
    have hbehind : c.tokenStart = Location.behind before := by
      rw [hstart]
      show place.position.location = _
      rw [hplace]
      exact Position.location_advance_start before
    refine ⟨?_, hstart, ?_, before, taken, hconsumed, htaken, hbegins.solid, hbehind⟩
    · rw [hbehind, hlocation, hconsumed]
      exact Location.behind_atOrBefore_append before taken
    · have hstands := h.stands
      rw [behindLast, hlast] at hstands
      exact hstands

/-- A comment, a dispatch mark that is refused, and a token that is taken after the error. -/
example :
    let c := (ofString "é ; x\n #\"\n b").afterCalls [.next, .skipTrailer, .tokens]
    c.position = ⟨2, 4, 10⟩ ∧ c.tokenStart = ⟨2, 2⟩ ∧ c.next.2.position = ⟨3, 3, 13⟩ ∧
      c.next.2.tokenStart = ⟨3, 2⟩ := by
  decide +kernel

end Cursor

end SmallLisp

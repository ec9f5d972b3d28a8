import SmallLisp.Proofs.Reader.Passage

/-!
# Where a read stops

Behind a form the blanks and the comment on the rest of its line are passed (`Text.Trailer`), and the newline stays.
So the line ends there exactly when nothing else stood on it (`atLineEnd_skipTrailer_iff`). The text of the form
itself ends before the trailer: read alone, it gives the form and leaves nothing (`readForm_alone`). A trailer is
layout before the next token as well, so later reads find the same whether trailers are passed or not
(`read_afterReads`). Main statement: `read_stops_behind_trailer`.
-/

namespace SmallLisp

open Text (Terminated)

namespace Text

/-! ## Trailers -/

/-- Blanks of one line, and at most one comment behind them. -/
inductive Trailer : List Char → Prop where
  | nil : Trailer []
  | blank {c : Char} {rest : List Char} (hc : isBlank c = true) (hline : c ≠ '\n') (h : Trailer rest) :
      Trailer (c :: rest)
  | comment {body : List Char} (hbody : '\n' ∉ body) : Trailer (';' :: body)

/-- The text up to the end of the current line. -/
def currentLine (text : List Char) : List Char :=
  text.takeWhile (· != '\n')

/-- Nothing more, or the end of a line. -/
def AtLineEnd (rest : List Char) : Prop :=
  ∀ c ∈ rest.head?, c = '\n'

theorem Trailer.newline_notMem {text : List Char} (h : Trailer text) : '\n' ∉ text := by
  induction h with
  | nil => simp
  | blank hc hline h ih => simpa using ⟨Ne.symm hline, ih⟩
  | comment hbody => simpa using hbody

theorem currentLine_append {line rest : List Char} (hline : '\n' ∉ line) (hrest : AtLineEnd rest) :
    currentLine (line ++ rest) = line := by
  refine (cut_append ?_ ?_).1
  · intro c hc
    exact bne_iff_ne.2 fun heq => hline (heq ▸ hc)
  · intro c hc
    simp [hrest c hc]

theorem exists_currentLine_append (text : List Char) :
    ∃ rest, text = currentLine text ++ rest ∧ AtLineEnd rest := by
  refine ⟨text.dropWhile (· != '\n'), List.takeWhile_append_dropWhile.symm, ?_⟩
  intro c hc
  have hstop := List.head?_dropWhile_not (· != '\n') text
  rw [Option.mem_def.1 hc] at hstop
  simpa using hstop

/-- A comment lasts until the end of its line. -/
theorem splitTrailer_comment {body rest : List Char} (hbody : '\n' ∉ body) (hrest : AtLineEnd rest) :
    splitTrailer true (body ++ rest) = (body, rest) := by
  induction body with
  | nil =>
    cases rest with
    | nil => rfl
    | cons c others =>
      obtain rfl := hrest c rfl
      rfl
  | cons c body ih =>
    obtain ⟨hc, hothers⟩ := not_or.1 (fun h => hbody (List.mem_cons.2 h))
    simp [splitTrailer, Ne.symm hc, ih hothers]

/-- The rest of a line that is nothing but a trailer is passed whole. -/
theorem splitTrailer_of_trailer {line rest : List Char} (hline : Trailer line) (hrest : AtLineEnd rest) :
    splitTrailer false (line ++ rest) = (line, rest) := by
  induction hline with
  | nil =>
    cases rest with
    | nil => rfl
    | cons c others =>
      obtain rfl := hrest c rfl
      rfl
  | @blank c others hc hline h ih =>
    have hcomment : c ≠ ';' := by
      rintro rfl
      cases hc
    simp [splitTrailer, hc, hline, hcomment, ih]
  | comment hbody => simp [splitTrailer, splitTrailer_comment hbody hrest]

/-- What is passed on the rest of a line is a trailer, and it is as long as it can be. -/
theorem splitTrailer_spec (text : List Char) :
    Trailer (splitTrailer false text).1 ∧
      ∀ c ∈ (splitTrailer false text).2.head?, c = '\n' ∨ isBlank c = false ∧ c ≠ ';' := by
  induction text with
  | nil => exact ⟨.nil, by simp [splitTrailer]⟩
  | cons c rest ih =>
    by_cases hnewline : c = '\n'
    · subst hnewline
      exact ⟨.nil, by simp [splitTrailer]⟩
    · by_cases hcomment : c = ';'
      · subst hcomment
        -- a comment takes the rest of its line, so the induction is not needed for it
        obtain ⟨others, hrest, hends⟩ := exists_currentLine_append rest
        have hbody : '\n' ∉ currentLine rest := fun h => by simpa using List.mem_takeWhile_imp h
        have hsplit : splitTrailer false (';' :: rest) = (';' :: currentLine rest, others) := by
          have hinside := splitTrailer_comment hbody hends
          rw [← hrest] at hinside
          simp [splitTrailer, hinside]
        rw [hsplit]
        exact ⟨.comment hbody, fun d hd => .inl (hends d hd)⟩
      · by_cases hblank : isBlank c = true
        · have hsplit : splitTrailer false (c :: rest) =
              (c :: (splitTrailer false rest).1, (splitTrailer false rest).2) := by
            simp [splitTrailer, hnewline, hcomment, hblank]
          rw [hsplit]
          exact ⟨.blank hblank hnewline ih.1, ih.2⟩
        · have hsplit : splitTrailer false (c :: rest) = ([], c :: rest) := by
            simp [splitTrailer, hnewline, hcomment, hblank]
          rw [hsplit]
          refine ⟨.nil, ?_⟩
          intro d hd
          cases hd
          exact .inr ⟨by simpa using hblank, hcomment⟩

end Text

namespace Cursor

theorem atLineEnd_iff (c : Cursor) : c.atLineEnd = true ↔ Text.AtLineEnd c.rest := by
  unfold atLineEnd Text.AtLineEnd
  cases c.rest <;> simp

/-- The line ends behind its trailer exactly when the trailer is all that is left of it. -/
theorem atLineEnd_skipTrailer_iff (c : Cursor) :
    c.skipTrailer.atLineEnd = true ↔ Text.Trailer (Text.currentLine c.rest) := by
  obtain ⟨htrailer, -⟩ := Text.splitTrailer_spec c.rest
  rw [atLineEnd_iff]
  constructor
  · intro hends
    have hline := Text.currentLine_append htrailer.newline_notMem hends
    rw [show c.skipTrailer.rest = (Text.splitTrailer false c.rest).2 from rfl,
      Text.splitTrailer_append] at hline
    rwa [hline]
  · intro hline
    obtain ⟨rest, hrest, hends⟩ := Text.exists_currentLine_append c.rest
    have hsplit := Text.splitTrailer_of_trailer hline hends
    rw [← hrest] at hsplit
    show Text.AtLineEnd (Text.splitTrailer false c.rest).2
    rwa [hsplit]

/-! ## The text of a form -/

/-- A token is taken alike before any text that ends runs where the old one did. -/
theorem next_before {c after : Cursor} {token : Token} (h : c.next = (.ok (some token), after))
    {passed rest : List Char} (hpassed : c.rest = passed ++ after.rest)
    (hrest : Terminated after.rest → Terminated rest) :
    { c with rest := passed ++ rest }.next = (.ok (some token), { after with rest := rest }) := by
  obtain ⟨first, others, hsolid, hscan, hafter, -⟩ := scan_of_next h
  rw [hafter] at hrest hpassed
  have hsame : Token.scan first ((Token.scanAfter first others).lexeme ++ rest) =
      (Token.scan first others).before rest := by
    rw [Token.scan, Token.scanAfter_before hscan hrest]
    rfl
  -- what is passed is the layout and the lexeme
  have hlayout : passed = (Text.splitLayout false c.rest).1 ++ (Token.scan first others).lexeme := by
    have happend := Text.splitLayout_append false c.rest
    rw [show (Text.splitLayout false c.rest).2 = first :: others from hsolid,
      ← Token.lexeme_append_rest first others, ← List.append_assoc] at happend
    exact (List.append_cancel_right (happend.trans hpassed)).symm
  have htext : passed ++ rest = (Text.splitLayout false c.rest).1 ++
      first :: ((Token.scanAfter first others).lexeme ++ rest) := by
    rw [hlayout, List.append_assoc]
    rfl
  have hback := Text.splitLayout_swap hsolid ((Token.scanAfter first others).lexeme ++ rest)
  rw [← htext] at hback
  have hfront : (Text.splitLayout false (passed ++ rest)).1 = (Text.splitLayout false c.rest).1 := by
    have happend := Text.splitLayout_append false (passed ++ rest)
    rw [hback] at happend
    exact List.append_cancel_right (happend.trans htext)
  have hskip : { c with rest := passed ++ rest }.skipLayout =
      { c.skipLayout with rest := first :: ((Token.scanAfter first others).lexeme ++ rest) } := by
    simp only [skipLayout, hback, hfront]
  rw [next, takeToken, hsolid] at h
  rw [next, hskip, takeToken]
  dsimp only at h ⊢
  rw [hsame]
  obtain ⟨hresult, rfl⟩ := Prod.mk.inj h
  exact Prod.ext hresult rfl

/-- A form is read alike when the text ends behind it. -/
theorem readForm_cut {stack : List Frame} {c after : Cursor} {v : Value}
    (h : c.readForm stack = (.ok (some v), after)) {passed : List Char}
    (hpassed : c.rest = passed ++ after.rest) :
    { c with rest := passed }.readForm stack = (.ok (some v), { after with rest := [] }) := by
  fun_induction readForm stack c generalizing passed with
  | case1 stack c e last hnext => cases h
  | case2 stack c last hnext => cases stack <;> cases h
  | case3 stack c token last hnext e hstep => cases h
  | case4 stack c token last hnext form hstep =>
    cases h
    have hcut := next_before hnext hpassed (fun _ => Text.terminated_nil)
    rw [List.append_nil] at hcut
    rw [readForm_of_next_some stack hcut]
    dsimp only
    rw [hstep]
  | case5 stack c token last hnext inner hstep ih =>
    -- the text of the form is that of this token and of those behind it
    obtain ⟨front, hfront, -⟩ := leads_of_next hnext
    obtain ⟨others, hothers, -⟩ := last.leads_readForm inner
    rw [h] at hothers
    dsimp only at hothers
    obtain rfl : passed = front ++ others := by
      rw [hfront, hothers, ← List.append_assoc] at hpassed
      exact (List.append_cancel_right hpassed).symm
    have hterminated : Terminated last.rest → Terminated others := by
      rw [hothers]
      cases others with
      | nil => exact fun _ => Text.terminated_nil
      | cons d others => exact id
    rw [readForm_of_next_some stack (next_before hnext hfront hterminated)]
    dsimp only
    rw [hstep]
    exact ih h hothers

/-- The text of a form, read alone, gives the form and leaves nothing. -/
theorem readForm_alone {c after : Cursor} {v : Value} (h : c.readForm [] = (.ok (some v), after)) :
    ∃ written, c.skipLayout.rest = written ++ after.rest ∧
      ((ofList written).readForm []).1 = .ok (some v) ∧ ((ofList written).readForm []).2.rest = [] := by
  have hnext : c.skipLayout.next = c.next := next_skipLayout c
  rw [← readForm_eq_of_next_eq [] hnext] at h
  obtain ⟨written, hwritten, -⟩ := c.skipLayout.leads_readForm []
  rw [h] at hwritten
  have hcut := readForm_cut h hwritten
  obtain ⟨hresult, hrest⟩ := readForm_congr
    (rfl : { c.skipLayout with rest := written }.rest = (ofList written).rest)
    (rfl : ([] : List Frame).map Frame.outline = [].map Frame.outline)
  rw [hcut] at hresult hrest
  exact ⟨written, hwritten, ReadError.faultOf_eq_ok.1 hresult.symm, hrest.symm⟩

/-! ## Later reads -/

/-- Where the cursor stands when the given number of forms was read and no trailer was passed. -/
def afterForms (c : Cursor) : Nat → Cursor
  | 0 => c
  | n + 1 => ((c.afterForms n).readForm []).2

/-- What a read finds is told by what stands behind the layout. -/
theorem readForm_eq_of_skipLayout {c d : Cursor} (h : c.skipLayout = d.skipLayout) :
    c.readForm [] = d.readForm [] :=
  readForm_eq_of_next_eq [] (by rw [next, h, next])

theorem read_fst (c : Cursor) : c.read.1 = (c.readForm []).1 := by
  unfold read
  split
  · next hform => rw [hform]
  · rfl

theorem skipLayout_read (c : Cursor) : c.read.2.skipLayout = (c.readForm []).2.skipLayout := by
  unfold read
  split
  · next hform => rw [hform, skipLayout_skipTrailer]
  · rfl

/-- Reads go on alike from cursors that differ by layout, whether trailers are passed or not. -/
theorem skipLayout_afterReads {c d : Cursor} (h : c.skipLayout = d.skipLayout) (k : Nat) :
    (c.afterReads k).skipLayout = (d.afterForms k).skipLayout := by
  induction k with
  | zero => exact h
  | succ k ih =>
    show (c.afterReads k).read.2.skipLayout = ((d.afterForms k).readForm []).2.skipLayout
    rw [skipLayout_read, readForm_eq_of_skipLayout ih]

/-- Every read finds what it would find if no trailer had ever been passed. -/
theorem read_afterReads {c d : Cursor} (h : c.skipLayout = d.skipLayout) (k : Nat) :
    (c.afterReads k).read.1 = ((d.afterForms k).readForm []).1 := by
  rw [read_fst, readForm_eq_of_skipLayout (skipLayout_afterReads h k)]

/-- A read that gives a form stops where a prompt may stand. Behind the text of the form it passes a trailer, which
has no newline, and the next character, if there is one, is a newline or neither a blank nor the start of a comment.
The line ends there exactly when nothing but a trailer stood on it behind the form. Later reads give the same forms
and the same errors, locations included, as if this trailer, or all of them, had been left in place. -/
theorem read_stops_behind_trailer {text : String} {n : Nat} {v : Value}
    (h : ((ofString text).afterReads n).read.1 = .ok (some v)) :
    let start := (ofString text).afterReads n
    let stopped := start.read.2
    ∃ written behind trailer,
      start.readForm [] = (.ok (some v), behind) ∧ start.skipLayout.rest = written ++ behind.rest ∧
      ((ofList written).readForm []).1 = .ok (some v) ∧ ((ofList written).readForm []).2.rest = [] ∧
      behind.rest = trailer ++ stopped.rest ∧ stopped.position = behind.position.advance trailer ∧
      Text.Trailer trailer ∧ '\n' ∉ trailer ∧
      (∀ c ∈ stopped.rest.head?, c = '\n' ∨ Text.isBlank c = false ∧ c ≠ ';') ∧
      (stopped.atLineEnd = true ↔ Text.Trailer (Text.currentLine behind.rest)) ∧
      ∀ k, (stopped.afterReads k).read.1 = (behind.afterReads k).read.1 ∧
        (stopped.afterReads k).read.1 = ((behind.afterForms k).readForm []).1 := by
  intro start stopped
  obtain ⟨behind, hform, hstopped⟩ := exists_readForm_of_read_some
    (Prod.ext h rfl : start.read = (.ok (some v), stopped))
  obtain ⟨written, hwritten, hresult, hrest⟩ := readForm_alone hform
  obtain ⟨htrailer, hnext⟩ := Text.splitTrailer_spec behind.rest
  refine ⟨written, behind, (Text.splitTrailer false behind.rest).1, hform, hwritten, hresult, hrest, ?_⟩
  rw [hstopped]
  refine ⟨(Text.splitTrailer_append false behind.rest).symm, rfl, htrailer, htrailer.newline_notMem, hnext,
    behind.atLineEnd_skipTrailer_iff, ?_⟩
  intro k
  have hlater := read_afterReads behind.skipLayout_skipTrailer k
  exact ⟨hlater.trans (read_afterReads rfl k).symm, hlater⟩

/-- A vector over two lines that ends with a carriage return, a comma and a comment behind it: the line is used up,
and the next read finds the bracket on the line below. -/
theorem read_stops_behind_trailer_commented :
    let text := "x [\\;\n1]\r, ; ) \"\n)"
    let start := (ofString text).afterReads 1
    ∃ v, v.print = "[\\; 1]" ∧ start.read.1 = .ok (some v) ∧
      (∃ behind, start.readForm [] = (.ok (some v), behind) ∧
        Text.Trailer (Text.currentLine behind.rest) ∧
        (behind.afterReads 0).read.1 = .error ⟨.unmatchedDelimiter ')', ⟨3, 1⟩⟩) ∧
      start.read.2.atLineEnd = true := by
  intro text start
  have hprint : start.read.1.map (Option.map Value.print) = .ok (some "[\\; 1]") := by decide +kernel
  have hends : start.read.2.atLineEnd = true := by decide +kernel
  have hlater : start.read.2.read.1 = .error ⟨.unmatchedDelimiter ')', ⟨3, 1⟩⟩ :=
    error_of_map (by decide +kernel :
      start.read.2.read.1.map (fun _ => ()) = .error ⟨.unmatchedDelimiter ')', ⟨3, 1⟩⟩)
  match hread : start.read.1, hprint with
  | .ok (some v), hprint =>
    obtain ⟨written, behind, trailer, hform, -, -, -, -, -, -, -, -, hline, hreads⟩ :=
      read_stops_behind_trailer hread
    exact ⟨v, Option.some.inj (Except.ok.inj hprint), rfl,
      ⟨behind, hform, hline.1 hends, (hreads 0).1.symm.trans hlater⟩, hends⟩

end Cursor

end SmallLisp

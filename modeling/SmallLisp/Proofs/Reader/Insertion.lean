import SmallLisp.Proofs.Reader.Grammar

/-!
# Layout between tokens means nothing

Where the cursor stops after a token, layout may be put in. Scanning looks at no more than one character after
a token, and only to see that a run ends, so a token is scanned alike before any text that ends runs where
the old one did (`scan_before`). Hence the text with the layout has the tokens of the text without it
(`tokens_of_inserted`). What is read depends on the tokens alone, the places in errors apart
(`readAll_of_same_tokens`). Main statement: `readAll_inserted_layout`.
-/

namespace SmallLisp

open Text

/-! ## One token before another text -/

/-- The layout in front of a text is skipped alike when the text goes on differently. -/
theorem Text.splitLayout_swap {inComment : Bool} {text : List Char} {first : Char} {others : List Char}
    (h : (splitLayout inComment text).2 = first :: others) (more : List Char) :
    (splitLayout inComment ((splitLayout inComment text).1 ++ first :: more)).2 = first :: more := by
  induction text generalizing inComment with
  | nil => cases h
  | cons c rest ih =>
    simp only [splitLayout] at h ⊢
    split at h
    · next hin => simp only [hin, if_true, List.cons_append, splitLayout, ih h]
    · next hin =>
      split at h
      · next hblank => simp [hin, hblank, splitLayout, ih h]
      · next hblank =>
        split at h
        · next hcomment => simp [hin, hblank, hcomment, splitLayout, ih h]
        · next hcomment =>
          cases h
          simp [hin, hblank, hcomment, splitLayout]

namespace Scan

variable {α β : Type}

/-- The same scan with another text after it. -/
def before (s : Scan α) (rest : List Char) : Scan α :=
  { s with rest := rest }

theorem exists_ok_of_map {s : Scan α} {f : α → β} {b : β} (h : (s.map f).outcome = .ok b) :
    ∃ a, s.outcome = .ok a := by
  obtain ⟨lexeme, outcome, rest⟩ := s
  cases outcome with
  | ok a => exact ⟨a, rfl⟩
  | error fault => cases h

end Scan

namespace Token

theorem ordinary_splitRun (text : List Char) : ∀ c ∈ (splitRun text).1, isTerminator c = false := by
  intro c hc
  have hordinary := List.mem_takeWhile_imp hc
  simpa using hordinary

theorem terminated_splitRun (text : List Char) : Terminated (splitRun text).2 := by
  intro c hc
  have hstop := List.head?_dropWhile_not (fun c => !isTerminator c) text
  have hhead : (text.dropWhile fun c => !isTerminator c).head? = some c := hc
  rw [hhead] at hstop
  simpa using hstop

/-- The run at the front of a text is cut off alike before any text that ends it. -/
theorem scanRun_before (text : List Char) {rest : List Char} (hrest : Terminated rest) :
    scanRun ((scanRun text).lexeme ++ rest) = (scanRun text).before rest :=
  scanRun_of_terminated (ordinary_splitRun text) hrest

/-- A string is the same before any text: its closing quote ends it. -/
theorem scanQuoted_before {text s : List Char} (h : (scanQuoted text).outcome = .ok s)
    (rest : List Char) :
    scanQuoted ((scanQuoted text).lexeme ++ rest) = (scanQuoted text).before rest := by
  fun_induction scanQuoted text generalizing s with
  | case1 => cases h
  | case2 others => rfl
  | case3 => cases h
  | case4 letter others c hletter ih =>
    obtain ⟨inner, hinner⟩ := Scan.exists_ok_of_map h
    simp only [Scan.cons, Scan.map, List.cons_append, scanQuoted, hletter, ih hinner, Scan.before]
  | case5 letter others hletter => cases h
  | case6 c others hquote hlone hescape ih =>
    obtain ⟨inner, hinner⟩ := Scan.exists_ok_of_map h
    -- a backslash with nothing after it would leave the string open
    have hc : c ≠ '\\' := by
      intro hc
      cases others with
      | nil => exact hlone hc rfl
      | cons letter others => exact hescape letter others hc rfl
    have hstep : ∀ text : List Char,
        scanQuoted (c :: text) = ((scanQuoted text).map (c :: ·)).cons c := by
      intro text
      rw [scanQuoted]
      · exact hquote
      · exact fun hslash _ => hc hslash
      · exact fun _ _ hslash _ => hc hslash
    simp only [Scan.cons, Scan.map, List.cons_append, hstep, ih hinner, Scan.before]

/-- A character token is the same before any text that ends it. -/
theorem scanCharacter_before {text : List Char} {a : Atom} (h : (scanCharacter text).outcome = .ok a)
    {rest : List Char} (hrest : Terminated rest) :
    scanCharacter ((scanCharacter text).lexeme ++ rest) = (scanCharacter text).before rest := by
  cases text with
  | nil => cases h
  | cons c others =>
    show ((scanRun ((scanRun others).lexeme ++ rest)).bind _).cons c = _
    rw [scanRun_before others hrest]
    rfl

theorem terminated_scanCharacter (text : List Char) : Terminated (scanCharacter text).rest := by
  cases text with
  | nil => exact terminated_nil
  | cons c others => exact terminated_splitRun others

/-- A dispatched token is the same before any text: its bracket ends it. -/
theorem scanDispatch_before {text : List Char} {token : Token}
    (h : (scanDispatch text).outcome = .ok token) (rest : List Char) :
    scanDispatch ((scanDispatch text).lexeme ++ rest) = (scanDispatch text).before rest := by
  unfold scanDispatch at h ⊢
  split at h
  · cases h
  · rfl
  · cases h

/-- A mark is the same mark before any text; only a run is told by what follows its first character. -/
theorem lead_of_mark {c : Char} {text : List Char} {mark : Lead} (h : lead c text = mark)
    (hnumber : mark ≠ .number) (hsymbol : mark ≠ .symbol) (rest : List Char) : lead c rest = mark := by
  have hcases : lead c text = .number ∨ lead c text = .symbol ∨ lead c rest = lead c text := by
    unfold lead
    split
    case h_11 =>
      split
      · exact .inl rfl
      · exact .inr (.inl rfl)
    all_goals exact .inr (.inr rfl)
  rw [h] at hcases
  rcases hcases with hmark | hmark | hmark
  · exact absurd hmark hnumber
  · exact absurd hmark hsymbol
  · exact hmark

theorem scanAfter_of_number {c : Char} {text : List Char} (h : lead c text = .number) :
    scanAfter c text =
      ((scanRun text).bind fun run => numberNamed (c.toString ++ run)).map .atom := by
  rw [scanAfter, h]

theorem scanAfter_of_symbol {c : Char} {text : List Char} (h : lead c text = .symbol) :
    scanAfter c text = (scanRun text).map fun run => .atom (symbolNamed (c.toString ++ run)) := by
  rw [scanAfter, h]

/-- Whether a run is a number shows in the run itself. -/
theorem lead_of_run (c : Char) (text : List Char) {rest : List Char} (hrest : Terminated rest) :
    lead c ((scanRun text).lexeme ++ rest) = lead c text := by
  have hdigit : startsWithDigit ((scanRun text).lexeme ++ rest) = startsWithDigit text := by
    rw [startsWithDigit_append hrest, ← startsWithDigit_append (terminated_splitRun text)]
    exact congrArg startsWithDigit (splitRun_append text)
  unfold lead
  rw [hdigit]

/-- A token is scanned alike before any text that ends runs where the old one did. -/
theorem scanAfter_before {c : Char} {text rest : List Char} {token : Token}
    (h : (scanAfter c text).outcome = .ok token)
    (hrest : Terminated (scanAfter c text).rest → Terminated rest) :
    scanAfter c ((scanAfter c text).lexeme ++ rest) = (scanAfter c text).before rest := by
  cases hlead : lead c text with
  -- tokens that begin with a mark do so whatever stands behind them
  | single token' =>
    have hmark := lead_of_mark hlead (by simp) (by simp)
    simp only [scanAfter, hmark]
    rfl
  | dispatch =>
    have hmark := lead_of_mark hlead (by simp) (by simp)
    simp only [scanAfter, hmark] at h ⊢
    exact scanDispatch_before h rest
  | quote =>
    have hmark := lead_of_mark hlead (by simp) (by simp)
    simp only [scanAfter, hmark] at h ⊢
    obtain ⟨s, hs⟩ := Scan.exists_ok_of_map h
    exact congrArg (Scan.map _) (scanQuoted_before hs rest)
  | backslash =>
    have hmark := lead_of_mark hlead (by simp) (by simp)
    simp only [scanAfter, hmark] at h hrest ⊢
    obtain ⟨a, ha⟩ := Scan.exists_ok_of_map h
    exact congrArg (Scan.map _) (scanCharacter_before ha (hrest (terminated_scanCharacter text)))
  | colon =>
    have hmark := lead_of_mark hlead (by simp) (by simp)
    simp only [scanAfter, hmark] at hrest ⊢
    have hrun := scanRun_before text (hrest (terminated_splitRun text))
    exact congrArg (fun run => (Scan.bind _ run).map _) hrun
  | number =>
    -- a number is told from a symbol by its run, so the run must end where it ended
    rw [scanAfter_of_number hlead] at hrest ⊢
    have hstop := hrest (terminated_splitRun text)
    have hlead' := (lead_of_run c text hstop).trans hlead
    refine (scanAfter_of_number hlead').trans ?_
    rw [scanRun_before text hstop]
    rfl
  | symbol =>
    rw [scanAfter_of_symbol hlead] at hrest ⊢
    have hstop := hrest (terminated_splitRun text)
    have hlead' := (lead_of_run c text hstop).trans hlead
    refine (scanAfter_of_symbol hlead').trans ?_
    rw [scanRun_before text hstop]
    rfl

/-- The lexeme of a token is scanned as this token before any text that ends runs where the old one did. -/
theorem scan_before {c : Char} {text rest : List Char} {token : Token}
    (h : (scan c text).outcome = .ok token) (hrest : Terminated (scan c text).rest → Terminated rest) :
    ∃ others, (scan c text).lexeme ++ rest = c :: others ∧ (scan c others).outcome = .ok token ∧
      (scan c others).rest = rest := by
  have hscan := scanAfter_before h hrest
  refine ⟨(scanAfter c text).lexeme ++ rest, rfl, ?_⟩
  rw [scan, hscan]
  exact ⟨h, rfl⟩

end Token

namespace Cursor

/-! ## The tokens of a text with more layout -/

/-- The places between the tokens of a text: where it begins, and where the cursor stops after a token. -/
inductive Stop : Cursor → Cursor → Prop where
  | here (c : Cursor) : Stop c c
  | later {c after stop : Cursor} {token : Token} (hnext : c.next = (.ok (some token), after))
      (h : Stop after stop) : Stop c stop

theorem next_skipLayout (c : Cursor) : c.skipLayout.next = c.next := by
  rw [next, skipLayout_skipLayout, next]

/-- The tokens of a text are told by what follows its layout. -/
theorem tokens_of_skipLayout {c c' : Cursor} (h : c.skipLayout.rest = c'.skipLayout.rest)
    {tokens : List Token} (htokens : c.tokens.1 = .ok tokens) : c'.tokens.1 = .ok tokens := by
  induction tokens generalizing c c' with
  | nil =>
    obtain ⟨after, hnext⟩ := next_of_tokens htokens
    rw [← next_skipLayout] at hnext
    obtain ⟨after', hnext', -⟩ := exists_next_ok h hnext
    rw [next_skipLayout] at hnext'
    rw [tokens_of_next_none hnext']
  | cons token others ih =>
    obtain ⟨after, hnext, hafter⟩ := next_of_tokens htokens
    rw [← next_skipLayout] at hnext
    obtain ⟨after', hnext', hrest⟩ := exists_next_ok h hnext
    rw [next_skipLayout] at hnext'
    rw [tokens_of_next_some hnext', ih (rest_skipLayout_congr hrest) hafter]
    rfl

/-- The token that is taken is the one scanned behind the layout. -/
theorem scan_of_next {c after : Cursor} {token : Token} (h : c.next = (.ok (some token), after)) :
    ∃ first others, c.skipLayout.rest = first :: others ∧
      (Token.scan first others).outcome = .ok token ∧ after.rest = (Token.scan first others).rest ∧
      after.position = c.skipLayout.position.advance (Token.scan first others).lexeme := by
  unfold next takeToken at h
  split at h
  · cases h
  · next first others hrest =>
    obtain ⟨hresult, hafter⟩ := Prod.mk.inj h
    refine ⟨first, others, hrest, ?_, by rw [← hafter], by rw [← hafter]⟩
    cases houtcome : (Token.scan first others).outcome with
    | error fault =>
      rw [houtcome] at hresult
      cases hresult
    | ok token' =>
      rw [houtcome] at hresult
      cases hresult
      rfl

/-- What is scanned behind the layout is the next token. -/
theorem exists_next_of_scan {c : Cursor} {first : Char} {others : List Char} {token : Token}
    (hrest : c.skipLayout.rest = first :: others) (h : (Token.scan first others).outcome = .ok token) :
    ∃ after : Cursor, c.next = (.ok (some token), after) ∧
      after.rest = (Token.scan first others).rest := by
  rw [next, takeToken, hrest]
  dsimp only
  rw [h]
  exact ⟨_, rfl, rfl⟩

/-- Layout in a stretch of text is put in without a run growing longer. -/
theorem terminated_inserted {layout : List Char} (h : Layout layout) (passed rest : List Char)
    (hrest : Terminated (passed ++ rest)) : Terminated (passed ++ (layout ++ rest)) := by
  cases passed with
  | cons c others => exact hrest
  | nil =>
    cases h with
    | nil => exact hrest
    | blank hc h => exact terminated_cons (by simp [isTerminator, hc]) _
    | comment hbody h => exact terminated_cons (by decide) _

/-- Where the cursor stops after some tokens, layout may be put in and the tokens stay the same. -/
theorem tokens_of_inserted {c stop : Cursor} (h : Stop c stop) :
    ∃ passed, c.rest = passed ++ stop.rest ∧ stop.position = c.position.advance passed ∧
      ∀ layout, Layout layout → ∀ c' : Cursor, c'.rest = passed ++ (layout ++ stop.rest) →
        ∀ tokens, c.tokens.1 = .ok tokens → c'.tokens.1 = .ok tokens := by
  induction h with
  | here c =>
    refine ⟨[], rfl, rfl, ?_⟩
    intro layout hlayout c' hc' tokens htokens
    have hskip : c.skipLayout.rest = c'.skipLayout.rest := by
      simp only [skipLayout, hc', List.nil_append, splitLayout_layout hlayout]
    exact tokens_of_skipLayout hskip htokens
  | @later c after stop token hnext hstop ih =>
    obtain ⟨passed, hafter, hposition, htokens⟩ := ih
    obtain ⟨first, others, hsolid, hscan, hrest, hadvance⟩ := scan_of_next hnext
    -- what is passed is the layout, the token, and what is passed from there on
    refine ⟨(splitLayout false c.rest).1 ++ ((Token.scan first others).lexeme ++ passed), ?_, ?_, ?_⟩
    · rw [List.append_assoc, List.append_assoc, ← hafter, hrest, Token.lexeme_append_rest, ← hsolid]
      exact (splitLayout_append false c.rest).symm
    · rw [hposition, hadvance, Position.advance_append, Position.advance_append]
      rfl
    · intro layout hlayout c' hc' tokens hc
      have hstop : Terminated (Token.scan first others).rest →
          Terminated (passed ++ (layout ++ stop.rest)) := by
        rw [← hrest, hafter]
        exact terminated_inserted hlayout passed stop.rest
      obtain ⟨others', hlexeme, hscan', hrest'⟩ := Token.scan_before hscan hstop
      have hskip : c'.skipLayout.rest = first :: others' := by
        rw [List.append_assoc, List.append_assoc, hlexeme] at hc'
        rw [skipLayout, hc']
        exact splitLayout_swap hsolid others'
      obtain ⟨after', hnext', hafter'⟩ := exists_next_of_scan hskip hscan'
      rw [hrest'] at hafter'
      -- the first token is the same, and the others are those of the text behind it
      rw [tokens_of_next_some hnext] at hc
      rw [tokens_of_next_some hnext']
      cases hothers : after.tokens.1 with
      | error e =>
        rw [hothers] at hc
        cases hc
      | ok following => rw [htokens layout hlayout after' hafter' following hothers, ← hothers, hc]

/-! ## Forms of one token list -/

/-- Reading the same tokens with stacks of one outline gives the same form or fault, and a form leaves the
same tokens. -/
theorem readForm_of_same_tokens {stack stack' : List Frame} {c c' : Cursor} {tokens : List Token}
    (hstack : stack.map Frame.outline = stack'.map Frame.outline) (h : c.tokens.1 = .ok tokens)
    (h' : c'.tokens.1 = .ok tokens) :
    ReadError.faultOf (c.readForm stack).1 = ReadError.faultOf (c'.readForm stack').1 ∧
      ∀ form, (c.readForm stack).1 = .ok (some form) →
        ∃ rest, (c.readForm stack).2.tokens.1 = .ok rest ∧ (c'.readForm stack').2.tokens.1 = .ok rest := by
  induction tokens generalizing stack stack' c c' with
  | nil =>
    obtain ⟨after, hnext⟩ := next_of_tokens h
    obtain ⟨after', hnext'⟩ := next_of_tokens h'
    rw [readForm_of_next_none stack hnext, readForm_of_next_none stack' hnext']
    -- no token is left, so there is no form
    refine ⟨Progress.finish_congr hstack, ?_⟩
    intro form hform
    cases stack <;> cases hform
  | cons token others ih =>
    obtain ⟨after, hnext, hafter⟩ := next_of_tokens h
    obtain ⟨after', hnext', hafter'⟩ := next_of_tokens h'
    -- the same token meets stacks of one outline
    have houtcome := Progress.step_congr hstack token after.tokenStart after'.tokenStart
    rw [readForm_of_next_some stack hnext, readForm_of_next_some stack' hnext']
    match hstep : Progress.step stack token after.tokenStart with
    | .error e =>
      obtain ⟨e', hstep', hfault⟩ := Progress.exists_of_outcome_error houtcome hstep
      rw [hstep']
      refine ⟨congrArg Except.error hfault.symm, ?_⟩
      intro form hform
      cases hform
    | .ok (.done form) =>
      rw [Progress.eq_done_of_outcome houtcome hstep]
      exact ⟨rfl, fun _ _ => ⟨others, hafter, hafter'⟩⟩
    | .ok (.reading inner) =>
      obtain ⟨inner', hstep', hinner⟩ := Progress.exists_of_outcome_reading houtcome hstep
      rw [hstep']
      exact ih hinner hafter hafter'

/-- Texts with the same tokens are read alike, and what is left has the same tokens again. -/
theorem read_of_same_tokens {c c' : Cursor} {tokens : List Token} (h : c.tokens.1 = .ok tokens)
    (h' : c'.tokens.1 = .ok tokens) :
    ReadError.faultOf c.read.1 = ReadError.faultOf c'.read.1 ∧
      ∀ form, c.read.1 = .ok (some form) →
        ∃ rest, c.read.2.tokens.1 = .ok rest ∧ c'.read.2.tokens.1 = .ok rest := by
  obtain ⟨hresult, hrest⟩ :=
    readForm_of_same_tokens (rfl : ([] : List Frame).map Frame.outline = [].map Frame.outline) h h'
  unfold read
  rcases hread : c.readForm [] with ⟨result, after⟩
  rcases hread' : c'.readForm [] with ⟨result', after'⟩
  rw [hread, hread'] at hresult hrest
  match result with
  | .error e =>
    obtain ⟨e', rfl, hfault⟩ := ReadError.exists_of_faultOf_eq_error hresult.symm
    exact ⟨hresult, nofun⟩
  | .ok none =>
    obtain rfl := ReadError.faultOf_eq_ok.1 hresult.symm
    exact ⟨rfl, nofun⟩
  | .ok (some form) =>
    obtain rfl := ReadError.faultOf_eq_ok.1 hresult.symm
    refine ⟨rfl, ?_⟩
    intro _ _
    -- the rest of the line that is skipped after a form holds no token
    rw [tokens_skipTrailer, tokens_skipTrailer]
    exact hrest form rfl

/-- The first error ends the reading of all forms. -/
theorem readAll_of_read_error {c after : Cursor} {e : ReadError} (h : c.read = (.error e, after)) :
    c.readAll = .error e := by
  rw [readAll]
  split <;> simp_all

/-- Texts with the same tokens read as the same forms, or fail alike. -/
theorem readAll_of_same_tokens {c c' : Cursor} {tokens : List Token} (h : c.tokens.1 = .ok tokens)
    (h' : c'.tokens.1 = .ok tokens) :
    ReadError.faultOf c.readAll = ReadError.faultOf c'.readAll := by
  fun_induction readAll c generalizing c' tokens with
  | case1 c e after hread =>
    obtain ⟨hresult, -⟩ := read_of_same_tokens h h'
    rw [hread] at hresult
    obtain ⟨e', he', hfault⟩ := ReadError.exists_of_faultOf_eq_error hresult.symm
    have hread' : c'.read = (.error e', c'.read.2) := Prod.ext he' rfl
    rw [readAll_of_read_error hread']
    exact congrArg Except.error hfault.symm
  | case2 c after hread =>
    obtain ⟨hresult, -⟩ := read_of_same_tokens h h'
    rw [hread] at hresult
    have hread' : c'.read = (.ok none, c'.read.2) :=
      Prod.ext (ReadError.faultOf_eq_ok.1 hresult.symm) rfl
    rw [readAll_of_read_none hread']
  | case3 c form after hread ih =>
    obtain ⟨hresult, hrest⟩ := read_of_same_tokens h h'
    rw [hread] at hresult hrest
    have hread' : c'.read = (.ok (some form), c'.read.2) :=
      Prod.ext (ReadError.faultOf_eq_ok.1 hresult.symm) rfl
    -- behind the form both texts have the same tokens again
    obtain ⟨rest, hafter, hafter'⟩ := hrest form rfl
    rw [readAll_of_read_some hread', ReadError.faultOf_map, ReadError.faultOf_map,
      ih hafter hafter']

end Cursor

/-! ## Texts -/

/-- Offsets count the bytes of the characters that were passed. -/
theorem Text.Position.offset_advance (p : Position) (text : List Char) :
    (p.advance text).offset = p.offset + (String.ofList text).utf8ByteSize := by
  induction text generalizing p with
  | nil => rfl
  | cons c rest ih =>
    have hstep : (p.step c).offset = p.offset + c.utf8Size := by
      unfold step
      split <;> rfl
    show ((p.step c).advance rest).offset = _
    rw [ih, hstep, String.ofList_cons, String.utf8ByteSize_append, String.utf8ByteSize_singleton]
    omega

namespace Value

/-- Where a text begins, or where the cursor stops after one of its tokens, layout may be put in: the tokens
stay the same, and so do the forms, or the fault of the text. -/
theorem readAll_inserted_layout {text : String} {tokens : List Token} {stop : Cursor}
    (htokens : (Cursor.ofString text).tokens.1 = .ok tokens)
    (hstop : Cursor.Stop (Cursor.ofString text) stop) :
    ∃ before rest : String, text = before ++ rest ∧ before.utf8ByteSize = stop.position.offset ∧
      ∀ layout : String, Layout layout.toList →
        (Cursor.ofString (before ++ layout ++ rest)).tokens.1 = .ok tokens ∧
        ReadError.faultOf (readAll (before ++ layout ++ rest)) = ReadError.faultOf (readAll text) := by
  obtain ⟨passed, hrest, hposition, hinserted⟩ := Cursor.tokens_of_inserted hstop
  have htext : text.toList = passed ++ stop.rest := hrest
  refine ⟨String.ofList passed, String.ofList stop.rest, ?_, ?_, ?_⟩
  · rw [← String.ofList_append, ← htext, String.ofList_toList]
  · rw [hposition, Position.offset_advance]
    exact (Nat.zero_add _).symm
  · intro layout hlayout
    have hsame : (Cursor.ofString (String.ofList passed ++ layout ++ String.ofList stop.rest)).tokens.1 =
        .ok tokens := by
      apply hinserted layout.toList hlayout _ _ tokens htokens
      simp [Cursor.ofString, Cursor.ofList]
    exact ⟨hsame, Cursor.readAll_of_same_tokens hsame htokens⟩

/-- A sign that is a name because a bracket follows it, a semicolon that starts no comment, and a vector that
is left open: behind the semicolon any layout may stand. -/
theorem readAll_inserted_layout_open_vector :
    let text := "-[\\;:k"
    let tokens : List Token :=
      [.atom (.symbol "-"), .opening .vector, .atom (.char ';'), .atom (.keyword "k")]
    let stop : Cursor := ⟨":k".toList, ⟨1, 5, 4⟩, ⟨1, 3⟩⟩
    (Cursor.ofString text).tokens.1 = .ok tokens ∧ Cursor.Stop (Cursor.ofString text) stop ∧
      Layout "; ]\n,".toList ∧
      ∃ before rest : String, text = before ++ rest ∧ before.utf8ByteSize = stop.position.offset ∧
        ∀ layout : String, Layout layout.toList →
          (Cursor.ofString (before ++ layout ++ rest)).tokens.1 = .ok tokens ∧
          ReadError.faultOf (readAll (before ++ layout ++ rest)) =
            ReadError.faultOf (readAll text) := by
  intro text tokens stop
  have htokens : (Cursor.ofString text).tokens.1 = .ok tokens := by decide +kernel
  have hsign : (Cursor.ofString text).next =
      (.ok (some (.atom (.symbol "-"))), ⟨"[\\;:k".toList, ⟨1, 2, 1⟩, ⟨1, 1⟩⟩) := by
    decide +kernel
  have hopening : Cursor.next ⟨"[\\;:k".toList, ⟨1, 2, 1⟩, ⟨1, 1⟩⟩ =
      (.ok (some (.opening .vector)), ⟨"\\;:k".toList, ⟨1, 3, 2⟩, ⟨1, 2⟩⟩) := by
    decide +kernel
  have hchar : Cursor.next ⟨"\\;:k".toList, ⟨1, 3, 2⟩, ⟨1, 2⟩⟩ =
      (.ok (some (.atom (.char ';'))), stop) := by
    decide +kernel
  have hstop : Cursor.Stop (Cursor.ofString text) stop :=
    .later hsign (.later hopening (.later hchar (.here stop)))
  have hlayout : Layout "; ]\n,".toList :=
    @Layout.comment [' ', ']'] [','] (by decide) (.blank (by decide) .nil)
  exact ⟨htokens, hstop, hlayout, readAll_inserted_layout htokens hstop⟩

end Value

end SmallLisp

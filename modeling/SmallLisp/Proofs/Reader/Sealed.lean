import SmallLisp.Proofs.Reader.Outline
import SmallLisp.Proofs.Text.Layout
import SmallLisp.Proofs.Text.Sealed

/-!
# Reading a sealed text before more text

A form or a fault that is found in a sealed text is found there also when more text follows, with the
same characters consumed; only a text that ended inside something, or held no form at all, is read
differently. `Cursor.extend` puts more text behind the unread one. Main statements: `readForm_extend` for
what was found, and `read_extend_of_none` for a text of layout alone.
-/

namespace SmallLisp

open Text (Sealed)

/-! ## Tokens -/

/-- Whether a fault says that the text ended inside something. -/
def ReadFault.isEnd : ReadFault → Bool
  | .unexpectedEnd _ => true
  | _ => false

namespace Scan

variable {α β : Type}

/-- The scan did not run into the end of the text. -/
def Settled (s : Scan α) : Prop :=
  ∀ fault, s.outcome = .error fault → fault.isEnd = false

/-- The same scan with more text behind it. -/
def extend (s : Scan α) (more : List Char) : Scan α :=
  { s with rest := s.rest ++ more }

theorem Settled.of_map {s : Scan α} {f : α → β} (h : (s.map f).Settled) : s.Settled := by
  intro fault hfault
  exact h fault (by simp [map, hfault, Except.map])

theorem Settled.of_cons {s : Scan α} {c : Char} (h : (s.cons c).Settled) : s.Settled := h

end Scan

namespace Token

/-- A run in a sealed text is the same before more text. -/
theorem scanRun_extend {text : List Char} (h : Sealed text) (more : List Char) :
    scanRun (text ++ more) = (scanRun text).extend more := by
  simp only [scanRun, Scan.extend,
    Text.splitRun_append_of_ne_nil (Text.splitRun_ne_nil_of_sealed h) more]

/-- A run in a sealed text leaves the newline at least. -/
theorem scanRun_rest_ne_nil {text : List Char} (h : Sealed text) : (scanRun text).rest ≠ [] :=
  Text.splitRun_ne_nil_of_sealed h

/-- A string that is closed, or faulty, is so before the last newline of a sealed text. -/
theorem scanQuoted_extend {text : List Char} (h : Sealed text) (hsettled : (scanQuoted text).Settled)
    (more : List Char) :
    scanQuoted (text ++ more) = (scanQuoted text).extend more ∧ (scanQuoted text).rest ≠ [] := by
  fun_induction scanQuoted text with
  | case1 => exact absurd rfl h.ne_nil
  | case2 rest => exact ⟨by simp [scanQuoted, Scan.extend], h.ne_nil_of_cons (by decide)⟩
  | case3 => exact absurd (hsettled _ rfl) (by decide)
  | case4 letter rest c hletter ih =>
    have hrest : Sealed rest :=
      (h.of_cons (List.cons_ne_nil _ _)).of_cons (h.ne_nil_of_cons_cons (.inl rfl))
    obtain ⟨happend, hne⟩ := ih hrest hsettled.of_cons.of_cons.of_map
    refine ⟨?_, hne⟩
    simp only [List.cons_append, scanQuoted, hletter, happend]
    rfl
  | case5 letter rest hletter =>
    refine ⟨?_, h.ne_nil_of_cons_cons (.inl rfl)⟩
    simp only [List.cons_append, scanQuoted, hletter]
    rfl
  | case6 c rest hquote hbackslash hescape ih =>
    -- the newline may be this very character, but then the string is still open behind it
    have hne : rest ≠ [] := by
      rintro rfl
      exact absurd (hsettled _ rfl) (by decide)
    have hc : c ≠ '\\' := by
      intro hc
      obtain ⟨letter, others, rfl⟩ := List.exists_cons_of_ne_nil hne
      exact hescape letter others hc rfl
    obtain ⟨happend, hrest⟩ := ih (h.of_cons hne) hsettled.of_cons.of_map
    refine ⟨?_, hrest⟩
    rw [List.cons_append, scanQuoted, happend]
    · rfl
    · exact hquote
    · exact fun hslash _ => hc hslash
    · exact fun _ _ hslash _ => hc hslash

/-- A character token stays the same: a sealed text does not end behind its backslash. -/
theorem scanCharacter_extend {text : List Char} (h : Sealed ('\\' :: text))
    (hsettled : (scanCharacter text).Settled) (more : List Char) :
    scanCharacter (text ++ more) = (scanCharacter text).extend more ∧
      (scanCharacter text).rest ≠ [] := by
  cases text with
  | nil => exact absurd (hsettled _ rfl) (by decide)
  | cons c rest =>
    have hrest : Sealed rest :=
      (h.of_cons (List.cons_ne_nil _ _)).of_cons (h.ne_nil_of_cons_cons (.inl rfl))
    refine ⟨?_, scanRun_rest_ne_nil hrest⟩
    simp only [List.cons_append, scanCharacter, scanRun_extend hrest more]
    rfl

/-- A dispatched token stays the same: a sealed text does not end behind its mark. -/
theorem scanDispatch_extend {text : List Char} (h : Sealed ('#' :: text))
    (hsettled : (scanDispatch text).Settled) (more : List Char) :
    scanDispatch (text ++ more) = (scanDispatch text).extend more ∧
      (scanDispatch text).rest ≠ [] := by
  cases text with
  | nil => exact absurd (hsettled _ rfl) (by decide)
  | cons c rest =>
    have hrest : rest ≠ [] := h.ne_nil_of_cons_cons (.inr rfl)
    by_cases hc : c = '\x7b'
    · subst hc
      exact ⟨rfl, hrest⟩
    · simp only [List.cons_append, scanDispatch, Scan.extend]
      exact ⟨trivial, hrest⟩

/-- The kind of a token is told by its first character and what stands right behind it. -/
theorem lead_extend {c : Char} {rest : List Char} (h : rest ≠ []) (more : List Char) :
    lead c (rest ++ more) = lead c rest := by
  cases rest with
  | nil => exact absurd rfl h
  | cons d rest => rfl

theorem eq_of_lead_dispatch {c : Char} {rest : List Char} (h : lead c rest = .dispatch) : c = '#' := by
  unfold lead at h
  split at h <;> grind

theorem eq_of_lead_backslash {c : Char} {rest : List Char} (h : lead c rest = .backslash) :
    c = '\\' := by
  unfold lead at h
  split at h <;> grind

/-- A token that did not run into the end of a sealed text is the same before more text. -/
theorem scanAfter_extend {c : Char} {rest : List Char} (h : Sealed (c :: rest)) (hc : c ≠ '\n')
    (hsettled : (scanAfter c rest).Settled) (more : List Char) :
    scanAfter c (rest ++ more) = (scanAfter c rest).extend more ∧
      (scanAfter c rest).rest ≠ [] := by
  have hne : rest ≠ [] := h.ne_nil_of_cons hc
  have hrest : Sealed rest := h.of_cons hne
  unfold scanAfter at hsettled ⊢
  rw [lead_extend hne more]
  cases hlead : lead c rest with
  | single token => exact ⟨rfl, hne⟩
  | dispatch =>
    simp only [hlead] at hsettled
    obtain rfl := eq_of_lead_dispatch hlead
    exact scanDispatch_extend h hsettled more
  | quote =>
    simp only [hlead] at hsettled
    obtain ⟨happend, hne⟩ := scanQuoted_extend hrest hsettled.of_map more
    exact ⟨by simp only [happend]; rfl, hne⟩
  | backslash =>
    simp only [hlead] at hsettled
    obtain rfl := eq_of_lead_backslash hlead
    obtain ⟨happend, hne⟩ := scanCharacter_extend h hsettled.of_map more
    exact ⟨by simp only [happend]; rfl, hne⟩
  | colon =>
    exact ⟨by simp only [scanRun_extend hrest more]; rfl, scanRun_rest_ne_nil hrest⟩
  | number =>
    exact ⟨by simp only [scanRun_extend hrest more]; rfl, scanRun_rest_ne_nil hrest⟩
  | symbol =>
    exact ⟨by simp only [scanRun_extend hrest more]; rfl, scanRun_rest_ne_nil hrest⟩

/-- A token of a sealed text is the same before more text, unless the text is too short for it. -/
theorem scan_extend {c : Char} {rest : List Char} (h : Sealed (c :: rest)) (hc : c ≠ '\n')
    (hsettled : (scan c rest).Settled) (more : List Char) :
    scan c (rest ++ more) = (scan c rest).extend more ∧ (scan c rest).rest ≠ [] := by
  obtain ⟨happend, hne⟩ := scanAfter_extend h hc hsettled.of_cons more
  exact ⟨by rw [scan, happend]; rfl, hne⟩

end Token

namespace Cursor

/-! ## Cursors -/

/-- The same cursor with more text behind the unread one. -/
def extend (c : Cursor) (more : List Char) : Cursor :=
  { c with rest := c.rest ++ more }

@[simp]
theorem rest_extend (c : Cursor) (more : List Char) : (c.extend more).rest = c.rest ++ more := rfl

theorem extend_ofList (text more : List Char) : (ofList text).extend more = ofList (text ++ more) :=
  rfl

/-- More text does not change the layout in front of a token. -/
theorem skipLayout_extend {c : Cursor} (h : c.skipLayout.rest ≠ []) (more : List Char) :
    (c.extend more).skipLayout = c.skipLayout.extend more := by
  have hsplit := Text.splitLayout_append_of_ne_nil h more
  simp only [skipLayout, extend, hsplit]

/-- What follows the layout of a sealed text is sealed. -/
theorem sealed_rest_skipLayout {c : Cursor} (h : Sealed c.rest) (hne : c.skipLayout.rest ≠ []) :
    Sealed c.skipLayout.rest := by
  rw [← Text.splitLayout_append false c.rest] at h
  exact h.of_append hne

/-- A token, or a fault that more text cannot mend, is found in a sealed text also before more text, and
the text behind it is sealed. -/
theorem next_extend {c : Cursor} (h : Sealed c.rest) (hsome : c.next.1 ≠ .ok none)
    (hsettled : ∀ e, c.next.1 = .error e → e.isIncomplete = false) (more : List Char) :
    (c.extend more).next = (c.next.1, c.next.2.extend more) ∧ Sealed c.next.2.rest := by
  have hne : c.skipLayout.rest ≠ [] := by
    intro hnil
    apply hsome
    simp only [next, takeToken, hnil]
  have hsealed := sealed_rest_skipLayout h hne
  obtain ⟨first, others, hfirst⟩ := List.exists_cons_of_ne_nil hne
  rw [hfirst] at hsealed
  -- a newline would have been skipped with the layout
  have hnewline : first ≠ '\n' := by
    rintro rfl
    have hsolid : Text.Solid c.skipLayout.rest := Text.solid_splitLayout false c.rest
    rw [hfirst] at hsolid
    exact absurd (hsolid '\n' rfl).1 (by decide)
  have hscan : (Token.scan first others).Settled := by
    intro fault hfault
    have herror : c.next.1 = .error ⟨fault, c.skipLayout.tokenStart⟩ := by
      simp only [next, takeToken, hfirst, hfault]
      rfl
    have hincomplete := hsettled _ herror
    cases fault <;> first | rfl | nomatch hincomplete
  obtain ⟨happend, hrest⟩ := Token.scan_extend hsealed hnewline hscan more
  constructor
  · simp only [next, skipLayout_extend hne more, takeToken, rest_extend, hfirst, List.cons_append,
      happend]
    rfl
  · have hcovers := Token.lexeme_append_rest first others
    rw [← hcovers] at hsealed
    have hsealed' := hsealed.of_append hrest
    simpa only [next, takeToken, hfirst] using hsealed'

/-! ## Forms -/

/-- A form, or a fault that more text cannot mend, is found in a sealed text also before more text, and
the text behind it is sealed. -/
theorem readForm_extend {stack : List Frame} {c : Cursor} (h : Sealed c.rest)
    (hsome : (c.readForm stack).1 ≠ .ok none)
    (hsettled : ∀ e, (c.readForm stack).1 = .error e → e.isIncomplete = false) (more : List Char) :
    (c.extend more).readForm stack = ((c.readForm stack).1, (c.readForm stack).2.extend more) ∧
      Sealed (c.readForm stack).2.rest := by
  fun_induction readForm stack c with
  | case1 stack c e after hnext =>
    obtain ⟨happend, hsealed⟩ := next_extend h (by simp [hnext])
      (fun e' he' => hsettled e' (by simpa [hnext] using he')) more
    rw [hnext] at happend hsealed
    exact ⟨readForm_of_next_error stack happend, hsealed⟩
  | case2 stack c after hnext =>
    -- the end of the text inside a collection is a fault that more text can mend
    cases stack with
    | nil => exact absurd rfl hsome
    | cons frame outer => exact absurd (hsettled _ rfl) (by simp [ReadError.isIncomplete])
  | case3 stack c token after hnext e hstep =>
    obtain ⟨happend, hsealed⟩ := next_extend h (by simp [hnext]) (by simp [hnext]) more
    rw [hnext] at happend hsealed
    refine ⟨?_, hsealed⟩
    have hstep' : Progress.step stack token (after.extend more).tokenStart = .error e := hstep
    rw [readForm_of_next_some stack happend, hstep']
  | case4 stack c token after hnext form hstep =>
    obtain ⟨happend, hsealed⟩ := next_extend h (by simp [hnext]) (by simp [hnext]) more
    rw [hnext] at happend hsealed
    refine ⟨?_, hsealed⟩
    have hstep' : Progress.step stack token (after.extend more).tokenStart = .ok (.done form) := hstep
    rw [readForm_of_next_some stack happend, hstep']
  | case5 stack c token after hnext inner hstep ih =>
    obtain ⟨happend, hsealed⟩ := next_extend h (by simp [hnext]) (by simp [hnext]) more
    rw [hnext] at happend hsealed
    have hstep' : Progress.step stack token (after.extend more).tokenStart = .ok (.reading inner) :=
      hstep
    rw [readForm_of_next_some stack happend, hstep']
    exact ih hsealed hsome hsettled

/-- The rest of the line is skipped alike before more text, and the newline stays. -/
theorem skipTrailer_extend {c : Cursor} (h : Sealed c.rest) (more : List Char) :
    (c.extend more).skipTrailer = c.skipTrailer.extend more ∧ Sealed c.skipTrailer.rest := by
  have hne : (Text.splitTrailer false c.rest).2 ≠ [] := Text.splitTrailer_ne_nil_of_mem h.newline_mem
  refine ⟨by simp only [skipTrailer, extend, Text.splitTrailer_append_of_mem h.newline_mem more], ?_⟩
  rw [← Text.splitTrailer_append false c.rest] at h
  exact h.of_append hne

/-- What one form gives is the same before more text, if the text is sealed and did not end inside the
form. -/
theorem read_extend {c : Cursor} (h : Sealed c.rest) (hsome : c.read.1 ≠ .ok none)
    (hsettled : ∀ e, c.read.1 = .error e → e.isIncomplete = false) (more : List Char) :
    (c.extend more).read = (c.read.1, c.read.2.extend more) ∧ Sealed c.read.2.rest := by
  rcases hform : c.readForm [] with ⟨result, after⟩
  have hread : c.read.1 = result := by
    unfold read
    rw [hform]
    cases result with
    | error e => rfl
    | ok form => cases form <;> rfl
  obtain ⟨happend, hsealed⟩ := readForm_extend h (by rwa [hform, ← hread])
    (by rw [hform, ← hread]; exact hsettled) more
  rw [hform] at happend hsealed
  unfold read
  rw [happend, hform]
  cases result with
  | error e => exact ⟨rfl, hsealed⟩
  | ok form =>
    cases form with
    | none => exact absurd hread hsome
    | some form =>
      obtain ⟨htrailer, hsealed'⟩ := skipTrailer_extend hsealed more
      exact ⟨by simp only [htrailer], hsealed'⟩

/-! ## Layout alone -/

/-- Reading goes by the next token. -/
theorem readForm_eq_of_next_eq {c c' : Cursor} (stack : List Frame) (h : c.next = c'.next) :
    c.readForm stack = c'.readForm stack := by
  rcases hnext : c'.next with ⟨result, after⟩
  rw [hnext] at h
  match result with
  | .error e => rw [readForm_of_next_error stack h, readForm_of_next_error stack hnext]
  | .ok none => rw [readForm_of_next_none stack h, readForm_of_next_none stack hnext]
  | .ok (some token) => rw [readForm_of_next_some stack h, readForm_of_next_some stack hnext]

theorem skipLayout_skipLayout (c : Cursor) : c.skipLayout.skipLayout = c.skipLayout := by
  have hsplit : Text.splitLayout false c.skipLayout.rest = ([], c.skipLayout.rest) :=
    Text.splitLayout_of_solid (Text.solid_splitLayout false c.rest)
  rw [skipLayout, hsplit]
  rfl

/-- Layout before a form does not matter. -/
theorem read_skipLayout (c : Cursor) : c.skipLayout.read = c.read := by
  have hnext : c.skipLayout.next = c.next := by
    rw [next, skipLayout_skipLayout, next]
  rw [read, readForm_eq_of_next_eq [] hnext, read]

/-- Reading depends only on what follows the layout. -/
theorem read_congr_of_skipLayout {c c' : Cursor} (h : c.skipLayout.rest = c'.skipLayout.rest) :
    ReadError.faultOf c.read.1 = ReadError.faultOf c'.read.1 ∧ c.read.2.rest = c'.read.2.rest := by
  rw [← read_skipLayout c, ← read_skipLayout c']
  exact read_congr h

/-- While a form is read, a collection is open. -/
theorem ne_nil_of_step_reading {stack inner : List Frame} {token : Token} {place : Text.Location}
    (h : Progress.step stack token place = .ok (.reading inner)) : inner ≠ [] := by
  have hdeliver : ∀ {v start outer}, Progress.deliver v start outer = .ok (.reading inner) →
      inner ≠ [] := by
    intro v start outer hd
    cases outer with
    | nil => cases hd
    | cons frame outer =>
      simp only [Progress.deliver] at hd
      split at hd
      · cases hd
        exact List.cons_ne_nil _ _
      · cases hd
  cases token with
  | opening shape =>
    cases h
    exact List.cons_ne_nil _ _
  | atom a => exact hdeliver h
  | closing closer =>
    cases stack with
    | nil => cases h
    | cons frame outer =>
      simp only [Progress.step, Progress.close] at h
      split at h
      · split at h
        · exact hdeliver h
        · cases h
      · cases h

/-- With a collection open, a text that ends is an error. -/
theorem readForm_ne_none {stack : List Frame} {c : Cursor} (h : stack ≠ []) :
    (c.readForm stack).1 ≠ .ok none := by
  intro hnone
  fun_induction readForm stack c with
  | case1 stack c e after hnext => cases hnone
  | case2 stack c after hnext =>
    obtain ⟨frame, outer, rfl⟩ := List.exists_cons_of_ne_nil h
    cases hnone
  | case3 stack c token after hnext e hstep => cases hnone
  | case4 stack c token after hnext form hstep => cases hnone
  | case5 stack c token after hnext inner hstep ih => exact ih (ne_nil_of_step_reading hstep) hnone

/-- A read that finds no form found none to begin with. -/
theorem readForm_of_read_none {c : Cursor} (h : c.read.1 = .ok none) :
    (c.readForm []).1 = .ok none := by
  unfold read at h
  split at h
  · cases h
  · exact h

/-- A text that holds no form is layout alone. -/
theorem skipLayout_rest_of_read_none {c : Cursor} (h : c.read.1 = .ok none) :
    c.skipLayout.rest = [] := by
  have hform := readForm_of_read_none h
  rcases hnext : c.next with ⟨result, after⟩
  match result with
  | .error e =>
    rw [readForm_of_next_error [] hnext] at hform
    cases hform
  | .ok (some token) =>
    rw [readForm_of_next_some [] hnext] at hform
    split at hform
    · cases hform
    · cases hform
    · next inner hstep => exact absurd hform (readForm_ne_none (ne_nil_of_step_reading hstep))
  | .ok none =>
    have hnone : c.skipLayout.takeToken.1 = .ok none := congrArg Prod.fst hnext
    unfold takeToken at hnone
    split at hnone
    · next hrest => exact hrest
    · next first others hrest =>
      cases houtcome : (Token.scan first others).outcome <;>
        simp [houtcome, ReadError.locate, Except.map] at hnone

/-- Behind a text without a form that ends a line, reading starts afresh. -/
theorem read_extend_of_none {c : Cursor} (hlast : c.rest.getLast? = some '\n')
    (hnone : c.read.1 = .ok none) (more : List Char) :
    ReadError.faultOf (c.extend more).read.1 = ReadError.faultOf (ofList more).read.1 ∧
      (c.extend more).read.2.rest = (ofList more).read.2.rest := by
  apply read_congr_of_skipLayout
  have hlayout := skipLayout_rest_of_read_none hnone
  have hsplit := Text.splitLayout_append_of_nil hlast hlayout more
  show (Text.splitLayout false (c.rest ++ more)).2 = (Text.splitLayout false more).2
  rw [hsplit]

end Cursor

end SmallLisp

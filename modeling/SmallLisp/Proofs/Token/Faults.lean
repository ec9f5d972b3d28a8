import SmallLisp.Proofs.Reader.Insertion

/-!
# Texts that are no tokens

`Faulty fault text` says what a text looks like at whose front no token stands, for each fault of a token:
where the quotes of a string are left open, or a backslash in them means nothing; a mark with nothing behind
it; a run that should be a number, or a name that no character has. A token that is refused is faulty in this
sense (`faulty_of_scan`), and one that ended too early was cut off whole (`rest_of_scan_end`).
-/

namespace SmallLisp

open Text

/-- A result that was changed has the error it had before. -/
theorem error_of_map {ε α β : Type} {r : Except ε α} {f : α → β} {e : ε} (h : r.map f = .error e) :
    r = .error e := by
  cases r with
  | error other => exact congrArg Except.error (Except.error.inj h)
  | ok a => cases h

/-! ## The inside of a string -/

/-- A stretch of text inside quotes and the characters it stands for: it holds no quote, and no backslash
that is not part of an escape. -/
inductive Text.QuotedPart : List Char → List Char → Prop where
  | nil : QuotedPart [] []
  | plain {c : Char} {part s : List Char} (hquote : c ≠ '"') (hbackslash : c ≠ '\\')
      (h : QuotedPart part s) : QuotedPart (c :: part) (c :: s)
  | escaped {letter c : Char} {part s : List Char} (hletter : unescapeLetter? letter = some c)
      (h : QuotedPart part s) : QuotedPart ('\\' :: letter :: part) (c :: s)

/-- What can stand behind a stretch of quoted text: nothing, the closing quote, or a backslash with nothing
behind it or with a letter that means nothing. -/
inductive Text.QuotedStop : List Char → Prop where
  | nothing : QuotedStop []
  | quote (rest : List Char) : QuotedStop ('"' :: rest)
  | backslash : QuotedStop ['\\']
  | letter {letter : Char} (hletter : unescapeLetter? letter = none) (rest : List Char) :
      QuotedStop ('\\' :: letter :: rest)

namespace Token

/-- A plain character of a string is taken as it is. -/
theorem scanQuoted_plain {c : Char} (hquote : c ≠ '"') (hbackslash : c ≠ '\\') (text : List Char) :
    scanQuoted (c :: text) = ((scanQuoted text).map (c :: ·)).cons c := by
  rw [scanQuoted]
  · exact hquote
  · exact fun hc _ => hbackslash hc
  · exact fun _ _ hc _ => hbackslash hc

/-- A stretch of quoted text is passed, and its characters are put in front of what follows. -/
theorem scanQuoted_part {part s : List Char} (h : QuotedPart part s) (text : List Char) :
    scanQuoted (part ++ text) =
      ⟨part ++ (scanQuoted text).lexeme, (scanQuoted text).outcome.map (s ++ ·), (scanQuoted text).rest⟩ := by
  induction h with
  | nil =>
    cases houtcome : (scanQuoted text).outcome <;> simp [← houtcome, Except.map]
  | plain hquote hbackslash h ih =>
    rw [List.cons_append, scanQuoted_plain hquote hbackslash, ih]
    cases houtcome : (scanQuoted text).outcome <;> rfl
  | escaped hletter h ih =>
    simp only [List.cons_append, scanQuoted, hletter, ih]
    cases houtcome : (scanQuoted text).outcome <;> rfl

/-- Every text goes on as quoted text up to a place where that stops. -/
theorem exists_quotedPart (text : List Char) :
    ∃ part s stop, text = part ++ stop ∧ QuotedPart part s ∧ QuotedStop stop := by
  fun_induction scanQuoted text with
  | case1 => exact ⟨[], [], [], rfl, .nil, .nothing⟩
  | case2 rest => exact ⟨[], [], '"' :: rest, rfl, .nil, .quote rest⟩
  | case3 => exact ⟨[], [], ['\\'], rfl, .nil, .backslash⟩
  | case4 letter rest c hletter ih =>
    obtain ⟨part, s, stop, rfl, hpart, hstop⟩ := ih
    exact ⟨'\\' :: letter :: part, c :: s, stop, rfl, .escaped hletter hpart, hstop⟩
  | case5 letter rest hletter =>
    exact ⟨[], [], '\\' :: letter :: rest, rfl, .nil, .letter hletter rest⟩
  | case6 c rest hquote hlone hescape ih =>
    have hc : c ≠ '\\' := by
      intro hc
      cases rest with
      | nil => exact hlone hc rfl
      | cons letter others => exact hescape letter others hc rfl
    obtain ⟨part, s, stop, rfl, hpart, hstop⟩ := ih
    exact ⟨c :: part, c :: s, stop, rfl, .plain hquote hc hpart, hstop⟩

/-! ## Faults -/

/-- A text at whose front stands no token, and why. -/
inductive Faulty : ReadFault → List Char → Prop where
  /-- A string goes on to the end of the text, which may be an open escape. -/
  | openString {part s stop : List Char} (hpart : QuotedPart part s) (hstop : stop = [] ∨ stop = ['\\']) :
      Faulty (.unexpectedEnd "string") ('"' :: (part ++ stop))
  | unsupportedEscape {part s rest : List Char} {letter : Char} (hpart : QuotedPart part s)
      (hletter : unescapeLetter? letter = none) :
      Faulty (.unsupportedEscape letter) ('"' :: (part ++ '\\' :: letter :: rest))
  /-- A backslash or a dispatch mark is the last character. -/
  | openMark {mark : Char} (hmark : mark = '\\' ∨ mark = '#') :
      Faulty (.unexpectedEnd "character") [mark]
  /-- The name is the character behind the backslash and the whole run after it. -/
  | unsupportedCharacter {c : Char} {run rest : List Char} (hrun : ∀ d ∈ run, isTerminator d = false)
      (hrest : Terminated rest) :
      Faulty (.unsupportedCharacter (String.ofList (c :: run))) ('\\' :: c :: (run ++ rest))
  /-- A whole run looks like a number and is none. -/
  | invalidNumber {run rest : List Char} (hrun : ∀ c ∈ run, isTerminator c = false)
      (hnumber : startsNumber run = true) (hrest : Terminated rest) :
      Faulty (.invalidNumber (String.ofList run)) (run ++ rest)
  | emptyKeyword {rest : List Char} (hrest : Terminated rest) : Faulty .emptyKeyword (':' :: rest)
  | unknownDispatch {c : Char} (hc : c ≠ '\x7b') (rest : List Char) :
      Faulty (.unknownDispatch c) ('#' :: c :: rest)

/-- A string is refused for an unknown escape, or because the text ends in it. -/
theorem faulty_of_scanQuoted {text : List Char} {fault : ReadFault}
    (h : (scanQuoted text).outcome = .error fault) : Faulty fault ('"' :: text) := by
  obtain ⟨part, s, stop, rfl, hpart, hstop⟩ := exists_quotedPart text
  rw [scanQuoted_part hpart] at h
  have hfault := error_of_map h
  cases hstop with
  | nothing =>
    cases hfault
    exact .openString hpart (.inl rfl)
  | quote rest => cases hfault
  | backslash =>
    cases hfault
    exact .openString hpart (.inr rfl)
  | letter hletter rest =>
    simp only [scanQuoted, hletter] at hfault
    cases hfault
    exact .unsupportedEscape hpart hletter

/-- A character token is refused for its name, or because the text ends behind the backslash. -/
theorem faulty_of_scanCharacter {text : List Char} {fault : ReadFault}
    (h : (scanCharacter text).outcome = .error fault) : Faulty fault ('\\' :: text) := by
  cases text with
  | nil =>
    cases h
    exact .openMark (.inl rfl)
  | cons c others =>
    have hnamed : namedCharacter (c.toString ++ String.ofList (splitRun others).1) = .error fault := h
    rw [toString_append_ofList] at hnamed
    have hfault : fault = .unsupportedCharacter (String.ofList (c :: (splitRun others).1)) := by
      unfold namedCharacter at hnamed
      split at hnamed
      · cases hnamed
      · split at hnamed
        · cases hnamed
        · split at hnamed
          · cases hnamed
          · split at hnamed
            · cases hnamed
            · exact (Except.error.inj hnamed).symm
    have hfaulty := Faulty.unsupportedCharacter (c := c) (ordinary_splitRun others)
      (terminated_splitRun others)
    rwa [splitRun_append, ← hfault] at hfaulty

/-- A dispatch mark is refused for the character behind it, or because the text ends there. -/
theorem faulty_of_scanDispatch {text : List Char} {fault : ReadFault}
    (h : (scanDispatch text).outcome = .error fault) : Faulty fault ('#' :: text) := by
  unfold scanDispatch at h
  split at h
  · cases h
    exact .openMark (.inr rfl)
  · cases h
  · next c rest hc =>
    cases h
    exact .unknownDispatch (fun hbrace => hc hbrace) rest

theorem eq_of_lead_quote {c : Char} {rest : List Char} (h : lead c rest = .quote) : c = '"' := by
  unfold lead at h
  split at h <;> grind

theorem eq_of_lead_colon {c : Char} {rest : List Char} (h : lead c rest = .colon) : c = ':' := by
  unfold lead at h
  split at h <;> grind

/-- What starts a number is a digit or a sign, so it does not end a run. -/
theorem isTerminator_of_lead_number {c : Char} {rest : List Char} (h : lead c rest = .number) :
    isTerminator c = false := by
  unfold lead at h
  split at h
  case h_11 =>
    split at h
    · next hnumber =>
      rcases Bool.or_eq_true_iff.1 hnumber with hdigit | hsign
      · exact isTerminator_of_isDigit hdigit
      · have hc := (Bool.and_eq_true_iff.1 hsign).1
        simp only [Bool.or_eq_true, beq_iff_eq] at hc
        rcases hc with rfl | rfl <;> decide
    · cases h
  all_goals cases h

/-- A run that begins like a number is refused when it is none. -/
theorem faulty_of_number {c : Char} {text : List Char} {fault : ReadFault}
    (hlead : lead c text = .number)
    (h : numberNamed (c.toString ++ String.ofList (splitRun text).1) = .error fault) :
    Faulty fault (c :: text) := by
  have hc := isTerminator_of_lead_number hlead
  rw [toString_append_ofList] at h
  have hnumber : startsNumber (c :: (splitRun text).1) = true := by
    have hrun : lead c ((splitRun text).1 ++ (splitRun text).2) = _ :=
      lead_of_ordinary hc (terminated_splitRun text)
    rw [splitRun_append, hlead] at hrun
    split at hrun
    · assumption
    · cases hrun
  have hfault : fault = .invalidNumber (String.ofList (c :: (splitRun text).1)) := by
    unfold numberNamed at h
    split at h
    · cases h
    · cases h
    · exact (Except.error.inj h).symm
  have hfaulty := Faulty.invalidNumber (List.forall_mem_cons.2 ⟨hc, ordinary_splitRun text⟩) hnumber
    (terminated_splitRun text)
  rwa [List.cons_append, splitRun_append, ← hfault] at hfaulty

/-- A colon is refused when no name follows it. -/
theorem faulty_of_keyword {text : List Char} {fault : ReadFault}
    (h : keywordNamed (String.ofList (splitRun text).1) = .error fault) : Faulty fault (':' :: text) := by
  unfold keywordNamed at h
  split at h
  · next hempty =>
    cases h
    have hrun : (splitRun text).1 = [] := by simpa using hempty
    -- without a name the whole text stands behind the colon
    have hrest : (splitRun text).2 = text := by
      have happend := splitRun_append text
      rwa [hrun] at happend
    exact .emptyKeyword (hrest ▸ terminated_splitRun text)
  · cases h

/-- What is refused as a token is faulty. -/
theorem faulty_of_scan {c : Char} {text : List Char} {fault : ReadFault}
    (h : (scan c text).outcome = .error fault) : Faulty fault (c :: text) := by
  have hafter : (scanAfter c text).outcome = .error fault := h
  unfold scanAfter at hafter
  cases hlead : lead c text with
  | single token =>
    rw [hlead] at hafter
    cases hafter
  | dispatch =>
    rw [hlead] at hafter
    obtain rfl := eq_of_lead_dispatch hlead
    exact faulty_of_scanDispatch hafter
  | quote =>
    rw [hlead] at hafter
    obtain rfl := eq_of_lead_quote hlead
    exact faulty_of_scanQuoted (error_of_map hafter)
  | backslash =>
    rw [hlead] at hafter
    obtain rfl := eq_of_lead_backslash hlead
    exact faulty_of_scanCharacter (error_of_map hafter)
  | colon =>
    rw [hlead] at hafter
    obtain rfl := eq_of_lead_colon hlead
    exact faulty_of_keyword (error_of_map hafter)
  | number =>
    rw [hlead] at hafter
    exact faulty_of_number hlead (error_of_map hafter)
  | symbol =>
    rw [hlead] at hafter
    cases hafter

/-- Where the text ended inside a token, nothing is left of it. -/
theorem rest_of_scan_end {c : Char} {text : List Char} {construct : String}
    (h : (scan c text).outcome = .error (.unexpectedEnd construct)) : (scan c text).rest = [] := by
  have hfaulty := faulty_of_scan h
  generalize htext : c :: text = whole at hfaulty
  cases hfaulty with
  | openString hpart hstop =>
    obtain ⟨rfl, rfl⟩ := List.cons.inj htext
    show (scanQuoted _).rest = []
    rw [scanQuoted_part hpart]
    rcases hstop with rfl | rfl <;> rfl
  | openMark hmark =>
    obtain ⟨rfl, rfl⟩ := List.cons.inj htext
    rcases hmark with rfl | rfl <;> rfl

end Token

end SmallLisp

import SmallLisp.Proofs.Text.Layout
import SmallLisp.Token.Lexer

/-!
# Texts that are scanned as one token

`Spells text rest token` says that before `rest` the text is scanned as the token, all of it and nothing
more. A bracket is a token before anything; the other spellings need a place where a run may end. Main
statements: a run spells what its beginning and its words make of it (`spells_run`), and so do names after
a colon (`spells_keyword`), names after a backslash (`spells_character`) and quoted text (`spells_string`).
-/

namespace SmallLisp.Token

open Text

/-- Before `rest`, exactly `text` is scanned, and it is the token. -/
def Spells (text rest : List Char) (token : Token) : Prop :=
  ∃ c others, text ++ rest = c :: others ∧ isBlank c = false ∧ c ≠ ';' ∧
    (scan c others).outcome = .ok token ∧ (scan c others).rest = rest

/-- A text that spells a token does not start with layout. -/
theorem Spells.solid {text rest : List Char} {token : Token} (h : Spells text rest token) :
    Solid (text ++ rest) := by
  obtain ⟨c, others, htext, hblank, hcomment, -, -⟩ := h
  rw [htext]
  intro d hd
  cases hd
  exact ⟨hblank, hcomment⟩

/-! ## Brackets -/

/-- An opening bracket is a token whatever follows it. -/
theorem spells_opening (shape : Shape) (rest : List Char) :
    Spells shape.text.toList rest (.opening shape) := by
  cases shape with
  | list => exact ⟨'(', rest, rfl, by decide, by decide, rfl, rfl⟩
  | vector => exact ⟨'[', rest, rfl, by decide, by decide, rfl, rfl⟩
  | set => exact ⟨'#', '\x7b' :: rest, rfl, by decide, by decide, rfl, rfl⟩
  | map => exact ⟨'\x7b', rest, rfl, by decide, by decide, rfl, rfl⟩

theorem spells_closing (closer : Closer) (rest : List Char) :
    Spells [closer.char] rest (.closing closer) := by
  cases closer with
  | paren => exact ⟨')', rest, rfl, by decide, by decide, rfl, rfl⟩
  | bracket => exact ⟨']', rest, rfl, by decide, by decide, rfl, rfl⟩
  | brace => exact ⟨'\x7d', rest, rfl, by decide, by decide, rfl, rfl⟩

theorem isTerminator_char (closer : Closer) : isTerminator closer.char = true := by
  cases closer <;> decide

/-! ## Runs -/

/-- Whether a run has to be a number: it starts with a digit, or with a sign and a digit. -/
def startsNumber : List Char → Bool
  | [] => false
  | c :: rest => isDigit c || ((c == '+' || c == '-') && startsWithDigit rest)

/-- What a run is taken for. -/
def runNamed (run : List Char) : Except ReadFault Atom :=
  if startsNumber run then numberNamed (String.ofList run) else .ok (symbolNamed (String.ofList run))

/-- Whether a run begins with a digit shows in the run itself when it ends there. -/
theorem startsWithDigit_append {rest : List Char} (h : Terminated rest) (text : List Char) :
    startsWithDigit (text ++ rest) = startsWithDigit text := by
  cases text with
  | cons c others => rfl
  | nil =>
    cases rest with
    | nil => rfl
    | cons c others =>
      have hc : isTerminator c = true := h c rfl
      show isDigit c = false
      apply Bool.eq_false_iff.2
      intro hdigit
      rw [isTerminator_of_isDigit hdigit] at hc
      cases hc

/-- A token that begins with an ordinary character is a number or a symbol, as the run before the next
terminator says. -/
theorem lead_of_ordinary {c : Char} (hc : isTerminator c = false) {others rest : List Char}
    (hrest : Terminated rest) :
    lead c (others ++ rest) = if startsNumber (c :: others) then .number else .symbol := by
  unfold lead
  split
  -- The characters with a case of their own all end runs.
  case h_11 => rw [startsWithDigit_append hrest, startsNumber]
  all_goals exact absurd hc (by decide)

/-- A run of ordinary characters is taken as a whole when something ends it. -/
theorem scanRun_of_terminated {run rest : List Char} (hrun : ∀ c ∈ run, isTerminator c = false)
    (hrest : Terminated rest) : scanRun (run ++ rest) = ⟨run, .ok (String.ofList run), rest⟩ := by
  rw [scanRun, splitRun_of_terminated hrun hrest]

theorem toString_append_ofList (c : Char) (text : List Char) :
    c.toString ++ String.ofList text = String.ofList (c :: text) := by
  rw [Char.toString_eq_singleton, String.ofList_cons]

/-- What starts with an ordinary character does not start with layout. -/
theorem solid_of_ordinary {c : Char} (hc : isTerminator c = false) : isBlank c = false ∧ c ≠ ';' := by
  refine ⟨(Bool.or_eq_false_iff.1 hc).1, ?_⟩
  rintro rfl
  exact absurd hc (by decide)

/-- A run is scanned whole, also when it makes no token. -/
theorem scan_run {c : Char} {others rest : List Char} (hrun : ∀ d ∈ c :: others, isTerminator d = false)
    (hrest : Terminated rest) :
    scan c (others ++ rest) = ⟨c :: others, (runNamed (c :: others)).map .atom, rest⟩ := by
  have hc : isTerminator c = false := hrun c List.mem_cons_self
  have hscan := scanRun_of_terminated (fun d hd => hrun d (List.mem_cons_of_mem c hd)) hrest
  rw [scan, scanAfter, lead_of_ordinary hc hrest, runNamed]
  by_cases hnumber : startsNumber (c :: others) = true
  · simp only [hnumber, if_true, hscan, Scan.cons, Scan.map, Scan.bind, Except.bind, toString_append_ofList]
  · simp only [if_neg hnumber, hscan, Scan.cons, Scan.map, Except.map, toString_append_ofList]

/-- A run is scanned whole and is taken for what it is named. -/
theorem spells_run {run rest : List Char} {a : Atom} (hne : run ≠ [])
    (hrun : ∀ c ∈ run, isTerminator c = false) (hrest : Terminated rest)
    (hnamed : runNamed run = .ok a) : Spells run rest (.atom a) := by
  obtain ⟨c, others, rfl⟩ := List.exists_cons_of_ne_nil hne
  obtain ⟨hblank, hcomment⟩ := solid_of_ordinary (hrun c List.mem_cons_self)
  refine ⟨c, others ++ rest, rfl, hblank, hcomment, ?_⟩
  rw [scan_run hrun hrest, hnamed]
  exact ⟨rfl, rfl⟩

/-! ## Names after a mark -/

/-- A colon and a name that something ends are scanned as a keyword. -/
theorem scan_keyword {name rest : List Char} (hne : name ≠ [])
    (hname : ∀ c ∈ name, isTerminator c = false) (hrest : Terminated rest) :
    scan ':' (name ++ rest) = ⟨':' :: name, .ok (.atom (.keyword (String.ofList name))), rest⟩ := by
  have hlead : lead ':' (name ++ rest) = .colon := rfl
  rw [scan, scanAfter, hlead]
  simp only [scanRun_of_terminated hname hrest, Scan.cons, Scan.map, Scan.bind, Except.bind,
    keywordNamed]
  simp [hne, Except.map]

theorem spells_keyword {name rest : List Char} (hne : name ≠ [])
    (hname : ∀ c ∈ name, isTerminator c = false) (hrest : Terminated rest) :
    Spells (':' :: name) rest (.atom (.keyword (String.ofList name))) := by
  refine ⟨':', name ++ rest, rfl, by decide, by decide, ?_⟩
  rw [scan_keyword hne hname hrest]
  exact ⟨rfl, rfl⟩

/-- After a backslash a character is taken as it is, with the run that follows it. -/
theorem spells_character {c d : Char} {run rest : List Char}
    (hrun : ∀ c ∈ run, isTerminator c = false) (hrest : Terminated rest)
    (hnamed : namedCharacter (String.ofList (d :: run)) = .ok (.char c)) :
    Spells ('\\' :: d :: run) rest (.atom (.char c)) := by
  have hlead : lead '\\' (d :: (run ++ rest)) = .backslash := rfl
  refine ⟨'\\', d :: (run ++ rest), rfl, by decide, by decide, ?_⟩
  rw [scan, scanAfter, hlead]
  simp only [scanCharacter, scanRun_of_terminated hrun hrest, Scan.cons, Scan.map, Scan.bind,
    Except.bind, toString_append_ofList, hnamed]
  exact ⟨rfl, trivial⟩

/-! ## Quoted text -/

/-- The escape of a character is scanned as this character. -/
theorem scanQuoted_escapeChar (c : Char) (text : List Char) :
    (scanQuoted (escapeChar c ++ text)).outcome = (scanQuoted text).outcome.map (c :: ·) ∧
      (scanQuoted (escapeChar c ++ text)).rest = (scanQuoted text).rest := by
  unfold escapeChar
  split
  · next letter hletter =>
    simp [scanQuoted, unescapeLetter?_of_escapeLetter? hletter, Scan.cons, Scan.map]
  · next hplain =>
    have hquote : c ≠ '"' := by
      rintro rfl
      exact absurd hplain (by decide)
    have hbackslash : c ≠ '\\' := by
      rintro rfl
      exact absurd hplain (by decide)
    simp [scanQuoted, hbackslash, Scan.cons, Scan.map]

/-- An escaped text is scanned up to the quote behind it, and gives the text back. -/
theorem scanQuoted_escape (s rest : List Char) :
    (scanQuoted (escape s ++ '"' :: rest)).outcome = .ok s ∧
      (scanQuoted (escape s ++ '"' :: rest)).rest = rest := by
  induction s with
  | nil => exact ⟨rfl, rfl⟩
  | cons c others ih =>
    obtain ⟨houtcome, hrest⟩ := scanQuoted_escapeChar c (escape others ++ '"' :: rest)
    rw [escape, List.flatMap_cons, List.append_assoc, ← escape, houtcome, hrest, ih.1, ih.2]
    exact ⟨rfl, rfl⟩

/-- An escaped text between quotes spells the string of this text. -/
theorem spells_string (s rest : List Char) :
    Spells ('"' :: (escape s ++ ['"'])) rest (.atom (.string (String.ofList s))) := by
  have hlead : lead '"' (escape s ++ '"' :: rest) = .quote := rfl
  obtain ⟨houtcome, hrest⟩ := scanQuoted_escape s rest
  refine ⟨'"', escape s ++ '"' :: rest, by simp, by decide, by decide, ?_⟩
  rw [scan, scanAfter, hlead]
  simp only [Scan.cons, Scan.map, houtcome, hrest]
  exact ⟨rfl, trivial⟩

end SmallLisp.Token

/-!
# Character classes of source text

Blanks separate tokens, and a character that starts a construct of its own (a bracket, a quote, a
comment, ...) ends whatever token stands before it. Every class is a decidable predicate on one
character, so a text is cut where a class begins or ends, and each cut comes with the lemma that its
parts make up the text again.
-/

namespace SmallLisp.Text

/-- The characters with the Unicode property `White_Space`. -/
def isWhiteSpace (c : Char) : Bool :=
  let n := c.toNat
  (0x09 ≤ n && n ≤ 0x0D) || n == 0x20 || n == 0x85 || n == 0xA0 || n == 0x1680 ||
    (0x2000 ≤ n && n ≤ 0x200A) || n == 0x2028 || n == 0x2029 || n == 0x202F || n == 0x205F ||
    n == 0x3000

/-- White space and commas separate tokens and mean nothing else. -/
def isBlank (c : Char) : Bool :=
  isWhiteSpace c || c == ','

/-- Characters that start a construct of their own wherever they stand. -/
def isMarker (c : Char) : Bool :=
  c == '"' || c == '\\' || c == '(' || c == ')' || c == '[' || c == ']' || c == '\x7b' ||
    c == '\x7d' || c == ':' || c == '#' || c == ';'

/-- A run of ordinary characters ends before a blank or a marker. -/
def isTerminator (c : Char) : Bool :=
  isBlank c || isMarker c

/-- The ASCII digits; no other digit of Unicode counts. -/
def isDigit (c : Char) : Bool :=
  '0' ≤ c && c ≤ '9'

/-- The longest run of ordinary characters at the front of a text, and what follows it. -/
def splitRun (text : List Char) : List Char × List Char :=
  (text.takeWhile fun c => !isTerminator c, text.dropWhile fun c => !isTerminator c)

/-- The blanks and comments at the front of a text, and what follows them.

`inComment` says that the text starts inside a comment, which lasts until the end of its line. -/
def splitLayout (inComment : Bool) : List Char → List Char × List Char
  | [] => ([], [])
  | c :: rest =>
    if inComment then
      let (layout, body) := splitLayout (c != '\n') rest
      (c :: layout, body)
    else if isBlank c then
      let (layout, body) := splitLayout false rest
      (c :: layout, body)
    else if c == ';' then
      let (layout, body) := splitLayout true rest
      (c :: layout, body)
    else
      ([], c :: rest)

/-- The blanks and the comment before the end of the current line, and what follows them: the
newline itself is left in place. -/
def splitTrailer (inComment : Bool) : List Char → List Char × List Char
  | [] => ([], [])
  | c :: rest =>
    if c == '\n' then
      ([], c :: rest)
    else if inComment || c == ';' then
      let (trailer, body) := splitTrailer true rest
      (c :: trailer, body)
    else if isBlank c then
      let (trailer, body) := splitTrailer false rest
      (c :: trailer, body)
    else
      ([], c :: rest)

/-- What follows the first newline of a text: the lines after the current one. -/
def afterLine : List Char → List Char
  | [] => []
  | c :: rest => if c == '\n' then rest else afterLine rest

/-! ## Nothing is lost or moved by a cut -/

@[simp]
theorem splitRun_append (text : List Char) : (splitRun text).1 ++ (splitRun text).2 = text :=
  List.takeWhile_append_dropWhile

@[simp]
theorem splitLayout_append (inComment : Bool) (text : List Char) :
    (splitLayout inComment text).1 ++ (splitLayout inComment text).2 = text := by
  induction text generalizing inComment with
  | nil => rfl
  | cons c rest ih =>
    simp only [splitLayout]
    split
    · simp [ih]
    · split
      · simp [ih]
      · split <;> simp [ih]

@[simp]
theorem splitTrailer_append (inComment : Bool) (text : List Char) :
    (splitTrailer inComment text).1 ++ (splitTrailer inComment text).2 = text := by
  induction text generalizing inComment with
  | nil => rfl
  | cons c rest ih =>
    simp only [splitTrailer]
    split
    · rfl
    · split
      · simp [ih]
      · split <;> simp [ih]

/-- No cut makes a text longer: the recursions that read on behind one end. -/
theorem length_splitLayout_le (inComment : Bool) (text : List Char) :
    (splitLayout inComment text).2.length ≤ text.length := by
  have h := congrArg List.length (splitLayout_append inComment text)
  simp only [List.length_append] at h
  omega

theorem length_splitTrailer_le (inComment : Bool) (text : List Char) :
    (splitTrailer inComment text).2.length ≤ text.length := by
  have h := congrArg List.length (splitTrailer_append inComment text)
  simp only [List.length_append] at h
  omega

theorem length_afterLine_le (text : List Char) : (afterLine text).length ≤ text.length := by
  induction text with
  | nil => simp [afterLine]
  | cons c rest ih =>
    simp only [afterLine, List.length_cons]
    split <;> omega

end SmallLisp.Text

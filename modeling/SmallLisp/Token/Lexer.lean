import SmallLisp.Reader.Error
import SmallLisp.Text.Blank
import SmallLisp.Text.Quoted
import SmallLisp.Token.Basic

/-!
# Scanning one token

`scan` looks at a text that does not start with layout, decides by its first character what kind of
token stands there, and cuts it off. The result keeps the lexeme, the characters consumed, also when
they make no token: `lexeme_append_rest` says that nothing is lost, and `length_rest_lt` that scanning
always makes progress.
-/

namespace SmallLisp

/-- What scanning one token found: the characters consumed, the token or the fault they make, and the
text after them. -/
structure Scan (α : Type) where
  lexeme : List Char
  outcome : Except ReadFault α
  rest : List Char

namespace Scan

variable {α β : Type}

/-- The scan of one more character in front. -/
def cons (c : Char) (s : Scan α) : Scan α :=
  { s with lexeme := c :: s.lexeme }

/-- The same scan with its result changed. -/
def map (f : α → β) (s : Scan α) : Scan β :=
  { s with outcome := s.outcome.map f }

/-- The same scan with its result checked further. -/
def bind (f : α → Except ReadFault β) (s : Scan α) : Scan β :=
  { s with outcome := s.outcome.bind f }

/-- The characters of a scan are those of the text it was made from. -/
def Covers (s : Scan α) (text : List Char) : Prop :=
  s.lexeme ++ s.rest = text

end Scan

namespace Token

open Text

/-- A run of ordinary characters, possibly empty. -/
def scanRun (text : List Char) : Scan String :=
  ⟨(splitRun text).1, .ok (String.ofList (splitRun text).1), (splitRun text).2⟩

/-- The inside of a string and its closing quote. -/
def scanQuoted : List Char → Scan (List Char)
  | [] => ⟨[], .error (.unexpectedEnd "string"), []⟩
  | '"' :: rest => ⟨['"'], .ok [], rest⟩
  | ['\\'] => ⟨['\\'], .error (.unexpectedEnd "string"), []⟩
  | '\\' :: letter :: rest =>
    match unescapeLetter? letter with
    | some c => (((scanQuoted rest).map (c :: ·)).cons letter).cons '\\'
    | none => ⟨['\\', letter], .error (.unsupportedEscape letter), rest⟩
  | c :: rest => ((scanQuoted rest).map (c :: ·)).cons c

/-- The character that a name after a backslash stands for: one character stands for itself, and
three have names. -/
def namedCharacter (name : String) : Except ReadFault Atom :=
  match name.toList with
  | [c] => .ok (.char c)
  | _ =>
    if name == "tab" then .ok (.char '\t')
    else if name == "newline" then .ok (.char '\n')
    else if name == "space" then .ok (.char ' ')
    else .error (.unsupportedCharacter name)

/-- The inside of a character literal: the first character is taken as it is, even a bracket or a
blank, and a run may follow it. -/
def scanCharacter : List Char → Scan Atom
  | [] => ⟨[], .error (.unexpectedEnd "character"), []⟩
  | c :: rest => ((scanRun rest).bind fun run => namedCharacter (c.toString ++ run)).cons c

/-- The name of a keyword may be any run, but there must be one. -/
def keywordNamed (name : String) : Except ReadFault Atom :=
  if name.isEmpty then .error .emptyKeyword else .ok (.keyword name)

/-- A run that starts like a number has to be one. -/
def numberNamed (run : String) : Except ReadFault Atom :=
  match Number.ofNumeral? run.toList with
  | some (.int n) => .ok (.int n)
  | some (.float x) => .ok (.float x)
  | none => .error (.invalidNumber run)

/-- Any other run is a symbol, three reserved words apart. -/
def symbolNamed (run : String) : Atom :=
  if run == "nil" then .nil
  else if run == "true" then .bool true
  else if run == "false" then .bool false
  else .symbol run

/-- Whether a text starts with a digit. -/
def startsWithDigit : List Char → Bool
  | [] => false
  | c :: _ => isDigit c

/-- What follows the dispatch mark: an opening brace makes a set, nothing else is known. -/
def scanDispatch : List Char → Scan Token
  | [] => ⟨[], .error (.unexpectedEnd "character"), []⟩
  | '\x7b' :: rest => ⟨['\x7b'], .ok (.opening .set), rest⟩
  | c :: rest => ⟨[c], .error (.unknownDispatch c), rest⟩

/-- What the first character of a token says about the rest of it. -/
inductive Lead where
  /-- The character is a token by itself. -/
  | single (token : Token)
  | dispatch
  | quote
  | backslash
  | colon
  /-- The run that starts here has to be a number. -/
  | number
  | symbol
deriving DecidableEq, Repr

/-- The kind of token that a character starts: a digit starts a number, and so does a sign in front
of a digit. -/
def lead (c : Char) (rest : List Char) : Lead :=
  match c with
  | '(' => .single (.opening .list)
  | ')' => .single (.closing .paren)
  | '[' => .single (.opening .vector)
  | ']' => .single (.closing .bracket)
  | '\x7b' => .single (.opening .map)
  | '\x7d' => .single (.closing .brace)
  | '#' => .dispatch
  | '"' => .quote
  | '\\' => .backslash
  | ':' => .colon
  | _ =>
    if isDigit c || ((c == '+' || c == '-') && startsWithDigit rest) then .number else .symbol

/-- The part of a token after its first character. -/
def scanAfter (c : Char) (rest : List Char) : Scan Token :=
  match lead c rest with
  | .single token => ⟨[], .ok token, rest⟩
  | .dispatch => scanDispatch rest
  | .quote => (scanQuoted rest).map fun s => .atom (.string (String.ofList s))
  | .backslash => (scanCharacter rest).map .atom
  | .colon => ((scanRun rest).bind keywordNamed).map .atom
  | .number => ((scanRun rest).bind fun run => numberNamed (c.toString ++ run)).map .atom
  | .symbol => (scanRun rest).map fun run => .atom (symbolNamed (c.toString ++ run))

/-- The token at the front of a text whose first character is given and is not layout. -/
def scan (c : Char) (rest : List Char) : Scan Token :=
  (scanAfter c rest).cons c

/-! ## Scanning loses nothing and makes progress -/

theorem scanRun_covers (text : List Char) : (scanRun text).Covers text :=
  splitRun_append text

theorem scanQuoted_covers (text : List Char) : (scanQuoted text).Covers text := by
  fun_induction scanQuoted text <;> simp_all [Scan.Covers, Scan.cons, Scan.map]

theorem scanCharacter_covers (text : List Char) : (scanCharacter text).Covers text := by
  cases text with
  | nil => rfl
  | cons c rest => exact congrArg (c :: ·) (scanRun_covers rest)

theorem scanDispatch_covers (text : List Char) : (scanDispatch text).Covers text := by
  unfold scanDispatch
  split <;> rfl

theorem scanAfter_covers (c : Char) (rest : List Char) : (scanAfter c rest).Covers rest := by
  unfold scanAfter
  split
  · rfl
  · exact scanDispatch_covers rest
  · exact scanQuoted_covers rest
  · exact scanCharacter_covers rest
  · exact scanRun_covers rest
  · exact scanRun_covers rest
  · exact scanRun_covers rest

/-- The lexeme and the rest make up the text that was scanned. -/
theorem lexeme_append_rest (c : Char) (rest : List Char) :
    (scan c rest).lexeme ++ (scan c rest).rest = c :: rest :=
  congrArg (c :: ·) (scanAfter_covers c rest)

/-- At least one character is consumed. -/
theorem length_rest_lt (c : Char) (rest : List Char) :
    (scan c rest).rest.length < (c :: rest).length := by
  have happend := congrArg List.length (scanAfter_covers c rest)
  simp only [List.length_append] at happend
  simp only [scan, Scan.cons, List.length_cons]
  omega

end Token

end SmallLisp

/-!
# Quoted text

Inside quotes five characters have a spelling with a backslash: newline, tab, carriage return, the
backslash and the quote. Every other character stands for itself.
-/

namespace SmallLisp.Text

/-- The letter written after a backslash for a character that has such a spelling. -/
def escapeLetter? : Char → Option Char
  | '\n' => some 'n'
  | '\t' => some 't'
  | '\r' => some 'r'
  | '\\' => some '\\'
  | '"' => some '"'
  | _ => none

/-- The character that a letter after a backslash stands for. -/
def unescapeLetter? : Char → Option Char
  | 'n' => some '\n'
  | 't' => some '\t'
  | 'r' => some '\r'
  | '\\' => some '\\'
  | '"' => some '"'
  | _ => none

/-- The spelling of one character inside quotes. -/
def escapeChar (c : Char) : List Char :=
  match escapeLetter? c with
  | some letter => ['\\', letter]
  | none => [c]

/-- The spelling of a text inside quotes. -/
def escape (text : List Char) : List Char :=
  text.flatMap escapeChar

theorem unescapeLetter?_of_escapeLetter? {c letter : Char} (h : escapeLetter? c = some letter) :
    unescapeLetter? letter = some c := by
  unfold escapeLetter? at h
  split at h
  case h_6 => simp at h
  all_goals
    obtain rfl := Option.some.inj h
    rfl

end SmallLisp.Text

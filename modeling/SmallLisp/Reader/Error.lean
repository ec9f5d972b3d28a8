import SmallLisp.Text.Position

/-!
# Read errors

A read error is a cause and the location of the text it is about. Only one cause can be mended by more
text: the text ended inside something.
-/

namespace SmallLisp

/-- Why a text cannot be read. -/
inductive ReadFault where
  /-- The text ended inside the named construct. -/
  | unexpectedEnd (construct : String)
  | unmatchedDelimiter (closer : Char)
  | invalidNumber (run : String)
  | unsupportedEscape (letter : Char)
  | unsupportedCharacter (name : String)
  | emptyKeyword
  | unknownDispatch (c : Char)
  | oddMapForms
  /-- Two keys of one map literal are equal; the key is given as text. -/
  | duplicateKey (key : String)
deriving DecidableEq, Repr

namespace ReadFault

/-- The wording of a fault. -/
def message : ReadFault → String
  | .unexpectedEnd construct => "EOF while reading " ++ construct
  | .unmatchedDelimiter closer => "Unmatched delimiter: " ++ closer.toString
  | .invalidNumber run => "Invalid number: " ++ run
  | .unsupportedEscape letter => "Unsupported escape character: \\" ++ letter.toString
  | .unsupportedCharacter name => "Unsupported character: \\" ++ name
  | .emptyKeyword => "Expected keyword name after ':'"
  | .unknownDispatch c => "No dispatch macro for: #" ++ c.toString
  | .oddMapForms => "Map literal must contain an even number of forms"
  | .duplicateKey key => "Duplicate key: " ++ key

end ReadFault

/-- A fault and the location of the text it is about. -/
structure ReadError where
  fault : ReadFault
  location : Text.Location
deriving DecidableEq, Repr

namespace ReadError

/-- The wording of a read error. -/
def message (e : ReadError) : String :=
  e.fault.message ++ " (line " ++ Nat.repr e.location.line ++ ", column " ++
    Nat.repr e.location.column ++ ")"

/-- A result whose fault, if there is one, is about the text at the given location. -/
def locate {α : Type} (location : Text.Location) : Except ReadFault α → Except ReadError α
  | .ok a => .ok a
  | .error fault => .error ⟨fault, location⟩

/-- Whether more text could complete the form. -/
def isIncomplete (e : ReadError) : Bool :=
  match e.fault with
  | .unexpectedEnd _ => true
  | _ => false

end ReadError

end SmallLisp

import SmallLisp.Reader.Error
import SmallLisp.Token.Basic
import SmallLisp.Value.Collection
import SmallLisp.Value.Printer

/-!
# Collections that are still open

Reading a form keeps a stack of frames, one for each collection that is open, the innermost first. A
token either opens a frame, closes the innermost one, or is an atom; a finished value is added to the
innermost frame, or is the form itself when no frame is open. `step` is that rule, with every way in
which it can fail.
-/

namespace SmallLisp

open Text (Location)

/-- What has been read of a collection; elements of sequences are held newest first. -/
inductive Partial where
  | list (items : List Value)
  | vector (items : List Value)
  | set (items : List Value)
  /-- The finished entries, and a key that waits for its value with the place where it began. -/
  | map (entries : List (Value × Value)) (pending : Option (Value × Location))

/-- An open collection and the place of its opening bracket. -/
structure Frame where
  opened : Location
  content : Partial

/-- Where reading a form stands after a token. -/
inductive Progress where
  | done (form : Value)
  | reading (stack : List Frame)

namespace Partial

/-- A collection of which nothing has been read. -/
def empty : Shape → Partial
  | .list => .list []
  | .vector => .vector []
  | .set => .set []
  | .map => .map [] none

def shape : Partial → Shape
  | .list _ => .list
  | .vector _ => .vector
  | .set _ => .set
  | .map _ _ => .map

end Partial

namespace Frame

def shape (f : Frame) : Shape :=
  f.content.shape

/-- Adds a finished value that began at the given place. In a map keys and values alternate, and an
entry is refused when its key is there already. -/
def add (f : Frame) (v : Value) (start : Location) : Except ReadError Frame :=
  match f.content with
  | .list items => .ok { f with content := .list (v :: items) }
  | .vector items => .ok { f with content := .vector (v :: items) }
  | .set items => .ok { f with content := .set (v :: items) }
  | .map entries none => .ok { f with content := .map entries (some (v, start)) }
  | .map entries (some (key, keyStart)) =>
    if (Value.lookup? key entries).isSome then
      .error ⟨.duplicateKey key.print, keyStart⟩
    else
      .ok { f with content := .map (Value.insertEntry key v entries) none }

/-- The collection, closed at the given place; a map must not end between a key and its value. -/
def finish (f : Frame) (place : Location) : Except ReadError Value :=
  match f.content with
  | .list items => .ok (.list items.reverse)
  | .vector items => .ok (.vector items.reverse)
  | .set items => .ok (Value.ofItems items.reverse)
  | .map entries none => .ok (.map entries)
  | .map _ (some _) => .error ⟨.oddMapForms, place⟩

end Frame

namespace Progress

/-- Hands a finished value that began at the given place to the innermost open collection. -/
def deliver (v : Value) (start : Location) : List Frame → Except ReadError Progress
  | [] => .ok (.done v)
  | frame :: outer =>
    match frame.add v start with
    | .ok frame => .ok (.reading (frame :: outer))
    | .error e => .error e

/-- Closes the innermost open collection, if the bracket is the one that closes it. -/
def close (closer : Closer) (place : Location) : List Frame → Except ReadError Progress
  | [] => .error ⟨.unmatchedDelimiter closer.char, place⟩
  | frame :: outer =>
    if frame.shape.closer = closer then
      match frame.finish place with
      | .ok v => deliver v frame.opened outer
      | .error e => .error e
    else
      .error ⟨.unmatchedDelimiter closer.char, place⟩

/-- Takes one token that begins at the given place. -/
def step (stack : List Frame) (token : Token) (place : Location) : Except ReadError Progress :=
  match token with
  | .opening shape => .ok (.reading (⟨place, .empty shape⟩ :: stack))
  | .closing closer => close closer place stack
  | .atom a => deliver a.toValue place stack

/-- The end of the text: there is no form, unless a collection is open. -/
def finish : List Frame → Except ReadError (Option Value)
  | [] => .ok none
  | frame :: _ => .error ⟨.unexpectedEnd frame.shape.name, frame.opened⟩

end Progress

end SmallLisp

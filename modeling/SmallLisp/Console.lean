import SmallLisp.Session
import SmallLisp.Text.Lines

/-!
# The console

The console runs a buffer of text form by form and writes down what happens. An error is reported and
the next form is run; a text that cannot be read is skipped up to the end of the line where reading
stopped. A form that is still open at the end of the buffer is left there when more text may follow.
-/

namespace SmallLisp

/-- What a console writes: a line printed by the program, a value, or an error. -/
inductive Event where
  | printed (line : String)
  | value (v : Value)
  | reported (e : Error)

namespace Event

/-- The line of an event. -/
def line : Event → String
  | .printed line => line
  | .value v => v.print
  | .reported e => "Error: " ++ e.message

end Event

/-- What a console writes, in order. -/
abbrev Transcript := Array Event

namespace Transcript

/-- The lines of a transcript as one text. -/
def text (t : Transcript) : String :=
  Text.unlines (t.toList.map Event.line)

end Transcript

/-- A session that is fed with text. -/
structure Console where
  session : Session
  /-- Whether the value of each form is written. -/
  echo : Bool
  /-- The number of errors reported so far. -/
  errors : Nat := 0

/-- Whether a buffer was used up or ends inside a form. -/
inductive Verdict where
  | done
  | needMore
deriving DecidableEq, Repr

/-- The result of feeding a buffer: the text left in it, and what was written. -/
structure Feed where
  console : Console
  verdict : Verdict
  remaining : List Char
  transcript : Transcript

namespace Console

/-- The events of evaluating one form: the lines it printed and its value or error. -/
def outcomeEvents (echo : Bool) (reply : Reply Value) : Transcript :=
  reply.printed.map .printed ++
    match reply.result with
    | .ok v => if echo then #[.value v] else #[]
    | .error e => #[.reported e]

/-- Evaluates one form. -/
def runForm (c : Console) (form : Value) : Console × Transcript :=
  let reply := c.session.evalForm form
  let errors :=
    match reply.result with
    | .ok _ => c.errors
    | .error _ => c.errors + 1
  ({ c with session := reply.session, errors }, outcomeEvents c.echo reply)

/-- Runs the text at a cursor. After a read error reading goes on behind the next newline, with
positions counted from there. -/
def feedFrom (c : Console) (cursor : Cursor) (atEnd : Bool) (transcript : Transcript) : Feed :=
  match _ : cursor.read with
  | (.ok none, _) => ⟨c, .done, [], transcript⟩
  | (.ok (some form), after) =>
    let (c, events) := c.runForm form
    c.feedFrom after atEnd (transcript ++ events)
  | (.error e, after) =>
    if e.isIncomplete && !atEnd then
      ⟨c, .needMore, cursor.rest, transcript⟩
    else
      { c with errors := c.errors + 1 }.feedFrom (Cursor.ofList (Text.afterLine after.rest)) atEnd
        (transcript.push (.reported (.read e)))
termination_by cursor.rest.length
decreasing_by
  · exact Cursor.length_rest_of_read_some ‹_›
  · exact Nat.lt_of_le_of_lt (Text.length_afterLine_le after.rest)
      (Cursor.length_rest_of_read_error ‹_›)

/-- Runs a buffer. `atEnd` says that no text can follow, so an open form is an error. -/
def feed (c : Console) (buffer : List Char) (atEnd : Bool) : Feed :=
  c.feedFrom (Cursor.ofList buffer) atEnd #[]

end Console

end SmallLisp

import SmallLisp.CommandLine.Response

/-!
# The program

Reads what a request needs, and writes the answer. On a terminal, standard input is fed to a console
line by line.
-/

namespace SmallLisp.Main

/-- The bytes of a file, or why they are not there. -/
def readFile (path : String) : IO (Except FileFault ByteArray) := do
  try
    return .ok (← IO.FS.readBinFile path)
  catch e =>
    match e with
    | .noFileOrDirectory .. => return .error .missing
    | .permissionDenied .. => return .error .denied
    | .inappropriateType _ code _ =>
      return .error (if code.toInt32.toInt.natAbs == 21 then .isDirectory else .notDirectory)
    | .invalidArgument _ code details =>
      return .error (if code.toInt32.toInt.natAbs == 36 then .nameTooLong else .other details)
    | e => return .error (.other (toString e))

/-- The prompt for a line that continues a form, as wide as the first prompt. -/
def continuation (prompt : String) : String :=
  let mark := "... "
  String.ofList (List.replicate (prompt.utf8ByteSize - mark.length) ' ') ++ mark

/-- Feeds the lines of a terminal to a console until the input ends. -/
partial def interact (prompt : String) (console : Console) (buffer : List Char) : IO Unit := do
  let stdin ← IO.getStdin
  let stdout ← IO.getStdout
  stdout.putStr (if buffer.isEmpty then prompt else continuation prompt)
  stdout.flush
  let line ← stdin.getLine
  if line.isEmpty then
    unless buffer.isEmpty do
      stdout.putStr (console.feed buffer true).transcript.text
  else
    let feed := console.feed (buffer ++ line.toList) false
    stdout.putStr feed.transcript.text
    interact prompt feed.console feed.remaining

/-- Writes an answer and gives the exit status. -/
def finish (response : Response) : IO UInt32 := do
  let stdout ← IO.getStdout
  let stderr ← IO.getStderr
  stdout.putStr response.output
  stdout.flush
  stderr.putStr response.errors
  return response.status.toUInt32

end SmallLisp.Main

open SmallLisp SmallLisp.Main in
/-- Answers the request that the arguments make. -/
def main (arguments : List String) : IO UInt32 := do
  let request := Request.ofArguments arguments
  match request with
  | .script path =>
    let contents ← readFile path
    finish (request.respond .empty fun _ => contents)
  | .stream echo prompt =>
    let stdin ← IO.getStdin
    if ← stdin.isTty then
      interact prompt { session := Session.standard, echo } []
      return 0
    else
      let input ← stdin.readBinToEnd
      finish (request.respond input fun _ => .error .missing)
  | .misuse =>
    (← IO.getStderr).putStr ("error: invalid arguments\n\n" ++ Response.usageText)
    finish (request.respond .empty fun _ => .error .missing)
  | request => finish (request.respond .empty fun _ => .error .missing)

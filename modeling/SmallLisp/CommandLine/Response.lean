import SmallLisp.CommandLine.Arguments
import SmallLisp.Console

/-!
# The answer to a request

What the program writes and how it exits, given the bytes it reads. An expression or a script stops at
its first error and the exit status tells; standard input goes on after errors.
-/

namespace SmallLisp

/-- Why the bytes of a file are not there. -/
inductive FileFault where
  | missing
  | isDirectory
  | notDirectory
  | nameTooLong
  | denied
  | other (text : String)
deriving DecidableEq, Repr

/-- What the system says of a fault. -/
def FileFault.message : FileFault → String
  | .missing => "No such file or directory (os error 2)"
  | .isDirectory => "Is a directory (os error 21)"
  | .notDirectory => "Not a directory (os error 20)"
  | .nameTooLong => "File name too long (os error 36)"
  | .denied => "Permission denied (os error 13)"
  | .other text => text

/-- How a run of the program ends and what it writes. -/
structure Response where
  status : Nat := 0
  output : String := ""
  errors : String := ""
deriving DecidableEq, Repr

namespace Response

def versionText : String := "sprig 0.1.0\n"

def usageText : String :=
  "Sprig: a small Lisp with persistent environments\n\n" ++
  "Usage: sprig [OPTIONS] [FILE]\n\n" ++
  "Arguments:\n" ++
  "  [FILE]  Source file to run\n\n" ++
  "Options:\n" ++
  "  -e, --eval <EVAL>      Evaluate an expression and print its value\n" ++
  "      --prompt <PROMPT>  Prompt shown by the interactive REPL [default: \"user=> \"]\n" ++
  "  -q, --quiet            Do not echo results in the REPL or for piped input\n" ++
  "  -h, --help             Print help\n" ++
  "  -V, --version          Print version\n"

/-- What is said of bytes that are no text. -/
def invalidText : String := "stream did not contain valid UTF-8"

/-- Evaluates an expression and writes its value. -/
def evaluate (expression : String) : Response :=
  let reply := Session.standard.evalPrint expression
  match reply.result with
  | .ok text => { output := Text.unlines reply.printed.toList ++ text ++ "\n" }
  | .error e =>
    { status := 1, output := Text.unlines reply.printed.toList, errors := "Error: " ++ e.message ++ "\n" }

/-- Runs a script up to its first error; values are not written. -/
def script (path : String) (contents : Except FileFault ByteArray) : Response :=
  let unreadable (text : String) : Response :=
    { status := 1, errors := "Error reading " ++ path ++ ": " ++ text ++ "\n" }
  match contents with
  | .error fault => unreadable fault.message
  | .ok bytes =>
    match String.fromUTF8? bytes with
    | none => unreadable invalidText
    | some text =>
      let reply := Session.standard.evalText text
      match reply.result with
      | .ok _ => { output := Text.unlines reply.printed.toList }
      | .error e =>
        { status := 1, output := Text.unlines reply.printed.toList,
          errors := "Error in " ++ path ++ ": " ++ e.message ++ "\n" }

/-- Runs all of standard input and goes on after errors. -/
def stream (echo : Bool) (input : ByteArray) : Response :=
  match String.fromUTF8? input with
  | none => { status := 1, errors := "Error: " ++ invalidText ++ "\n" }
  | some text =>
    let console : Console := { session := Session.standard, echo }
    { output := (console.feed text.toList true).transcript.text }

end Response

namespace Request

/-- The answer to a request, given standard input and the files. -/
def respond (input : ByteArray) (file : String → Except FileFault ByteArray) : Request → Response
  | .version => { output := Response.versionText }
  | .usage => { output := Response.usageText }
  | .evaluate expression => Response.evaluate expression
  | .script path => Response.script path (file path)
  | .stream echo _ => Response.stream echo input
  | .misuse => { status := 2 }

end Request

end SmallLisp

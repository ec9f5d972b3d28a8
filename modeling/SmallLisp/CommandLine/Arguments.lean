/-!
# What the arguments ask for

The arguments ask for one of a few things: to evaluate an expression, to run a script, to run what
comes on standard input, or to show the version or the usage. They are taken one by one, and the first
that makes no sense, or that asks for the version or the usage, settles the matter.
-/

namespace SmallLisp

/-- What the options say, as far as they were read. -/
structure Options where
  expression : Option String := none
  file : Option String := none
  prompt : Option String := none
  quiet : Bool := false
deriving DecidableEq, Repr

/-- What the arguments ask for. -/
inductive Request where
  | version
  | usage
  | evaluate (expression : String)
  | script (path : String)
  /-- Run standard input; values are written if `echo` is set, and `prompt` is for a terminal. -/
  | stream (echo : Bool) (prompt : String)
  /-- The arguments make no sense. -/
  | misuse
deriving DecidableEq, Repr

/-- The options that take a value. -/
inductive ValueOption where
  | expression
  | prompt
deriving DecidableEq, Repr

namespace Options

/-- Gives an option its value, which may be done once. -/
def set? (o : Options) : ValueOption → String → Option Options
  | .expression, text =>
    if o.expression.isNone then some { o with expression := some text } else none
  | .prompt, text => if o.prompt.isNone then some { o with prompt := some text } else none

/-- Sets the flag for silence, which may be done once. -/
def silence? (o : Options) : Option Options :=
  if o.quiet then none else some { o with quiet := true }

/-- Takes an argument that is no option: there is one file, and its name is not empty. -/
def addFile? (o : Options) (path : String) : Option Options :=
  if o.file.isNone && !path.isEmpty then some { o with file := some path } else none

/-- What complete options ask for; an expression and a file exclude each other. -/
def request (o : Options) : Request :=
  match o.expression, o.file with
  | some _, some _ => .misuse
  | some expression, none => .evaluate expression
  | none, some path => .script path
  | none, none => .stream (!o.quiet) (o.prompt.getD "user=> ")

end Options

/-- What one argument means. -/
inductive Argument where
  /-- Nothing but files follows. -/
  | terminator
  /-- An option that takes a value, with the value if the argument holds it. -/
  | valued (option : ValueOption) (value : Option String)
  | quiet
  | version
  | usage
  | file (path : String)
  | unknown
deriving DecidableEq, Repr

namespace Argument

/-- Whether an argument looks like an option: a lone dash does not. -/
def isOptionLike (text : String) : Bool :=
  match text.toList with
  | '-' :: _ :: _ => true
  | _ => false

/-- A long option: its name, and its value after an equals sign. -/
def ofLong (body : List Char) : Argument :=
  let name := String.ofList (body.takeWhile (· != '='))
  let value : Option String :=
    match body.dropWhile (· != '=') with
    | [] => none
    | _ :: text => some (String.ofList text)
  if name == "eval" then .valued .expression value
  else if name == "prompt" then .valued .prompt value
  else if value.isSome then .unknown
  else if name == "quiet" then .quiet
  else if name == "version" then .version
  else if name == "help" then .usage
  else .unknown

/-- A row of short options: flags, up to one that takes the rest of the row as its value. -/
def ofShort : List Char → List Argument
  | [] => []
  | 'q' :: rest => .quiet :: ofShort rest
  | 'V' :: _ => [.version]
  | 'h' :: _ => [.usage]
  | ['e'] => [.valued .expression none]
  | 'e' :: '=' :: text => [.valued .expression (some (String.ofList text))]
  | 'e' :: text => [.valued .expression (some (String.ofList text))]
  | _ => [.unknown]

/-- The meanings of one argument; a row of short options has several. -/
def ofText (text : String) : List Argument :=
  match text.toList with
  | ['-', '-'] => [.terminator]
  | '-' :: '-' :: body => [ofLong body]
  | '-' :: c :: body => ofShort (c :: body)
  | _ => [.file text]

end Argument

/-- What is known after some arguments: options and perhaps one that waits for its value, or the
answer. -/
inductive Parsing where
  | options (o : Options)
  | waiting (o : Options) (option : ValueOption)
  | files (o : Options)
  | settled (request : Request)
deriving DecidableEq, Repr

namespace Parsing

/-- Goes on with changed options, if the change was allowed. -/
def ofOptions? : Option Options → Parsing
  | some o => .options o
  | none => .settled .misuse

/-- Takes one meaning of an argument. -/
def takeMeaning (o : Options) : Argument → Parsing
  | .terminator => .files o
  | .valued option (some value) => ofOptions? (o.set? option value)
  | .valued option none => .waiting o option
  | .quiet => ofOptions? o.silence?
  | .version => .settled .version
  | .usage => .settled .usage
  | .file path => ofOptions? (o.addFile? path)
  | .unknown => .settled .misuse

/-- Takes the meanings of one argument. -/
def takeMeanings (p : Parsing) : List Argument → Parsing
  | [] => p
  | a :: rest =>
    match p with
    | .options o => takeMeanings (takeMeaning o a) rest
    | p => p

/-- Takes one argument. An option that waits for its value does not take another option for it. -/
def take (p : Parsing) (text : String) : Parsing :=
  match p with
  | .options o => takeMeanings (.options o) (Argument.ofText text)
  | .waiting o option =>
    if Argument.isOptionLike text then .settled .misuse else ofOptions? (o.set? option text)
  | .files o =>
    match o.addFile? text with
    | some o => .files o
    | none => .settled .misuse
  | .settled request => .settled request

/-- The request when there are no more arguments. -/
def request : Parsing → Request
  | .options o => o.request
  | .waiting _ _ => .misuse
  | .files o => o.request
  | .settled request => request

end Parsing

namespace Request

/-- What a list of arguments asks for. -/
def ofArguments (arguments : List String) : Request :=
  (arguments.foldl Parsing.take (.options {})).request

end Request

end SmallLisp

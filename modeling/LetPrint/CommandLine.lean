import LetPrint.Session

/-! # The command line

The arguments name a task and a file, and optionally a log level, before or after the task. A level
can also come from the process environment. What the task prints and the exit code follow from the
contents of the file alone.
-/
namespace LetPrint

namespace CommandLine

inductive Task where
  | run
  | lex
  deriving DecidableEq, Repr

def Task.ofName? (name : String) : Option Task :=
  if name = "run" then some .run else if name = "lex" then some .lex else none

/-- The greatest level that is logged; nothing is logged when switched off. -/
inductive LogFilter where
  | off
  | upTo (level : Level)
  deriving DecidableEq, Repr

def LogFilter.admits (event : Event) : LogFilter → Bool
  | off => false
  | upTo level => event.level.rank ≤ level.rank

def LogFilter.ofName? (name : String) : Option LogFilter :=
  [("off", off), ("error", upTo .error), ("warn", upTo .warn), ("info", upTo .info),
    ("debug", upTo .debug), ("trace", upTo .trace)].lookup
      (String.ofList (name.toList.map Char.toLower))

inductive Request where
  | version
  | perform (task : Task) (file : String) (filter : LogFilter)
  | misuse
  deriving DecidableEq, Repr

inductive Argument where
  | level (name : String)
  | version
  | separator
  | plain (text : String)
  | unknown
  deriving DecidableEq, Repr

/-- The form of an argument that stands alone. A lone dash is plain; the short form of the version
option may lead a cluster. -/
def Argument.ofText (text : String) : Argument :=
  let lead := "--log-level=".toList
  if lead.isPrefixOf text.toList then .level (String.ofList (text.toList.drop lead.length))
  else if text = "--version" then .version
  else
    match text.toList with
    | '-' :: 'V' :: _ => .version
    | '-' :: _ :: _ => .unknown
    | _ => .plain text

/-- The arguments by their forms. A level option takes the argument after it, and two dashes make
all that follow plain. -/
def Argument.ofTexts : List String → List Argument
  | [] => []
  | text :: rest =>
    if text = "--" then .separator :: rest.map .plain
    else if text = "--log-level" then
      match rest with
      | [] => [.unknown]
      | name :: rest => .level name :: ofTexts rest
    else .ofText text :: ofTexts rest

/-- The level in force where `given` is what the arguments say: without one, that of the process
environment, which must be a level if it is there. -/
def withFallback (ambient : Option String) (given : Option LogFilter) :
    Option (Option LogFilter) :=
  match given, ambient with
  | some filter, _ => some (some filter)
  | none, none => some none
  | none, some name => (LogFilter.ofName? name).map some

/-- The level that counts: the one after the task, or else the one before it, or else warnings. -/
def chosen (before after : Option LogFilter) : LogFilter := (after <|> before).getD (.upTo .warn)

/-- Reads the arguments after a task: a level at most once, and one nonempty file name. -/
def readTask (ambient : Option String) (task : Task) (before level : Option LogFilter)
    (file : Option String) : List Argument → Request
  | [] =>
    match file, withFallback ambient level, withFallback ambient before with
    | some file, some after, some before => .perform task file (chosen before after)
    | _, _, _ => .misuse
  | .level name :: rest =>
    match level, LogFilter.ofName? name with
    | none, some filter => readTask ambient task before (some filter) file rest
    | _, _ => .misuse
  | .separator :: rest => readTask ambient task before level file rest
  | .plain text :: rest =>
    if file.isSome || text = "" then .misuse
    else readTask ambient task before level (some text) rest
  | .version :: _ => .misuse
  | .unknown :: _ => .misuse

/-- Reads the arguments up to the task: a level at most once. The version is answered at once. -/
def readLeading (ambient : Option String) (level : Option LogFilter) : List Argument → Request
  | [] => .misuse
  | .level name :: rest =>
    match level, LogFilter.ofName? name with
    | none, some filter => readLeading ambient (some filter) rest
    | _, _ => .misuse
  | .version :: _ => .version
  | .plain text :: rest =>
    match Task.ofName? text with
    | some task => readTask ambient task level none none rest
    | none => .misuse
  | .separator :: _ => .misuse
  | .unknown :: _ => .misuse

def Request.ofArguments (ambient : Option String) (arguments : List String) : Request :=
  readLeading ambient none (Argument.ofTexts arguments)

inductive ReadFailure where
  | missing
  | directory
  | notText
  | other (message : String)
  deriving DecidableEq, Repr

def ReadFailure.toError (failure : ReadFailure) : Error :=
  let message := match failure with
    | missing => "No such file or directory (os error 2)"
    | directory => "Is a directory (os error 21)"
    | notText => "stream did not contain valid UTF-8"
    | other message => message
  ⟨.io message, none⟩

def decode (contents : ByteArray) : Except ReadFailure String :=
  match String.fromUTF8? contents with
  | some text => .ok text
  | none => .error .notText

structure Answer where
  exit : Nat
  written : List UInt8
  deriving DecidableEq, Repr

def versionLine : String := "zed 0.1.0"

def line (text : String) : List UInt8 := Text.bytes (text.toList ++ ['\n'])

def Task.perform (source : String) : Task → Traced (Except Error Unit × Session × Sink)
  | run => Session.run {} source {}
  | lex => Session.writeTokens {} source {}

/-- Performs a task on the contents of a file; an error is written as the last line. -/
def perform (task : Task) (contents : Except ReadFailure ByteArray) : Traced Answer :=
  match contents.bind decode with
  | .error failure => pure ⟨1, line failure.toError.render⟩
  | .ok source => do
    let (result, _, sink) ← task.perform source
    match result with
    | .ok () => return ⟨0, sink.written⟩
    | .error error => return ⟨1, sink.written ++ line error.render⟩

def Request.answer (contents : String → Except ReadFailure ByteArray) : Request → Traced Answer
  | version => pure ⟨0, line versionLine⟩
  | misuse => pure ⟨2, []⟩
  | perform task file _ => CommandLine.perform task (contents file)

end CommandLine

end LetPrint

import LetPrint.Evaluation
import LetPrint.Language
import LetPrint.Lexer

/-! # Sessions

A session runs sources one after another on one environment. The lexer and the parser of the
language are built when they are first needed and kept until they are reset.
-/
namespace LetPrint

/-- The environment, and whether the lexer and the parser are already built. -/
structure Session where
  env : Environment := {}
  lexerReady : Bool := false
  parserReady : Bool := false
  deriving DecidableEq, Repr

namespace Session

def resetLexer (s : Session) : Traced Session := do
  Traced.note .resetLexer
  return { s with lexerReady := false }

def resetParser (s : Session) : Traced Session := do
  Traced.note .resetParser
  return { s with parserReady := false }

/-- Keeps what could be built; the log of its making counts only if it was not ready. -/
def keep {α : Type} (s kept : Session) (ready : Bool) (built : Traced (Except Error α)) :
    Traced (Except Error α × Session) :=
  match built.value with
  | .error error => ⟨(.error error, s), built.log⟩
  | .ok made => ⟨(.ok made, kept), if ready then [] else built.log⟩

def lexer (s : Session) : Traced (Except Error Lexer × Session) :=
  s.keep { s with lexerReady := true } s.lexerReady Lexer.language

def parser (s : Session) : Traced (Except Error Parser × Session) :=
  s.keep { s with parserReady := true } s.parserReady Language.parser

/-- Runs a program and flushes the sink; after a failure, names that got no value are forgotten
unless they are in the checkpoint. -/
def execute (env : Environment) (checkpoint : List String) (program : Program) (sink : Sink) :
    Traced (Except Error Unit × Machine) := do
  let (result, m) ← program.exec ⟨env, sink⟩
  match m.sink.flushAfter result with
  | (.ok (), sink) => return (.ok (), { m with sink := sink })
  | (.error error, sink) => return (.error error, ⟨← m.env.rollbackNoted checkpoint, sink⟩)

def resume (s : Session) (sink : Sink) :
    Except Error Program × Environment → Traced (Except Error Unit × Session × Sink)
  | (.error error, env) => return (.error error, { s with env := env }, sink)
  | (.ok program, env) => do
    Traced.note (.parsed program.statements.length)
    let (result, m) ← execute env s.env.checkpoint program sink
    return (result, { s with env := m.env }, m.sink)

def run (s : Session) (source : String) (sink : Sink) :
    Traced (Except Error Unit × Session × Sink) := do
  let (lexer, s) ← s.lexer
  match lexer with
  | .error error => return (.error error, s, sink)
  | .ok lexer =>
    let (parser, s) ← s.parser
    match parser with
    | .error error => return (.error error, s, sink)
    | .ok parser => s.resume sink (← parser.parse (lexer.feed source) s.env)

def parseFeed (s : Session) (feed : Feed) : Traced (Except Error Program × Session) := do
  let (parser, s) ← s.parser
  match parser with
  | .error error => return (.error error, s)
  | .ok parser =>
    let (program, env) ← parser.parse feed s.env
    return (program, { s with env := env })

/-- Lexes and parses a source; the parser is made ready before the lexer. -/
def parseSource (s : Session) (source : String) : Traced (Except Error Program × Session) := do
  let (parser, s) ← s.parser
  match parser with
  | .error error => return (.error error, s)
  | .ok parser =>
    let (lexer, s) ← s.lexer
    match lexer with
    | .error error => return (.error error, s)
    | .ok lexer =>
      let (program, env) ← parser.parse (lexer.feed source) s.env
      return (program, { s with env := env })

def collect : List (Except Error Token) → Traced (Except Error (List Token))
  | [] => pure (.ok [])
  | .error error :: _ => pure (.error error)
  | .ok token :: rest => do
    Traced.note (.lexed token)
    (·.map (token :: ·)) <$> collect rest

def lexSource (s : Session) (source : String) : Traced (Except Error (List Token) × Session) := do
  let (lexer, s) ← s.lexer
  match lexer with
  | .error error => return (.error error, s)
  | .ok lexer => return (← collect (lexer.scan source), s)

def writeLines (sink : Sink) : List (Except Error Token) → Traced (Except Error Unit × Sink)
  | [] => pure (.ok (), sink)
  | .error error :: _ => pure (.error error, sink)
  | .ok token :: rest => do
    Traced.note (.lexed token)
    match sink.writeLine token.render with
    | (.error error, sink) => return (.error error, sink)
    | (.ok (), sink) => writeLines sink rest

def writeTokens (s : Session) (source : String) (sink : Sink) :
    Traced (Except Error Unit × Session × Sink) := do
  let (lexer, s) ← s.lexer
  match lexer with
  | .error error => return (.error error, s, sink)
  | .ok lexer =>
    let (result, sink) ← writeLines sink (lexer.scan source)
    let (result, sink) := sink.flushAfter result
    return (result, s, sink)

end Session

end LetPrint

import LetPrint.Automaton.Table
import LetPrint.Environment
import LetPrint.Stream

/-! # Parsing

A parser shifts tokens and reduces productions as its table says, one token of lookahead at a time.
A reduction builds the value of its production and may declare names on the way. The first error
ends the parse, and the declarations of a failed parse are taken back.
-/
namespace LetPrint

/-- Builds the value of a production from the values of its right-hand side, in source order. -/
abbrev Reduction := Environment → List Fragment → Traced (Except Error Fragment × Environment)

def Reduction.last : Reduction := fun env values =>
  match values.getLast? with
  | some value => ⟨(.ok value, env), []⟩
  | none => ⟨(.error (.ofFault .emptyValueStack), env), []⟩

structure Parser where
  grammar : Grammar
  table : Table
  reduction : Nat → Reduction

/-- Where a parse stands: states and values with the top first, the environment, the token looked
at (none at the end of input), the rest of the feed and the end of the last shifted token. -/
structure Config where
  states : List Nat
  values : List Fragment
  env : Environment
  lookahead : Option Token
  feed : Feed
  lastEnd : Option Position

namespace Config

def top (c : Config) : Nat := c.states.headD 0

def terminal (c : Config) : Terminal :=
  match c.lookahead with
  | some token => .token token.kind
  | none => .endOfInput

end Config

/-- How a parse ends; a parse that never shifts again is stalled. -/
inductive Outcome where
  | accepted (value : Fragment)
  | failed (error : Error)
  | stalled

def Outcome.toProgram : Outcome → Except Error Program
  | accepted value => value.toProgram
  | failed error => .error error
  | stalled => .error (.ofFault .stalled)

inductive Step where
  | shifted (config : Config)
  | reduced (config : Config)
  | halted (outcome : Outcome) (env : Environment)

namespace Step

def failed (error : Error) (env : Environment) : Step := halted (.failed error) env

def fault (fault : Fault) (env : Environment) : Step := failed (.ofFault fault) env

end Step

namespace Parser

/-- The error of a terminal without an action: the token itself, or the end of input at the end of
the last token. -/
def unexpected (p : Parser) (c : Config) : Error :=
  let expected := (p.table.expected c.top).map Terminal.name
  match c.lookahead with
  | some token => .located (.unexpectedToken token.text expected) token.position
  | none => ⟨.unexpectedEnd expected, c.lastEnd⟩

def shift (c : Config) (state : Nat) : Traced Step :=
  match c.lookahead with
  | none => pure (.fault .shiftPastEnd c.env)
  | some token => do
    Traced.note (.shifted token state)
    let (item, feed) ← c.feed.pull
    let shifted := { c with
      states := state :: c.states
      values := .token token :: c.values
      feed := feed
      lastEnd := some token.span.stop }
    match item with
    | none => return .shifted { shifted with lookahead := none }
    | some (.ok next) => return .shifted { shifted with lookahead := some next }
    | some (.error error) => return .failed error c.env

def reduce (p : Parser) (c : Config) (production : Nat) : Traced Step :=
  let rule := p.grammar.production production
  let arity := rule.rhs.length
  if c.values.length < arity || c.states.length ≤ arity then
    pure (.fault (.stackUnderflow rule) c.env)
  else do
    Traced.note (.reduced rule)
    let (result, env) ← p.reduction production c.env (c.values.take arity).reverse
    let states := c.states.drop arity
    match result with
    | .error error => return .failed error env
    | .ok value =>
      match p.table.goto (states.headD 0) rule.lhs with
      | none => return .fault (.noGoto (states.headD 0) rule.lhs) env
      | some state =>
        return .reduced { c with
          states := state :: states
          values := value :: c.values.drop arity
          env := env }

def accept (c : Config) : Step :=
  match c.values with
  | [] => .fault .emptyValueStack c.env
  | value :: _ => .halted (.accepted value) c.env

def step (p : Parser) (c : Config) : Traced Step :=
  match p.table.action c.top c.terminal with
  | none => pure (.failed (p.unexpected c) c.env)
  | some (.shift state) => shift c state
  | some (.reduce production) => p.reduce c production
  | some .accept => pure (accept c)

/-- A number of reductions that no parse exceeds before it shifts or ends: meanwhile the stack
grows by no more than the number of states, and no stack comes twice. -/
def budget (p : Parser) (c : Config) : Nat :=
  let states := p.table.stateCount + 2
  Nat.pow states (c.states.length + states)

def settle (p : Parser) : Nat → Config → Traced Step
  | 0, c => pure (.halted .stalled c.env)
  | fuel + 1, c => do
    match ← p.step c with
    | .reduced next => p.settle fuel next
    | .shifted next => return .shifted next
    | .halted outcome env => return .halted outcome env

/-- Takes steps until the parse ends, with room for a number of shifts. -/
def run (p : Parser) : Nat → Config → Traced (Outcome × Environment)
  | 0, c => pure (.stalled, c.env)
  | shifts + 1, c => do
    match ← p.settle (p.budget c) c with
    | .shifted next => p.run shifts next
    | .reduced next => return (.stalled, next.env)
    | .halted outcome env => return (outcome, env)

def initial (env : Environment) (lookahead : Option Token) (feed : Feed) : Config :=
  { states := [0], values := [], env, lookahead, feed, lastEnd := none }

def drive (p : Parser) (feed : Feed) (env : Environment) : Traced (Outcome × Environment) := do
  let (item, rest) ← feed.pull
  match item with
  | none => p.run (rest.items.length + 1) (initial env none rest)
  | some (.ok token) => p.run (rest.items.length + 2) (initial env (some token) rest)
  | some (.error error) => return (.failed error, env)

/-- Parses a feed to a program; a failed parse leaves no new declarations. -/
def parse (p : Parser) (feed : Feed) (env : Environment) :
    Traced (Except Error Program × Environment) := do
  let (outcome, after) ← p.drive feed env
  match outcome.toProgram with
  | .ok program => return (.ok program, after)
  | .error error => return (.error error, ← after.rollbackNoted env.checkpoint)

def build (grammar : Grammar) (reduction : Nat → Reduction) : Traced (Except Error Parser) :=
  let canonical := Automaton.canonical grammar
  match Table.ofAutomaton grammar canonical.merged with
  | .error conflict => pure (.error (conflict.toError grammar))
  | .ok table => do
    Traced.note (.builtTable canonical.states.length table.stateCount)
    Traced.note (.builtParser grammar.productions.length table.stateCount)
    return .ok ⟨grammar, table, reduction⟩

end Parser

end LetPrint

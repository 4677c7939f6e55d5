import LetPrint.Program

/-! # The log

Steps that are worth following are events. A traced result carries the events of its computation in
order; they never influence the result.
-/
namespace LetPrint

inductive Level where
  | error
  | warn
  | info
  | debug
  | trace
  deriving DecidableEq, Repr

def Level.rank : Level → Nat
  | error => 0
  | warn => 1
  | info => 2
  | debug => 3
  | trace => 4

def Level.name : Level → String
  | error => "ERROR"
  | warn => "WARN"
  | info => "INFO"
  | debug => "DEBUG"
  | trace => "TRACE"

inductive Event where
  | resetLexer
  | resetParser
  | builtLexer (patterns : Nat)
  | builtTable (canonical merged : Nat)
  | builtParser (productions states : Nat)
  | lexed (token : Token)
  | shifted (token : Token) (state : Nat)
  | reduced (rule : Rule)
  | declared (name : String)
  | resolved (name : String)
  | bound (name : String) (value : Value)
  | rolledBack (declarations : Nat)
  | parsed (statements : Nat)
  | evaluating (statement : Stmt)
  deriving DecidableEq, Repr

namespace Event

/-- The level of an event: steps on single tokens, names and statements are traces. -/
def level : Event → Level
  | resetLexer | resetParser | builtLexer _ | builtTable _ _ | builtParser _ _ | parsed _ => .debug
  | _ => .trace

def message : Event → String
  | resetLexer => "resetting cached lexer"
  | resetParser => "resetting cached parser"
  | builtLexer patterns => "built lexer with " ++ patterns.repr ++ " patterns"
  | builtTable canonical merged =>
    "built LALR(1) table: " ++ canonical.repr ++ " LR(1) states merged into " ++ merged.repr
  | builtParser productions states =>
    "built parser for " ++ productions.repr ++ " productions, " ++ states.repr ++ " states"
  | lexed token => "lexed " ++ token.render
  | shifted token state => "shift " ++ token.render ++ " -> state " ++ state.repr
  | reduced rule => "reduce " ++ rule.render
  | declared name => "declared " ++ Text.quoted name
  | resolved name => "resolved reference to " ++ Text.quoted name
  | bound name value => "bound " ++ Text.quoted name ++ " = " ++ value.describe
  | rolledBack declarations => "rolled back to " ++ declarations.repr ++ " declarations"
  | parsed statements => "parsed program with " ++ statements.repr ++ " statements"
  | evaluating statement => "evaluating " ++ statement.kindName

def render (e : Event) : String := e.level.name ++ " " ++ e.message

end Event

/-- A result and the events of its computation, in order. -/
structure Traced (α : Type) where
  value : α
  log : List Event

namespace Traced

protected def pure {α : Type} (a : α) : Traced α := ⟨a, []⟩

protected def bind {α β : Type} (x : Traced α) (f : α → Traced β) : Traced β :=
  let y := f x.value
  ⟨y.value, x.log ++ y.log⟩

protected def map {α β : Type} (f : α → β) (x : Traced α) : Traced β := ⟨f x.value, x.log⟩

instance : Monad Traced where
  map := Traced.map
  pure := Traced.pure
  bind := Traced.bind

def note (e : Event) : Traced Unit := ⟨(), [e]⟩

@[simp] theorem value_pure {α : Type} (a : α) : (pure a : Traced α).value = a := rfl

@[simp] theorem value_bind {α β : Type} (x : Traced α) (f : α → Traced β) :
    (x >>= f).value = (f x.value).value := rfl

@[simp] theorem value_map {α β : Type} (f : α → β) (x : Traced α) :
    (f <$> x).value = f x.value := rfl

@[simp] theorem log_map {α β : Type} (f : α → β) (x : Traced α) : (f <$> x).log = x.log := rfl

@[simp] theorem log_pure {α : Type} (a : α) : (pure a : Traced α).log = [] := rfl

@[simp] theorem log_bind {α β : Type} (x : Traced α) (f : α → Traced β) :
    (x >>= f).log = x.log ++ (f x.value).log := rfl

end Traced

end LetPrint

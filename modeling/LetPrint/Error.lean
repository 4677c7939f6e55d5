import LetPrint.Grammar.Basic

/-! # Errors

Every failure of lexing, parsing, evaluation and table building is a cause with the place where it
arose, when one is known. The wording of all messages is here.
-/
namespace LetPrint

inductive FragmentKind where
  | token
  | expression
  | statement
  | statementList
  | program
  deriving DecidableEq, Repr

def FragmentKind.name : FragmentKind → String
  | token => "token"
  | expression => "expression"
  | statement => "statement"
  | statementList => "statement list"
  | program => "program"

/-- A failure of the parser itself rather than of its input. -/
inductive Fault where
  | shiftPastEnd
  | stackUnderflow (rule : Rule)
  | noGoto (state : Nat) (lhs : NonTerminal)
  | emptyValueStack
  | wrongArity (wanted found : Nat)
  | wrongFragment (wanted found : FragmentKind)
  | splitCharacter (offset : Nat)
  | stalled
  | other (message : String)
  deriving DecidableEq, Repr

def Fault.message : Fault → String
  | shiftPastEnd => "shift past end of input"
  | stackUnderflow rule => "stack underflow reducing " ++ rule.render
  | noGoto state lhs => "no goto from state " ++ state.repr ++ " on " ++ lhs.name
  | emptyValueStack => "accepted with an empty value stack"
  | wrongArity wanted found =>
    "expected " ++ wanted.repr ++ " values for reduction, found " ++ found.repr
  | wrongFragment wanted found =>
    "expected " ++ wanted.name ++ " on value stack, found " ++ found.name
  | splitCharacter offset => "offset " ++ offset.repr ++ " lies inside a character"
  | stalled => "no progress without input"
  | other message => message

inductive Cause where
  | unrecognisedToken (text : String)
  | unexpectedToken (text : String) (expected : List String)
  | unexpectedEnd (expected : List String)
  | identifierNotDefined (identifier : String)
  | invalidPattern (pattern reason : String)
  | grammarConflict (state : Nat) (symbol detail : String)
  | io (message : String)
  | internal (fault : Fault)
  deriving DecidableEq, Repr

def Cause.name : Cause → String
  | unrecognisedToken _ => "UnrecognisedToken"
  | unexpectedToken _ _ => "UnexpectedToken"
  | unexpectedEnd _ => "UnexpectedEof"
  | identifierNotDefined _ => "IdentifierNotDefined"
  | invalidPattern _ _ => "InvalidPattern"
  | grammarConflict _ _ _ => "GrammarConflict"
  | io _ => "Io"
  | internal _ => "Internal"

def Cause.message : Cause → String
  | unrecognisedToken text => "unrecognised token: " ++ Text.quoted text
  | unexpectedToken text expected =>
    "unexpected token " ++ Text.quoted text ++ ", expected one of: " ++ ", ".intercalate expected
  | unexpectedEnd expected =>
    "unexpected end of input, expected one of: " ++ ", ".intercalate expected
  | identifierNotDefined identifier => "identifier " ++ Text.quoted identifier ++ " not defined"
  | invalidPattern pattern reason => "invalid pattern " ++ Text.quoted pattern ++ ": " ++ reason
  | grammarConflict state symbol detail =>
    "grammar conflict in state " ++ state.repr ++ " on " ++ symbol ++ ": " ++ detail
  | io message => message
  | internal fault => "internal error: " ++ fault.message

/-- A cause and the place where it arose, when one is known. -/
structure Error where
  cause : Cause
  position : Option Position := none
  deriving DecidableEq, Repr

namespace Error

def located (cause : Cause) (position : Position) : Error := ⟨cause, some position⟩

def ofFault (fault : Fault) : Error := ⟨.internal fault, none⟩

/-- The error as it is reported: the place on a line of its own, then the cause. -/
def render (e : Error) : String :=
  let report := "error: " ++ e.cause.message
  match e.position with
  | some p =>
    "At line " ++ p.line.toNat.repr ++ ", column " ++ p.column.toNat.repr ++ ", position "
      ++ p.offset.toNat.repr ++ "\n" ++ report
  | none => report

end Error

end LetPrint

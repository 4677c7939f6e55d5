import LetPrint.Error

/-! # Programs

A program is a list of statements; a statement prints an expression or binds a name. Every node
keeps the stretch of source it was read from. The value of an expression is a string or the
undefined value, which differs from every string.
-/
namespace LetPrint

/-- A string, the undefined value, or a name. -/
inductive Expr where
  | text (content : String) (span : Span)
  | undefined (span : Span)
  | name (identifier : String) (span : Span)
  deriving DecidableEq, Repr

def Expr.span : Expr → Span
  | text _ span => span
  | undefined span => span
  | name _ span => span

/-- Prints an expression, or binds a name to one (to the undefined value when there is none). -/
inductive Stmt where
  | print (operand : Expr) (span : Span)
  | bind (identifier : String) (initializer : Option Expr) (span : Span)
  deriving DecidableEq, Repr

def Stmt.span : Stmt → Span
  | print _ span => span
  | bind _ _ span => span

def Stmt.kindName : Stmt → String
  | print _ _ => "PrintStmt"
  | bind _ _ _ => "LetStmt"

structure Program where
  statements : List Stmt
  span : Span
  deriving DecidableEq, Repr

/-- What stands on the value stack of a parse. -/
inductive Fragment where
  | token (token : Token)
  | expr (expr : Expr)
  | stmt (stmt : Stmt)
  | stmtList (statements : List Stmt)
  | program (program : Program)
  deriving DecidableEq, Repr

namespace Fragment

def kind : Fragment → FragmentKind
  | token _ => .token
  | expr _ => .expression
  | stmt _ => .statement
  | stmtList _ => .statementList
  | program _ => .program

def unfit (f : Fragment) (wanted : FragmentKind) : Error :=
  .ofFault (.wrongFragment wanted f.kind)

def toToken : Fragment → Except Error Token
  | token t => .ok t
  | other => .error (other.unfit .token)

def toExpr : Fragment → Except Error Expr
  | expr e => .ok e
  | other => .error (other.unfit .expression)

def toStmt : Fragment → Except Error Stmt
  | stmt s => .ok s
  | other => .error (other.unfit .statement)

def toStmtList : Fragment → Except Error (List Stmt)
  | stmtList ss => .ok ss
  | other => .error (other.unfit .statementList)

def toProgram : Fragment → Except Error Program
  | program p => .ok p
  | other => .error (other.unfit .program)

end Fragment

inductive Value where
  | text (content : String)
  | undefined
  deriving DecidableEq, Repr

namespace Value

def isUndefined : Value → Bool
  | text _ => false
  | undefined => true

def render : Value → String
  | text content => content
  | undefined => "undefined"

def describe : Value → String
  | text content => "Str(" ++ Text.quoted content ++ ")"
  | undefined => "Undefined"

end Value

end LetPrint

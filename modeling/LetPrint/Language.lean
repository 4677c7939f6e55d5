import LetPrint.Parser

/-! # The language

A program is a nonempty list of statements. A statement prints an expression or binds a name; an
expression is a string, the undefined value or a name that an earlier statement has bound.
-/
namespace LetPrint

/-- The phrases of the language, each with a reduction that builds it. -/
inductive Phrase where
  | program
  | firstStatement
  | nextStatement
  | print
  | declaration
  | definition
  | textLiteral
  | undefinedLiteral
  | reference
  deriving DecidableEq, Repr

namespace Phrase

def wrongArity (wanted : Nat) (parts : List Fragment) : Error :=
  .ofFault (.wrongArity wanted parts.length)

def spanOf (statements : List Stmt) : Span :=
  match statements.head?, statements.getLast? with
  | some first, some last => ⟨first.span.start, last.span.stop⟩
  | _, _ => .atStart

/-- The text of a literal without its first and last byte; nothing when these are not whole
characters. -/
def unquoted (literal : String) : String :=
  match literal.toList with
  | first :: rest =>
    match rest.getLast? with
    | some last =>
      if first.utf8Size = 1 ∧ last.utf8Size = 1 then String.ofList rest.dropLast else ""
    | none => ""
  | [] => ""

def buildProgram : List Fragment → Except Error Fragment
  | [list] => do
    let statements ← list.toStmtList
    return .program ⟨statements, spanOf statements⟩
  | parts => .error (wrongArity 1 parts)

def buildFirst : List Fragment → Except Error Fragment
  | [stmt] => do
    let stmt ← stmt.toStmt
    return .stmtList [stmt]
  | parts => .error (wrongArity 1 parts)

def buildNext : List Fragment → Except Error Fragment
  | [list, stmt] => do
    let statements ← list.toStmtList
    let stmt ← stmt.toStmt
    return .stmtList (statements ++ [stmt])
  | parts => .error (wrongArity 2 parts)

def buildPrint : List Fragment → Except Error Fragment
  | [keyword, operand] => do
    let keyword ← keyword.toToken
    let operand ← operand.toExpr
    return .stmt (.print operand ⟨keyword.position, operand.span.stop⟩)
  | parts => .error (wrongArity 2 parts)

def buildDeclaration : List Fragment → Except Error (Fragment × String)
  | [keyword, identifier] => do
    let keyword ← keyword.toToken
    let identifier ← identifier.toToken
    let span : Span := ⟨keyword.position, identifier.span.stop⟩
    return (.stmt (.bind identifier.text none span), identifier.text)
  | parts => .error (wrongArity 2 parts)

def buildDefinition : List Fragment → Except Error (Fragment × String)
  | [keyword, identifier, _, initializer] => do
    let keyword ← keyword.toToken
    let identifier ← identifier.toToken
    let initializer ← initializer.toExpr
    let span : Span := ⟨keyword.position, initializer.span.stop⟩
    return (.stmt (.bind identifier.text (some initializer) span), identifier.text)
  | parts => .error (wrongArity 4 parts)

def onlyToken : List Fragment → Except Error Token
  | [part] => part.toToken
  | parts => .error (wrongArity 1 parts)

def buildText (parts : List Fragment) : Except Error Fragment := do
  let literal ← onlyToken parts
  return .expr (.text (unquoted literal.text) literal.span)

def buildUndefined (parts : List Fragment) : Except Error Fragment := do
  let literal ← onlyToken parts
  return .expr (.undefined literal.span)

def pureReduction (build : List Fragment → Except Error Fragment) : Reduction :=
  fun env parts => pure (build parts, env)

def declaringReduction (build : List Fragment → Except Error (Fragment × String)) : Reduction :=
  fun env parts =>
    match build parts with
    | .error error => pure (.error error, env)
    | .ok (fragment, name) => do return (.ok fragment, ← env.declareNoted name)

def referenceReduction : Reduction := fun env parts =>
  match onlyToken parts with
  | .error error => pure (.error error, env)
  | .ok identifier =>
    if env.isDeclared identifier.text then do
      Traced.note (.resolved identifier.text)
      return (.ok (.expr (.name identifier.text identifier.span)), env)
    else
      pure (.error (.located (.identifierNotDefined identifier.text) identifier.position), env)

def reduction : Phrase → Reduction
  | program => pureReduction buildProgram
  | firstStatement => pureReduction buildFirst
  | nextStatement => pureReduction buildNext
  | print => pureReduction buildPrint
  | declaration => declaringReduction buildDeclaration
  | definition => declaringReduction buildDefinition
  | textLiteral => pureReduction buildText
  | undefinedLiteral => pureReduction buildUndefined
  | reference => referenceReduction

end Phrase

/-- The reductions of a grammar whose rules build the phrases: production zero hands on its value.
-/
def phraseReductions (phrases : List Phrase) : Nat → Reduction
  | 0 => .last
  | n + 1 =>
    match phrases[n]? with
    | some phrase => phrase.reduction
    | none => .last

namespace Language

/-- The rules of the language and the phrases they build. -/
def rules : List (Rule × Phrase) :=
  [(⟨.program, [.nonTerminal .stmtList]⟩, .program),
   (⟨.stmtList, [.nonTerminal .stmt]⟩, .firstStatement),
   (⟨.stmtList, [.nonTerminal .stmtList, .nonTerminal .stmt]⟩, .nextStatement),
   (⟨.stmt, [.token .printKeyword, .nonTerminal .expr]⟩, .print),
   (⟨.stmt, [.token .letKeyword, .token .identifier]⟩, .declaration),
   (⟨.stmt, [.token .letKeyword, .token .identifier, .token .assignOperator,
     .nonTerminal .expr]⟩, .definition),
   (⟨.expr, [.token .stringLiteral]⟩, .textLiteral),
   (⟨.expr, [.token .undefinedLiteral]⟩, .undefinedLiteral),
   (⟨.expr, [.token .identifier]⟩, .reference)]

def grammar : Grammar := ⟨.program, rules.map (·.1)⟩

def parser : Traced (Except Error Parser) :=
  Parser.build grammar (phraseReductions (rules.map (·.2)))

end Language

end LetPrint

import LetPrint.Position
import LetPrint.Text.Quoted

/-! # Tokens

A token is a kind, the text it was read from and the place where that text starts.
-/
namespace LetPrint

/-- The kinds of tokens, in their order. -/
inductive Kind where
  | stringLiteral
  | undefinedLiteral
  | identifier
  | printKeyword
  | letKeyword
  | assignOperator
  deriving DecidableEq, Repr

namespace Kind

def all : List Kind :=
  [stringLiteral, undefinedLiteral, identifier, printKeyword, letKeyword, assignOperator]

def rank : Kind → Nat
  | stringLiteral => 0
  | undefinedLiteral => 1
  | identifier => 2
  | printKeyword => 3
  | letKeyword => 4
  | assignOperator => 5

def name : Kind → String
  | stringLiteral => "StringLiteral"
  | undefinedLiteral => "UndefinedLiteral"
  | identifier => "Identifier"
  | printKeyword => "PrintKeyword"
  | letKeyword => "LetKeyword"
  | assignOperator => "AssignOperator"

@[simp] theorem mem_all (kind : Kind) : kind ∈ all := by
  cases kind <;> decide

theorem rank_injective {a b : Kind} (h : a.rank = b.rank) : a = b := by
  cases a <;> cases b <;> first | rfl | cases h

theorem rank_lt (kind : Kind) : kind.rank < 6 := by
  cases kind <;> decide

end Kind

structure Token where
  kind : Kind
  text : String
  position : Position
  deriving DecidableEq, Repr

namespace Token

def span (t : Token) : Span := ⟨t.position, t.position.after t.text⟩

/-- The line of a token in a listing: kind, quoted text, and place. -/
def render (t : Token) : String :=
  t.kind.name ++ " " ++ Text.quoted t.text ++ " (" ++ t.position.line.toNat.repr ++ ", "
    ++ t.position.column.toNat.repr ++ ", " ++ t.position.offset.toNat.repr ++ ")"

end Token

end LetPrint

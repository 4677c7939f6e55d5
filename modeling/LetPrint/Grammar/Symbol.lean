import LetPrint.Token

/-! # Grammar symbols

Terminals are the token kinds and the end of input. In the order of symbols all terminals come
first, the end of input last among them.
-/
namespace LetPrint

inductive Terminal where
  | token (kind : Kind)
  | endOfInput
  deriving DecidableEq, Repr

namespace Terminal

def all : List Terminal := Kind.all.map token ++ [endOfInput]

def rank : Terminal → Nat
  | token kind => kind.rank
  | endOfInput => 6

def name : Terminal → String
  | token kind => kind.name
  | endOfInput => "EOF"

@[simp] theorem mem_all (t : Terminal) : t ∈ all := by
  cases t with
  | token kind => simp [all]
  | endOfInput => simp [all]

theorem rank_injective {s t : Terminal} (h : s.rank = t.rank) : s = t := by
  cases s with
  | token a =>
    cases t with
    | token b => rw [Kind.rank_injective h]
    | endOfInput => exact absurd h (Nat.ne_of_lt a.rank_lt)
  | endOfInput =>
    cases t with
    | token b => exact absurd h.symm (Nat.ne_of_lt b.rank_lt)
    | endOfInput => rfl

end Terminal

/-- The nonterminals, in their order; `start` heads the production that accepts. -/
inductive NonTerminal where
  | start
  | program
  | stmtList
  | stmt
  | expr
  deriving DecidableEq, Repr

namespace NonTerminal

def all : List NonTerminal := [start, program, stmtList, stmt, expr]

def name : NonTerminal → String
  | start => "Start"
  | program => "Program"
  | stmtList => "StmtList"
  | stmt => "Stmt"
  | expr => "Expr"

@[simp] theorem mem_all (a : NonTerminal) : a ∈ all := by
  cases a <;> decide

end NonTerminal

inductive Symbol where
  | terminal (t : Terminal)
  | nonTerminal (a : NonTerminal)
  deriving DecidableEq, Repr

namespace Symbol

abbrev token (kind : Kind) : Symbol := terminal (.token kind)

def all : List Symbol := Terminal.all.map terminal ++ NonTerminal.all.map nonTerminal

def name : Symbol → String
  | terminal t => t.name
  | nonTerminal a => a.name

@[simp] theorem mem_all (symbol : Symbol) : symbol ∈ all := by
  cases symbol with
  | terminal t => simp [all]
  | nonTerminal a => simp [all]

end Symbol

end LetPrint

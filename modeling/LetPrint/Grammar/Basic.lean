import LetPrint.Grammar.Symbol

/-! # Grammars

A grammar is a root nonterminal and an ordered list of rules. Production zero leads from `start` to
the root; the rules follow it in order, so a rule is known by its production number.
-/
namespace LetPrint

structure Rule where
  lhs : NonTerminal
  rhs : List Symbol
  deriving DecidableEq, Repr

def Rule.render (r : Rule) : String :=
  r.rhs.foldl (fun line symbol => line ++ " " ++ symbol.name) (r.lhs.name ++ " ::=")

/-- A root nonterminal and the rules, in order. -/
structure Grammar where
  root : NonTerminal
  rules : List Rule
  deriving DecidableEq, Repr

namespace Grammar

/-- Production zero, which leads from `start` to the root. -/
def accepting (g : Grammar) : Rule := ⟨.start, [.nonTerminal g.root]⟩

def productions (g : Grammar) : List Rule := g.accepting :: g.rules

def production (g : Grammar) (number : Nat) : Rule := g.productions.getD number g.accepting

def rhs (g : Grammar) (number : Nat) : List Symbol := (g.production number).rhs

def productionsOf (g : Grammar) (a : NonTerminal) : List Nat :=
  (g.productions.zipIdx.filter (·.1.lhs = a)).map (·.2)

end Grammar

end LetPrint

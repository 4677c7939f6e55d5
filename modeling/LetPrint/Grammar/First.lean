import LetPrint.Grammar.Basic

/-! # What a symbol can begin with

A nonterminal is nullable if it derives the empty string. The terminals that a nonterminal can begin
with are those reached from it by going to the leading symbols of its productions. A walk visits the
nodes of a finite graph breadth first, each once; its fuel need only be the number of nodes that can
be reached.
-/
namespace LetPrint

namespace Reach
variable {α : Type} [DecidableEq α]

def fresh (seen : List α) : List α → List α
  | [] => []
  | x :: rest => if x ∈ seen then fresh seen rest else x :: fresh (x :: seen) rest

/-- Visits the waiting nodes in turn, and after them what they lead to; `visited` has the last node
first. -/
def walk (next : α → List α) : Nat → List α → List α → List α
  | 0, visited, waiting => visited.reverse ++ waiting
  | _ + 1, visited, [] => visited.reverse
  | fuel + 1, visited, x :: waiting =>
    walk next fuel (x :: visited) (waiting ++ fresh (x :: visited ++ waiting) (next x))

def closure (next : α → List α) (fuel : Nat) (seeds : List α) : List α :=
  walk next fuel [] (fresh [] seeds)

end Reach

namespace Grammar

def allIn (known : List NonTerminal) (symbols : List Symbol) : Bool :=
  symbols.all fun
    | .terminal _ => false
    | .nonTerminal a => decide (a ∈ known)

def nullableRound (g : Grammar) (known : List NonTerminal) : List NonTerminal :=
  NonTerminal.all.filter fun a => g.productions.any fun r => r.lhs = a && allIn known r.rhs

def nullableAfter (g : Grammar) : Nat → List NonTerminal
  | 0 => []
  | n + 1 => g.nullableRound (g.nullableAfter n)

/-- The nullable nonterminals; a round that finds none is the last, so one round for each
nonterminal is enough. -/
def nullable (g : Grammar) : List NonTerminal := g.nullableAfter NonTerminal.all.length

/-- The symbols with nothing but nullable nonterminals before them. -/
def leading (nullable : List NonTerminal) : List Symbol → List Symbol
  | [] => []
  | .terminal t :: _ => [.terminal t]
  | .nonTerminal a :: rest => .nonTerminal a :: if a ∈ nullable then leading nullable rest else []

def leadsTo (g : Grammar) (nullable : List NonTerminal) : Symbol → List Symbol
  | .terminal _ => []
  | .nonTerminal a => (g.productions.filter (·.lhs = a)).flatMap fun r => leading nullable r.rhs

def firstOf (g : Grammar) (nullable : List NonTerminal) (a : NonTerminal) : List Terminal :=
  let reached := Reach.closure (g.leadsTo nullable) Symbol.all.length [.nonTerminal a]
  Terminal.all.filter fun t => .terminal t ∈ reached

end Grammar

/-- The nullable nonterminals of a grammar and the terminals that each nonterminal can begin with.
-/
structure FirstSets where
  nullable : List NonTerminal
  first : List (NonTerminal × List Terminal)

namespace FirstSets

def ofGrammar (g : Grammar) : FirstSets :=
  let nullable := g.nullable
  ⟨nullable, NonTerminal.all.map fun a => (a, g.firstOf nullable a)⟩

def get (sets : FirstSets) (a : NonTerminal) : List Terminal := (sets.first.lookup a).getD []

/-- The terminals that can begin the symbols followed by a terminal, with repetitions. -/
def beginnings (sets : FirstSets) (after : Terminal) : List Symbol → List Terminal
  | [] => [after]
  | .terminal t :: _ => [t]
  | .nonTerminal a :: rest =>
    sets.get a ++ if a ∈ sets.nullable then sets.beginnings after rest else []

def ofSequence (sets : FirstSets) (symbols : List Symbol) (after : Terminal) : List Terminal :=
  let found := sets.beginnings after symbols
  Terminal.all.filter (· ∈ found)

end FirstSets

end LetPrint

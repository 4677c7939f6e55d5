import LetPrint.Automaton.Item

/-! # The canonical automaton

Its states are the item sets that can be reached from the start, numbered in the order in which a
breadth-first walk finds them, with the symbols taken in order.
-/
namespace LetPrint

namespace Grammar

def startItems (g : Grammar) (sets : FirstSets) : List Item :=
  g.closure sets [⟨0, 0, .endOfInput⟩]

def successors (g : Grammar) (sets : FirstSets) (items : List Item) : List (List Item) :=
  (g.nextSymbols items).map (g.goto sets items)

def itemCount (g : Grammar) : Nat :=
  g.productions.foldr (fun r n => r.rhs.length + 1 + n) 0 * Terminal.all.length

/-- The item sets that can be reached; there are at most as many as sets of items. -/
def canonicalStates (g : Grammar) (sets : FirstSets) : List (List Item) :=
  Reach.closure (g.successors sets) (Nat.pow 2 g.itemCount) [g.startItems sets]

end Grammar

/-- Item sets, and for each of them the numbers of the sets that symbols lead to. -/
structure Automaton where
  states : List (List Item)
  edges : List (List (Symbol × Nat))

def Automaton.canonical (g : Grammar) : Automaton :=
  let sets := FirstSets.ofGrammar g
  let states := g.canonicalStates sets
  ⟨states, states.map fun items =>
    (g.nextSymbols items).map fun symbol => (symbol, states.idxOf (g.goto sets items symbol))⟩

end LetPrint

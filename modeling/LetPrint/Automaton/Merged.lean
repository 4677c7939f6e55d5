import LetPrint.Automaton.Canonical

/-! # Merging by core

The core of an item set forgets the lookaheads. States with one core become one state, numbered in
the order in which the cores first appear, so the start state stays zero.
-/
namespace LetPrint

/-- The productions and dots of a set of items, ascending. -/
def coreOf (items : List Item) : List (Nat × Nat) :=
  Reach.fresh [] (items.map fun i => (i.production, i.dot))

namespace Automaton

def cores (a : Automaton) : List (List (Nat × Nat)) := Reach.fresh [] (a.states.map coreOf)

/-- The number of the merged state of each state. -/
def mergedNumbers (a : Automaton) : List Nat :=
  let cores := a.cores
  a.states.map fun items => cores.idxOf (coreOf items)

def members (a : Automaton) (numbers : List Nat) (merged : Nat) :
    List (List Item × List (Symbol × Nat)) :=
  (((a.states.zip a.edges).zip numbers).filter (·.2 = merged)).map (·.1)

def firstEdges (edges : List (Symbol × Nat)) : List (Symbol × Nat) :=
  Symbol.all.filterMap fun symbol => (edges.lookup symbol).map (symbol, ·)

def merged (a : Automaton) : Automaton :=
  let numbers := a.mergedNumbers
  let groups := (List.range a.cores.length).map (a.members numbers)
  ⟨groups.map fun group => Item.ascending (group.flatMap (·.1)),
   groups.map fun group => firstEdges (group.flatMap (·.2) |>.map fun (symbol, target) =>
     (symbol, numbers.getD target 0))⟩

end Automaton

end LetPrint

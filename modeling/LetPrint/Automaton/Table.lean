import LetPrint.Automaton.Merged
import LetPrint.Error

/-! # Parse tables

Each item of a merged state may demand an action on a terminal. A table exists if no state has two
different demands on one terminal; otherwise the first clash is reported, states ascending and the
items of a state in order.
-/
namespace LetPrint

inductive Action where
  | shift (state : Nat)
  | reduce (production : Nat)
  | accept
  deriving DecidableEq, Repr

def Action.describe (g : Grammar) : Action → String
  | shift state => "shift to " ++ state.repr
  | reduce production => "reduce " ++ (g.production production).render
  | accept => "accept"

/-- Two different demands of a state on one terminal, the earlier one first. -/
structure Conflict where
  state : Nat
  terminal : Terminal
  existing : Action
  wanted : Action
  deriving DecidableEq, Repr

def Conflict.toError (g : Grammar) (c : Conflict) : Error :=
  ⟨.grammarConflict c.state c.terminal.name (c.existing.describe g ++ " / " ++ c.wanted.describe g),
   none⟩

structure Row where
  actions : List (Terminal × Action)
  gotos : List (NonTerminal × Nat)
  deriving DecidableEq, Repr

structure Table where
  rows : List Row
  deriving DecidableEq, Repr

namespace Table

def action (table : Table) (state : Nat) (t : Terminal) : Option Action := do
  let row ← table.rows[state]?
  row.actions.lookup t

def goto (table : Table) (state : Nat) (a : NonTerminal) : Option Nat := do
  let row ← table.rows[state]?
  row.gotos.lookup a

def expected (table : Table) (state : Nat) : List Terminal :=
  Terminal.all.filter fun t => (table.action state t).isSome

def stateCount (table : Table) : Nat := table.rows.length

/-- What an item demands, given the edges of its state. -/
def demand (g : Grammar) (edges : List (Symbol × Nat)) (i : Item) : Option (Terminal × Action) :=
  match g.next i with
  | some (.terminal t) => (edges.lookup (.terminal t)).map fun state => (t, .shift state)
  | some (.nonTerminal _) => none
  | none =>
    if i.production = 0 then
      if i.lookahead = .endOfInput then some (.endOfInput, .accept) else none
    else some (i.lookahead, .reduce i.production)

/-- Enters demands into the actions of a state; the first that clashes is a conflict. -/
def enter (state : Nat) (actions : List (Terminal × Action)) :
    List (Terminal × Action) → Except Conflict (List (Terminal × Action))
  | [] => .ok actions
  | (t, wanted) :: rest =>
    match actions.lookup t with
    | none => enter state (actions ++ [(t, wanted)]) rest
    | some existing =>
      if existing = wanted then enter state actions rest
      else .error ⟨state, t, existing, wanted⟩

def gotosOf (edges : List (Symbol × Nat)) : List (NonTerminal × Nat) :=
  edges.filterMap fun
    | (.nonTerminal a, target) => some (a, target)
    | (.terminal _, _) => none

def rowOf (g : Grammar) (state : Nat) (items : List Item) (edges : List (Symbol × Nat)) :
    Except Conflict Row := do
  let actions ← enter state [] (items.filterMap (demand g edges))
  return ⟨actions, gotosOf edges⟩

def rowsFrom (g : Grammar) :
    Nat → List (List Item × List (Symbol × Nat)) → Except Conflict (List Row)
  | _, [] => .ok []
  | state, (items, edges) :: rest => do
    let row ← rowOf g state items edges
    let rows ← rowsFrom g (state + 1) rest
    return row :: rows

def ofAutomaton (g : Grammar) (a : Automaton) : Except Conflict Table := do
  let rows ← rowsFrom g 0 (a.states.zip a.edges)
  return ⟨rows⟩

def build (g : Grammar) : Except Conflict Table :=
  ofAutomaton g (Automaton.canonical g).merged

end Table

end LetPrint

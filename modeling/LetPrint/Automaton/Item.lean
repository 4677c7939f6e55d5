import LetPrint.Grammar.First

/-! # Items

An item is a production with a dot in its right-hand side and the terminal that may follow it. Sets
of items are lists in ascending order without repetition, so equal sets are equal lists.
-/
namespace LetPrint

/-- A production with the dot before a symbol (or at its end), and what may follow it. -/
structure Item where
  production : Nat
  dot : Nat
  lookahead : Terminal
  deriving DecidableEq, Repr

namespace Item

/-- Whether an item comes before another: by production, then dot, then lookahead. -/
def before (i j : Item) : Bool :=
  i.production < j.production || (i.production = j.production &&
    (i.dot < j.dot || (i.dot = j.dot && i.lookahead.rank < j.lookahead.rank)))

def insert (i : Item) : List Item → List Item
  | [] => [i]
  | j :: rest =>
    if i = j then j :: rest else if i.before j then i :: j :: rest else j :: insert i rest

def ascending (items : List Item) : List Item := items.foldr insert []

def advance (i : Item) : Item := { i with dot := i.dot + 1 }

end Item

namespace Grammar

def next (g : Grammar) (i : Item) : Option Symbol := (g.rhs i.production)[i.dot]?

/-- The symbols behind the one after the dot. -/
def beyond (g : Grammar) (i : Item) : List Symbol := (g.rhs i.production).drop (i.dot + 1)

/-- The items that an item with a nonterminal after its dot calls for. -/
def predictions (g : Grammar) (sets : FirstSets) (i : Item) : List Item :=
  match g.next i with
  | some (.nonTerminal a) =>
    let lookaheads := sets.ofSequence (g.beyond i) i.lookahead
    (g.productionsOf a).flatMap fun p => lookaheads.map fun t => ⟨p, 0, t⟩
  | _ => []

/-- A bound on the number of items with the dot at the start. -/
def freshItems (g : Grammar) : Nat := g.productions.length * Terminal.all.length

def closure (g : Grammar) (sets : FirstSets) (kernel : List Item) : List Item :=
  Item.ascending (Reach.closure (g.predictions sets) (kernel.length + g.freshItems) kernel)

def goto (g : Grammar) (sets : FirstSets) (items : List Item) (symbol : Symbol) : List Item :=
  g.closure sets ((items.filter (g.next · = some symbol)).map Item.advance)

def nextSymbols (g : Grammar) (items : List Item) : List Symbol :=
  Symbol.all.filter fun symbol => items.any (g.next · = some symbol)

end Grammar

end LetPrint

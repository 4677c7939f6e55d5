import LetPrint.Pattern.Basic

/-! # Nodes of patterns

A matcher is a table of nodes. A node that reads a character or tests the place passes on to the
node after it; a fork passes on to two nodes, the preferred one first. A pattern becomes a stretch
of nodes that leads from its first node to the node after its last.
-/
namespace LetPrint

inductive Node where
  | read (chars : Text.Ranges)
  | look (test : Look)
  | fork (first second : Nat)
  | jump (target : Nat)
  | accept
  deriving DecidableEq, Repr

namespace Pattern

def width : Pattern → Nat
  | empty => 0
  | literal text => text.length
  | set _ => 1
  | look _ => 1
  | group _ p => p.width
  | seq p q => p.width + q.width
  | alt p q => p.width + q.width + 2
  | repeated p 0 none _ => p.width + 2
  | repeated p (n + 1) none _ => (n + 1) * p.width + 1
  | repeated p n (some m) _ => n * p.width + (m - n) * (p.width + 1)

def turnFork (greedy : Bool) (turn exit : Nat) : Node :=
  if greedy then .fork turn exit else .fork exit turn

section Repetition

variable (body : Nat → List Node) (width : Nat) (takesText greedy : Bool)

def exactNodes (n start : Nat) : List Node :=
  (List.range n).flatMap fun i => body (start + i * width)

def someNodes (start : Nat) : List Node :=
  body start ++ [turnFork greedy start (start + width + 1)]

/-- Any number of turns. A body that takes text comes back to the fork before it; after another body
a second fork stands, so that the exit can be taken at the place where the turn began. -/
def anyNodes (start : Nat) : List Node :=
  let turn := turnFork greedy (start + 1) (start + width + 2)
  turn :: body (start + 1) ++ [if takesText then .jump start else turn]

/-- At most a number of turns, each of which may be passed over for the exit. -/
def upToNodes (n start : Nat) : List Node :=
  (List.range n).flatMap fun i =>
    let turn := start + i * (width + 1) + 1
    turnFork greedy turn (start + n * (width + 1)) :: body turn

def turnNodes (start : Nat) : Nat → Option Nat → List Node
  | 0, none => anyNodes body width takesText greedy start
  | n + 1, none => exactNodes body width n start ++ someNodes body width greedy (start + n * width)
  | n, some m =>
    exactNodes body width n start ++ upToNodes body width greedy (m - n) (start + n * width)

end Repetition

/-- The nodes of a pattern, placed from `start` on. -/
def nodes : Pattern → Nat → List Node
  | empty, _ => []
  | literal text, _ => text.map fun c => .read (Text.Ranges.single c)
  | set chars, _ => [.read chars]
  | look test, _ => [.look test]
  | group _ p, start => p.nodes start
  | seq p q, start => p.nodes start ++ q.nodes (start + p.width)
  | alt p q, start =>
    let second := start + p.width + 2
    .fork (start + 1) second :: p.nodes (start + 1) ++ .jump (second + q.width) :: q.nodes second
  | repeated p least most greedy, start =>
    turnNodes p.nodes p.width p.takesText greedy start least most

end Pattern

/-- The nodes of a pattern, and whether its matches all start at the start of the text. -/
structure Matcher where
  nodes : Array Node
  anchored : Bool
  deriving DecidableEq, Repr

def Matcher.ofPattern (p : Pattern) : Matcher :=
  ⟨(p.nodes 0 ++ [Node.accept]).toArray, p.anchored⟩

end LetPrint

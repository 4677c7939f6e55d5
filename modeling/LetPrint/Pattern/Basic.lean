import LetPrint.Text.Ranges

/-! # Patterns

A pattern describes stretches of text: plain text, character sets, tests of the place between two
characters, sequences, choices in order of preference, and repetitions that prefer more or fewer
turns. The functions `ofSet`, `sequence`, `choice` and `times` build patterns in a simple form that
matches the same.
-/
namespace LetPrint

inductive Look where
  | textStart
  | textEnd
  | wordBoundary
  | noWordBoundary
  | wordStart
  | wordEnd
  | noWordBefore
  | noWordAfter
  deriving DecidableEq, Repr

/-- A description of stretches of text. A sequence and a choice are chains in `rest`. -/
inductive Pattern where
  | empty
  | literal (text : List Char)
  | set (chars : Text.Ranges)
  | look (test : Look)
  | group (index : Nat) (body : Pattern)
  | seq (first rest : Pattern)
  | alt (first rest : Pattern)
  | repeated (body : Pattern) (least : Nat) (most : Option Nat) (greedy : Bool)
  deriving DecidableEq, Repr

namespace Pattern

def never : Pattern := set []

/-- The least number of characters of a match; none if the pattern has a part that never matches. -/
def leastLength? : Pattern → Option Nat
  | empty => some 0
  | literal text => some text.length
  | set chars => if chars.isEmpty then none else some 1
  | look _ => some 0
  | group _ p => p.leastLength?
  | seq p q => do return (← p.leastLength?) + (← q.leastLength?)
  | alt p q => do return min (← p.leastLength?) (← q.leastLength?)
  | repeated p least _ _ => p.leastLength?.map (least * ·)

/-- The greatest number of characters of a match, if there is a bound and no part never matches. -/
def greatestLength? : Pattern → Option Nat
  | empty => some 0
  | literal text => some text.length
  | set chars => if chars.isEmpty then none else some 1
  | look _ => some 0
  | group _ p => p.greatestLength?
  | seq p q => do return (← p.greatestLength?) + (← q.greatestLength?)
  | alt p q => do return max (← p.greatestLength?) (← q.greatestLength?)
  | repeated p _ most _ => do return (← most) * (← p.greatestLength?)

def takesText (p : Pattern) : Bool := p.leastLength?.any (0 < ·)

def takesNoText (p : Pattern) : Bool := p.greatestLength? = some 0

/-- Whether every match starts at the start of the text: the test stands before all text. -/
def anchored : Pattern → Bool
  | look test => test = .textStart
  | group _ p => p.anchored
  | seq p q => p.anchored || p.takesNoText && q.anchored
  | alt p q => p.anchored && q.anchored
  | repeated p least _ _ => 0 < least && p.anchored
  | _ => false

/-- A character set; a set of one character is plain text. -/
def ofSet : Text.Ranges → Pattern
  | [(low, high)] => if low = high then literal [Char.ofNat low] else set [(low, high)]
  | chars => set chars

def parts : Pattern → List Pattern
  | empty => []
  | seq p q => p :: q.parts
  | p => [p]

def branches : Pattern → List Pattern
  | alt p q => p :: q.branches
  | p => [p]

def joinLiteral : Pattern → List Pattern → List Pattern
  | literal s, literal t :: rest => literal (s ++ t) :: rest
  | p, rest => p :: rest

def chain : List Pattern → Pattern
  | [] => empty
  | [p] => p
  | p :: q :: rest => seq p (chain (q :: rest))

/-- The patterns one after another. Sequences among them are opened, empty ones left out. -/
def sequence (ps : List Pattern) : Pattern :=
  chain ((ps.flatMap parts).foldr joinLiteral [])

def fork : List Pattern → Pattern
  | [] => never
  | [p] => p
  | p :: q :: rest => alt p (fork (q :: rest))

def char? : Pattern → Option Char
  | literal [c] => some c
  | _ => none

def set? : Pattern → Option Text.Ranges
  | set chars => some chars
  | _ => none

/-- The set of a choice between plain characters, or of one between sets. -/
def mergedSet? (ps : List Pattern) : Option Text.Ranges :=
  match ps.mapM char? with
  | some cs => some (cs.foldr (fun c r => (Text.Ranges.single c).union r) [])
  | none => (ps.mapM set?).map fun sets => sets.foldr Text.Ranges.union []

def sequenceParts : Pattern → List Pattern
  | seq p q => p :: q.parts
  | _ => []

def commonStart : List Pattern → List Pattern → List Pattern
  | p :: ps, q :: qs => if p = q then p :: commonStart ps qs else []
  | _, _ => []

def sharedParts : List Pattern → List Pattern
  | [] => []
  | p :: ps => ps.foldl (fun shared q => commonStart shared q.sequenceParts) p.sequenceParts

/-- A choice in which at most `fuel` times a common start is taken out. -/
def choiceWithin : Nat → List Pattern → Pattern
  | 0, ps => fork ps
  | fuel + 1, ps =>
    match ps.flatMap branches with
    | [] => never
    | [p] => p
    | ps =>
      match mergedSet? ps with
      | some chars => ofSet chars
      | none =>
        match sharedParts ps with
        | [] => fork ps
        | shared =>
          let tails := ps.map fun p => sequence (p.parts.drop shared.length)
          sequence (shared ++ [choiceWithin fuel tails])

def weight : Pattern → Nat
  | group _ p => p.weight + 1
  | seq p q => p.weight + q.weight + 1
  | alt p q => p.weight + q.weight + 1
  | repeated p _ _ _ => p.weight + 1
  | _ => 1

/-- One of the patterns, in order of preference. Choices among them are opened, characters and sets
become one set, and a common start is taken out. -/
def choice (ps : List Pattern) : Pattern :=
  choiceWithin (ps.foldr (fun p n => p.weight + n) 1) ps

/-- A number of turns of a pattern. Turns that take no text are not repeated, no turn at all is the
empty pattern, and one turn is the pattern itself. -/
def times (p : Pattern) (least : Nat) (most : Option Nat) (greedy : Bool) : Pattern :=
  let (least, most) := if p.takesNoText then (min least 1, some (min (most.getD 1) 1))
    else (least, most)
  if most = some 0 then empty
  else if least = 1 ∧ most = some 1 then p
  else repeated p least most greedy

end Pattern

end LetPrint

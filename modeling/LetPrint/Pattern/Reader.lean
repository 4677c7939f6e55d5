import LetPrint.Pattern.SetReader

/-! # Reading patterns

A pattern text is first cut into pieces (sets, tests, brackets, bars and counts), each from its own
characters alone. The pieces are then put together on a stack of open groups. A text that is nested
too deep is no pattern. Groups that set flags, such as `(?i)` or `(?x:a)`, are outside the syntax
that is read here, so a lexer whose table needs them is not built.
-/
namespace LetPrint

namespace Pattern

/-- How a group opens: plainly, or to be numbered, with or without a name. -/
inductive Opening where
  | plain
  | numbered
  | named (name : List Char)
  deriving DecidableEq, Repr

def Opening.name? : Opening → Option (List Char)
  | named name => some name
  | _ => none

/-- A piece of a pattern text; `depth` says how deep the text of a set is nested. -/
inductive Piece where
  | atom (p : Pattern) (depth : Nat)
  | groupOpen (opening : Opening)
  | groupClose
  | bar
  | count (least : Nat) (most : Option Nat) (greedy : Bool)
  deriving DecidableEq, Repr

def Piece.name? : Piece → Option (List Char)
  | groupOpen opening => opening.name?
  | _ => none

def decimal (digits : List Char) : Nat :=
  digits.foldl (fun n d => 10 * n + (d.toNat - '0'.toNat)) 0

def greatestCount : Nat := 4294967295

def readNumber (cs : List Char) : Option (Nat × List Char) :=
  let cs := cs.dropWhile Text.isSpace
  let digits := cs.takeWhile Char.isDigit
  let rest := (cs.dropWhile Char.isDigit).dropWhile Text.isSpace
  if digits.isEmpty || greatestCount < decimal digits then none else some (decimal digits, rest)

def readBounds (cs : List Char) : Option ((Nat × Option Nat) × List Char) := do
  let (least, cs) ← readNumber cs
  match cs with
  | '\x7d' :: rest => return ((least, some least), rest)
  | ',' :: '\x7d' :: rest => return ((least, none), rest)
  | ',' :: cs =>
    let (most, cs) ← readNumber cs
    match cs with
    | '\x7d' :: rest => if least ≤ most then return ((least, some most), rest) else none
    | _ => none
  | _ => none

/-- A count, which prefers fewer turns when a question mark follows it. -/
def countPiece (least : Nat) (most : Option Nat) : List Char → Piece × List Char
  | '?' :: rest => (.count least most false, rest)
  | rest => (.count least most true, rest)

def isGroupName : List Char → Bool
  | [] => false
  | c :: cs => Text.isWord c && !Text.isDigit c &&
      cs.all fun c => Text.isWord c || c = '.' || c = '[' || c = ']'

def readGroupName (cs : List Char) : Option (Piece × List Char) :=
  let name := cs.takeWhile (· ≠ '>')
  match cs.dropWhile (· ≠ '>') with
  | '>' :: rest => if isGroupName name then some (.groupOpen (.named name), rest) else none
  | _ => none

/-- Every character but the line feed. -/
def anyChar : Pattern := set (Text.Ranges.single '\n').complement

def readPiece : List Char → Option (Piece × List Char)
  | [] => none
  | '(' :: '?' :: ':' :: rest => some (.groupOpen .plain, rest)
  | '(' :: '?' :: '<' :: rest => readGroupName rest
  | '(' :: '?' :: 'P' :: '<' :: rest => readGroupName rest
  | '(' :: '?' :: _ => none
  | '(' :: rest => some (.groupOpen .numbered, rest)
  | ')' :: rest => some (.groupClose, rest)
  | '|' :: rest => some (.bar, rest)
  | '*' :: rest => some (countPiece 0 none rest)
  | '+' :: rest => some (countPiece 1 none rest)
  | '?' :: rest => some (countPiece 0 (some 1) rest)
  | '\x7b' :: rest => (readBounds rest).map fun ((least, most), rest) => countPiece least most rest
  | '.' :: rest => some (.atom anyChar 0, rest)
  | '^' :: rest => some (.atom (look .textStart) 0, rest)
  | '$' :: rest => some (.atom (look .textEnd) 0, rest)
  | '[' :: rest => (readSet rest).map fun (s, rest) => (.atom (ofSet s.chars) s.depth, rest)
  | '\\' :: rest =>
    match readEscape rest with
    | some (.char c, rest) => some (.atom (literal [c]) 0, rest)
    | some (.chars members, rest) => some (.atom (ofSet members) 0, rest)
    | some (.look test, rest) => some (.atom (look test) 0, rest)
    | none => none
  | c :: rest => some (.atom (literal [c]) 0, rest)

/-- Cuts a pattern text into pieces; every piece takes a character, so `fuel` need only be the
number of characters. -/
def readPieces : Nat → List Char → Option (List Piece)
  | _, [] => some []
  | 0, _ => none
  | fuel + 1, cs => do
    let (piece, rest) ← readPiece cs
    return piece :: (← readPieces fuel rest)

structure Nested where
  pattern : Pattern
  depth : Nat
  deriving DecidableEq, Repr

namespace Nested

/-- Patterns put together; two or more are one level deeper. -/
def combine (build : List Pattern → Pattern) (ps : List Nested) : Nested :=
  let deepest := ps.foldr (fun p n => max p.depth n) 0
  ⟨build (ps.map (·.pattern)), if ps.length < 2 then deepest else deepest + 1⟩

def times (p : Nested) (least : Nat) (most : Option Nat) (greedy : Bool) : Nested :=
  ⟨p.pattern.times least most greedy, p.depth + 1⟩

end Nested

/-- An open group: its number if it has one, the branches before the last bar, and the parts of the
current branch, both the last one first. -/
structure OpenGroup where
  number : Option Nat := none
  branches : List Nested := []
  parts : List Nested := []
  deriving DecidableEq, Repr

namespace OpenGroup

def push (g : OpenGroup) (p : Nested) : OpenGroup := { g with parts := p :: g.parts }

def nextBranch (g : OpenGroup) : OpenGroup :=
  { g with branches := Nested.combine sequence g.parts.reverse :: g.branches, parts := [] }

def content (g : OpenGroup) : Nested := Nested.combine choice g.nextBranch.branches.reverse

def close (g : OpenGroup) : Nested :=
  let content := g.content
  let pattern := match g.number with
    | none => content.pattern
    | some n => group n content.pattern
  ⟨pattern, content.depth + 1⟩

end OpenGroup

/-- Puts pieces together: `current` is the innermost open group, `outer` the groups around it, and
`next` the number of the next group that gets one. -/
def assemble (next : Nat) (outer : List OpenGroup) (current : OpenGroup) :
    List Piece → Option Nested
  | [] =>
    match outer with
    | [] => some current.content
    | _ :: _ => none
  | .atom p depth :: rest => assemble next outer (current.push ⟨p, depth⟩) rest
  | .groupOpen .plain :: rest => assemble next (current :: outer) {} rest
  | .groupOpen _ :: rest => assemble (next + 1) (current :: outer) ⟨some next, [], []⟩ rest
  | .groupClose :: rest =>
    match outer with
    | [] => none
    | around :: outer => assemble next outer (around.push current.close) rest
  | .bar :: rest => assemble next outer current.nextBranch rest
  | .count least most greedy :: rest =>
    match current.parts with
    | [] => none
    | p :: parts =>
      assemble next outer { current with parts := p.times least most greedy :: parts } rest

def greatestDepth : Nat := 250

/-- Reads a pattern text; no two groups have one name, and no part is nested too deep. -/
def read? (text : List Char) : Option Pattern := do
  let pieces ← readPieces text.length text
  if ¬ (pieces.filterMap Piece.name?).Nodup then none
  let nested ← assemble 1 [] {} pieces
  if nested.depth ≤ greatestDepth then some nested.pattern else none

end Pattern

end LetPrint

import LetPrint.Pattern.Basic
import LetPrint.Text.Bytes

/-! # The size of a pattern

A pattern stands for two automata on bytes: one reads its matches from the first byte to the last,
the other from the last to the first. The size of an automaton is a number of bytes of memory: so
much for each state, and more for each way out of a state that has several. Patterns whose automata
are too large are refused, and the sizes are counted here without building either.
-/
namespace LetPrint

namespace Pattern

inductive Direction where
  | forward
  | backward
  deriving DecidableEq, Repr

namespace Size

def state : Nat := 32

def forkState (ways : Nat) : Nat := state + 4 * ways

def readState (ways : Nat) : Nat := state + 8 * ways

/-- The stretches of a list of words between its empty words. -/
def stretches : List (List UInt8) → List (List (List UInt8))
  | [] => [[]]
  | [] :: words => [] :: stretches words
  | (b :: word) :: words =>
    match stretches words with
    | [] => [[b :: word]]
    | first :: others => ((b :: word) :: first) :: others

/-- The words without the empty ones that open the list, but for one. -/
def dropRepeatedEnds : List (List UInt8) → List (List UInt8)
  | [] :: [] :: words => dropRepeatedEnds ([] :: words)
  | words => words

def byFirstByte (words : List (List UInt8)) : List (List (List UInt8)) :=
  (words.filterMap List.head?).eraseDups.map fun b =>
    words.filterMap fun
      | c :: word => if c = b then some word else none
      | [] => none

/-- A tree of words that keeps their order of preference: words that end divide the others into
stretches, and in each stretch words with one first byte share it. `fuel` need only exceed the
greatest length of a word. -/
def tree : Nat → List (List UInt8) → Nat
  | 0, _ => 0
  | fuel + 1, words =>
    if words.all (·.isEmpty) then 0
    else
      let stretches := stretches (dropRepeatedEnds words)
      let full := stretches.filter (!·.isEmpty)
      full.foldr (fun stretch size =>
        let children := byFirstByte stretch
        let reads := if children.length = 1 then state else readState children.length
        reads + children.foldr (fun words size => tree fuel words + size) 0 + size)
        (forkState (stretches.length - 1 + full.length))

def words (direction : Direction) (texts : List (List Char)) : Nat :=
  let forms := texts.map Text.bytes
  let forms := match direction with
    | .forward => forms
    | .backward => forms.map List.reverse
  state + tree (forms.foldr (fun form n => max form.length n) 0 + 1) forms

/-- A character set. Sets of ASCII characters need one state that reads; others share the ends of
their byte forms when read forward, and the starts when read backward. -/
def set (direction : Direction) (chars : Text.Ranges) : Nat :=
  if chars.all fun (_, high) => high ≤ 0x7F then readState chars.length + state
  else
    let forms := Text.ByteRanges.ofRanges chars
    match direction with
    | .forward =>
      (Text.ByteRanges.sharedNodes forms).foldr (fun ways size => readState ways + size) state
    | .backward =>
      forkState forms.length + state + Text.ByteRanges.startCount forms * state

/-- A number of turns of a body of a given size; `takesText` says whether each turn takes text. -/
def turns (body : Nat) (takesText : Bool) : Nat → Option Nat → Nat
  | 0, none => if takesText then forkState 2 + body else body + 2 * forkState 2 + state
  | n + 1, none => (n + 1) * body + forkState 2
  | 0, some 1 => forkState 2 + body + state
  | n, some m =>
    let exact := if n = 0 then state else n * body
    if n = m then exact else exact + state + (m - n) * (forkState 2 + body)

end Size

def texts? : Pattern → Option (List (List Char))
  | literal text => some [text]
  | alt p q => do return (← p.texts?) ++ (← q.texts?)
  | _ => none

/-- The size of a pattern on its own, and as the last branches of a choice. -/
def sizes (direction : Direction) : Pattern → Nat × Nat
  | empty => both Size.state
  | literal text => both (Text.byteCount text * Size.state)
  | set chars => both (Size.set direction chars)
  | look _ => both Size.state
  | group _ p =>
    both ((p.sizes direction).1 + if direction = .forward then 2 * Size.state else 0)
  | seq p q => both ((p.sizes direction).1 + (q.sizes direction).1)
  | alt p q =>
    let branches := (p.sizes direction).1 + 4 + (q.sizes direction).2
    match (alt p q).texts? with
    | some texts => (Size.words direction texts, branches)
    | none => (2 * Size.state + branches, branches)
  | repeated p least most _ => both (Size.turns (p.sizes direction).1 p.takesText least most)
where
  /-- A single branch adds one way to the fork before it. -/
  both (n : Nat) : Nat × Nat := (n, n + 4)

/-- The states that look for the start of a match, if it can start anywhere. -/
def searchSize (p : Pattern) : Direction → Nat
  | .forward => if p.anchored then Size.state else Size.forkState 2 + Size.readState 1 + Size.state
  | .backward => Size.forkState 2 + Size.readState 1 + Size.state

/-- The size of an automaton of a pattern: the search, the pattern, and acceptance; forward, the
whole match is marked like a group. -/
def size (p : Pattern) (direction : Direction) : Nat :=
  let whole := (p.sizes direction).1 + if direction = .forward then 2 * Size.state else 0
  p.searchSize direction + whole + Size.state

def greatestSize : Nat := 10 * 1024 * 1024

def fits (p : Pattern) : Bool :=
  p.size .forward ≤ greatestSize && p.size .backward ≤ greatestSize

end Pattern

end LetPrint

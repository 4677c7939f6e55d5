import LetPrint.Pattern.Nodes
import LetPrint.Text.Classes
import Std.Data.TreeSet

/-! # Matching

The threads of a matcher are nodes in order of preference. Between two characters every thread is
followed through tests, forks and jumps to the nodes that read, and no node is entered twice at one
place, so the first way to a node counts. A thread that accepts ends the less preferred ones. The
match of a matcher starts as far left as it can and ends where the most preferred thread accepts.
-/
namespace LetPrint

/-- A place in a text: the characters before and after it. -/
structure Place where
  before : Option Char
  after : Option Char
  deriving DecidableEq, Repr

namespace Place

def wordBefore (place : Place) : Bool := place.before.any Text.isWord

def wordAfter (place : Place) : Bool := place.after.any Text.isWord

def passes (place : Place) : Look → Bool
  | .textStart => place.before.isNone
  | .textEnd => place.after.isNone
  | .wordBoundary => place.wordBefore != place.wordAfter
  | .noWordBoundary => place.wordBefore == place.wordAfter
  | .wordStart => !place.wordBefore && place.wordAfter
  | .wordEnd => place.wordBefore && !place.wordAfter
  | .noWordBefore => !place.wordBefore
  | .noWordAfter => !place.wordAfter

end Place

/-- What the threads of one place come to: the sets they read next, each with the node after it, and
whether a thread accepts after these. -/
structure Wave where
  reads : List (Text.Ranges × Nat)
  accepts : Bool
  deriving DecidableEq, Repr

def Wave.threadsAfter (wave : Wave) (c : Char) : List Nat :=
  wave.reads.filterMap fun (chars, next) => if chars.contains c.toNat then some next else none

namespace Matcher

/-- Follows threads to the nodes that read, the last found first; `seen` holds the nodes already
entered. Each node adds at most two threads once. -/
def follow (matcher : Matcher) (place : Place) :
    Nat → List Nat → Std.TreeSet Nat → List (Text.Ranges × Nat) → Wave
  | 0, _, _, reads => ⟨reads.reverse, false⟩
  | _ + 1, [], _, reads => ⟨reads.reverse, false⟩
  | fuel + 1, a :: threads, seen, reads =>
    if seen.contains a then matcher.follow place fuel threads seen reads
    else
      let seen := seen.insert a
      match matcher.nodes[a]? with
      | none => matcher.follow place fuel threads seen reads
      | some (.read chars) => matcher.follow place fuel threads seen ((chars, a + 1) :: reads)
      | some (.look test) =>
        if place.passes test then matcher.follow place fuel ((a + 1) :: threads) seen reads
        else matcher.follow place fuel threads seen reads
      | some (.fork first second) =>
        matcher.follow place fuel (first :: second :: threads) seen reads
      | some (.jump target) => matcher.follow place fuel (target :: threads) seen reads
      | some .accept => ⟨reads.reverse, true⟩

def wave (matcher : Matcher) (place : Place) (threads : List Nat) : Wave :=
  matcher.follow place (threads.length + 2 * matcher.nodes.size + 1) threads ∅ []

/-- The length of the preferred match of the threads. `length` characters are taken, and `best` is
the length of the preferred match among the threads that have ended. -/
def lengthFrom (matcher : Matcher) (threads : List Nat) (length : Nat) (best : Option Nat)
    (before : Option Char) : List Char → Option Nat
  | [] => if (matcher.wave ⟨before, none⟩ threads).accepts then some length else best
  | c :: rest =>
    let wave := matcher.wave ⟨before, some c⟩ threads
    let best := if wave.accepts then some length else best
    match wave.threadsAfter c with
    | [] => best
    | t :: ts => matcher.lengthFrom (t :: ts) (length + 1) best (some c) rest

def length? (matcher : Matcher) (before : Option Char) (text : List Char) : Option Nat :=
  matcher.lengthFrom [0] 0 none before text

def findFrom (matcher : Matcher) (before : Option Char) : List Char → Option (List Char)
  | [] => (matcher.length? before []).map fun _ => []
  | c :: rest =>
    match matcher.length? before (c :: rest) with
    | some n => some ((c :: rest).take n)
    | none => if matcher.anchored then none else findFrom matcher (some c) rest

/-- The matched text: leftmost start, preferred end. -/
def find? (matcher : Matcher) (text : List Char) : Option (List Char) :=
  matcher.findFrom none text

end Matcher

end LetPrint

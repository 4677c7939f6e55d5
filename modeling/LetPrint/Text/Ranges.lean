/-! # Ascending ranges of code points

A set of characters is a list of closed ranges of code points in ascending order, so that a search
can stop at the first range above the code point it looks for. Ranges that meet are joined, so each
set is written in one way. Surrogates are no characters and never bound a range.
-/
namespace LetPrint.Text

/-- Closed ranges of code points, ascending, and apart from one another. -/
abbrev Ranges := List (Nat × Nat)

namespace Ranges

/-- Whether some range holds the code point; ranges above it are not looked at. -/
def contains : Ranges → Nat → Bool
  | [], _ => false
  | (low, high) :: rest, n => if n < low then false else n ≤ high || contains rest n

def single (c : Char) : Ranges := [(c.toNat, c.toNat)]

/-- Adds a range, joining it with those that it meets. -/
def insert (low high : Nat) : Ranges → Ranges
  | [] => [(low, high)]
  | (a, b) :: rest =>
    if high + 1 < a then (low, high) :: (a, b) :: rest
    else if b + 1 < low then (a, b) :: insert low high rest
    else insert (min low a) (max high b) rest

def union (r s : Ranges) : Ranges := r.foldr (fun (low, high) joined => joined.insert low high) s

def above (n : Nat) : Nat := if n = 0xD7FF then 0xE000 else n + 1

def below (n : Nat) : Nat := if n = 0xE000 then 0xD7FF else n - 1

def gapsFrom (next : Nat) : Ranges → Ranges
  | [] => if next ≤ 0x10FFFF then [(next, 0x10FFFF)] else []
  | (low, high) :: rest =>
    if next < low then (next, below low) :: gapsFrom (above high) rest
    else gapsFrom (above high) rest

def complement (r : Ranges) : Ranges := gapsFrom 0 r

def inter (r s : Ranges) : Ranges := (r.complement.union s.complement).complement

def diff (r s : Ranges) : Ranges := (r.complement.union s).complement

def symmDiff (r s : Ranges) : Ranges := (r.diff s).union (s.diff r)

end Ranges

end LetPrint.Text

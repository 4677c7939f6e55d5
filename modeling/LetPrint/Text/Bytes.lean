import LetPrint.Text.Ranges

/-! # Text as bytes

Offsets and sinks count the bytes of the UTF-8 form, so text is measured, written and cut in bytes.
The forms of a range of characters are those of a few sequences of byte ranges, and a set of
characters is the union of such sequences. Read as a tree from the first byte on, and with equal
trees shared, the sequences are an automaton that reads one character of the set.
-/
namespace LetPrint.Text

def bytes (cs : List Char) : List UInt8 := cs.flatMap String.utf8EncodeChar

def byteCount : List Char → Nat
  | [] => 0
  | c :: cs => c.utf8Size + byteCount cs

/-- The characters after the first `n` bytes, if a character starts (or the text ends) there. -/
def dropBytes : Nat → List Char → Option (List Char)
  | 0, cs => some cs
  | _ + 1, [] => none
  | n + 1, c :: cs => if c.utf8Size ≤ n + 1 then dropBytes (n + 1 - c.utf8Size) cs else none

/-- For each byte in turn, the range that it lies in. -/
abbrev ByteRanges := List (Nat × Nat)

namespace ByteRanges

/-- The lead byte of one number and the given continuation bytes, each exact. -/
def exact (mark : Nat) : Nat → Nat → ByteRanges
  | 0, n => [(mark + n, mark + n)]
  | k + 1, n => exact mark k (n / 64) ++ [(0x80 + n % 64, 0x80 + n % 64)]

/-- The forms of the numbers from `low` to `high` with a marked lead byte and a number of
continuation bytes: the rest of the first block, the whole blocks, and the start of the last. -/
def spans (mark : Nat) : Nat → Nat → Nat → List ByteRanges
  | 0, low, high => [[(mark + low, mark + high)]]
  | k + 1, low, high =>
    let (a, x) := (low / 64, low % 64)
    let (b, y) := (high / 64, high % 64)
    if a = b then [exact mark k a ++ [(0x80 + x, 0x80 + y)]]
    else
      let first := if x = 0 then [] else [exact mark k a ++ [(0x80 + x, 0xBF)]]
      let last := if y = 63 then [] else [exact mark k b ++ [(0x80, 0x80 + y)]]
      let a := if x = 0 then a else a + 1
      let b := if y = 63 then b + 1 else b
      let blocks := if a < b then (spans mark k a (b - 1)).map (· ++ [(0x80, 0xBF)]) else []
      first ++ blocks ++ last

/-- The characters of one length: the mark of the lead byte, the number of continuation bytes, and
the first and the last character. Surrogates lie between two of them. -/
def lengths : List (Nat × Nat × Nat × Nat) :=
  [(0, 0, 0, 0x7F), (0xC0, 1, 0x80, 0x7FF), (0xE0, 2, 0x800, 0xD7FF), (0xE0, 2, 0xE000, 0xFFFF),
   (0xF0, 3, 0x10000, 0x10FFFF)]

def ofRange (low high : Nat) : List ByteRanges :=
  lengths.flatMap fun (mark, k, first, last) =>
    if max low first ≤ min high last then spans mark k (max low first) (min high last) else []

def ofRanges (r : Ranges) : List ByteRanges := r.flatMap fun (low, high) => ofRange low high

def sharedLength : ByteRanges → ByteRanges → Nat
  | r :: rs, s :: ss => if r = s then sharedLength rs ss + 1 else 0
  | _, _ => 0

/-- The number of different nonempty starts of sequences in ascending order, after a given one. -/
def startsAfter (previous : ByteRanges) : List ByteRanges → Nat
  | [] => 0
  | s :: rest => s.length - sharedLength previous s + startsAfter s rest

def startCount (forms : List ByteRanges) : Nat := startsAfter [] forms

/-- What follows each first byte range, where equal first ranges stand next to each other. -/
def branches : List ByteRanges → List ((Nat × Nat) × List ByteRanges)
  | [] => []
  | [] :: rest => branches rest
  | (r :: tail) :: rest =>
    match branches rest with
    | (s, tails) :: others =>
      if r = s then (r, tail :: tails) :: others else (r, [tail]) :: (s, tails) :: others
    | [] => [(r, [tail])]

/-- The inner nodes of the tree, each given by the sequences that start there; `fuel` need only be
the greatest length of a sequence. -/
def innerNodes : Nat → List ByteRanges → List (List ByteRanges)
  | 0, _ => []
  | fuel + 1, forms =>
    if forms.all (·.isEmpty) then []
    else forms :: (branches forms).flatMap fun (_, tails) => innerNodes fuel tails

/-- The number of branches of each inner node of the tree, equal trees counted once. -/
def sharedNodes (forms : List ByteRanges) : List Nat :=
  (innerNodes 4 forms).eraseDups.map fun node => (branches node).length

end ByteRanges

end LetPrint.Text

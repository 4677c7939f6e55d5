import LetPrint.Text.Bytes

/-! # Positions in a source

Lines and columns count from one, columns in characters; the offset counts bytes from zero. Only the
line feed starts a new line. The three counters are words of 64 bits, and counting wraps around.
-/
namespace LetPrint

/-- A place in a source. -/
structure Position where
  line : UInt64
  column : UInt64
  offset : UInt64
  deriving DecidableEq, Repr

namespace Position

def start : Position := ⟨1, 1, 0⟩

def step (p : Position) (c : Char) : Position :=
  if c = '\n' then ⟨p.line + 1, 1, p.offset + .ofNat c.utf8Size⟩
  else ⟨p.line, p.column + 1, p.offset + .ofNat c.utf8Size⟩

def advance (p : Position) (cs : List Char) : Position := cs.foldl step p

def after (p : Position) (text : String) : Position := p.advance text.toList

end Position

structure Span where
  start : Position
  stop : Position
  deriving DecidableEq, Repr

def Span.atStart : Span := ⟨Position.start, Position.start⟩

end LetPrint

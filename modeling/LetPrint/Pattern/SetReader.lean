import LetPrint.Pattern.Escape

/-! # Reading character sets

A character set stands between brackets: characters, ranges, classes and further sets, joined, or
divided by the marks of an operation. The operations are taken from left to right, and a caret after
the opening bracket means all other characters. Sets that are not closed yet stand on a stack.
-/
namespace LetPrint

namespace Pattern

/-- Characters, and how deep the text that names them is nested. -/
structure NestedSet where
  chars : Text.Ranges
  depth : Nat
  deriving DecidableEq, Repr

/-- Sets next to each other; two or more are one level deeper. -/
def NestedSet.join : List NestedSet → NestedSet
  | [] => ⟨[], 0⟩
  | [s] => s
  | sets => ⟨sets.foldr (fun s r => s.chars.union r) [],
      sets.foldr (fun s n => max s.depth n) 0 + 1⟩

inductive SetOperation where
  | inter
  | diff
  | symmDiff
  deriving DecidableEq, Repr

def SetOperation.apply (operation : SetOperation) (s t : NestedSet) : NestedSet :=
  let chars := match operation with
    | inter => s.chars.inter t.chars
    | diff => s.chars.diff t.chars
    | symmDiff => s.chars.symmDiff t.chars
  ⟨chars, max s.depth t.depth + 1⟩

/-- A set that is not closed yet: whether the other characters are meant, what stands before the
last mark, and the members since, the last one first. -/
structure OpenSet where
  negated : Bool
  left : Option (NestedSet × SetOperation) := none
  members : List NestedSet := []
  deriving DecidableEq, Repr

namespace OpenSet

def push (s : OpenSet) (member : NestedSet) : OpenSet := { s with members := member :: s.members }

def content (s : OpenSet) : NestedSet :=
  let right := NestedSet.join s.members.reverse
  match s.left with
  | none => right
  | some (left, operation) => operation.apply left right

def operate (s : OpenSet) (operation : SetOperation) : OpenSet :=
  { s with left := some (s.content, operation), members := [] }

def close (s : OpenSet) : NestedSet :=
  let content := s.content
  ⟨if s.negated then content.chars.complement else content.chars, content.depth + 1⟩

end OpenSet

def asciiClasses : List (String × Text.Ranges) :=
  [("alnum", [(0x30, 0x39), (0x41, 0x5A), (0x61, 0x7A)]),
   ("alpha", [(0x41, 0x5A), (0x61, 0x7A)]),
   ("ascii", [(0x00, 0x7F)]),
   ("blank", [(0x09, 0x09), (0x20, 0x20)]),
   ("cntrl", [(0x00, 0x1F), (0x7F, 0x7F)]),
   ("digit", [(0x30, 0x39)]),
   ("graph", [(0x21, 0x7E)]),
   ("lower", [(0x61, 0x7A)]),
   ("print", [(0x20, 0x7E)]),
   ("punct", [(0x21, 0x2F), (0x3A, 0x40), (0x5B, 0x60), (0x7B, 0x7E)]),
   ("space", [(0x09, 0x0D), (0x20, 0x20)]),
   ("upper", [(0x41, 0x5A)]),
   ("word", [(0x30, 0x39), (0x41, 0x5A), (0x5F, 0x5F), (0x61, 0x7A)]),
   ("xdigit", [(0x30, 0x39), (0x41, 0x46), (0x61, 0x66)])]

def readAsciiClass? : List Char → Option (Text.Ranges × List Char)
  | ':' :: cs => do
    let (negated, cs) := match cs with
      | '^' :: rest => (true, rest)
      | _ => (false, cs)
    match cs.dropWhile (· ≠ ':') with
    | ':' :: ']' :: rest =>
      let chars ← asciiClasses.lookup (String.ofList (cs.takeWhile (· ≠ ':')))
      return (if negated then chars.complement else chars, rest)
    | _ => none
  | _ => none

def readMember : List Char → Option (Escape × List Char)
  | [] => none
  | '\\' :: rest =>
    match readEscape rest with
    | some (.look _, _) => none
    | escape => escape
  | c :: rest => some (.char c, rest)

def Escape.members : Escape → NestedSet
  | char c => ⟨Text.Ranges.single c, 0⟩
  | chars members => ⟨members, 0⟩
  | look _ => ⟨[], 0⟩

/-- Reads a member or a range. A dash before a closing bracket or another dash makes no range. -/
def readItem (cs : List Char) : Option (NestedSet × List Char) := do
  let (first, rest) ← readMember cs
  match rest with
  | '-' :: ']' :: _ => return (first.members, rest)
  | '-' :: '-' :: _ => return (first.members, rest)
  | '-' :: cs =>
    match first, ← readMember cs with
    | .char low, (.char high, rest) =>
      if low ≤ high then return (⟨[(low.toNat, high.toNat)], 0⟩, rest) else none
    | _, _ => none
  | _ => return (first.members, rest)

/-- Opens a set after its bracket; dashes, or else one closing bracket, are plain characters at its
start. -/
def openSet (cs : List Char) : OpenSet × List Char :=
  let (negated, cs) := match cs with
    | '^' :: rest => (true, rest)
    | _ => (false, cs)
  let dashes := (cs.takeWhile (· = '-')).map fun c => (⟨Text.Ranges.single c, 0⟩ : NestedSet)
  match dashes, cs.dropWhile (· = '-') with
  | [], ']' :: rest => (⟨negated, none, [⟨Text.Ranges.single ']', 0⟩]⟩, rest)
  | dashes, rest => (⟨negated, none, dashes⟩, rest)

/-- Reads up to the bracket that closes the outermost set: `current` is the innermost open set and
`outer` the sets around it. Every step takes a character, so `fuel` need only be their number. -/
def readSetFrom : Nat → List OpenSet → OpenSet → List Char → Option (NestedSet × List Char)
  | 0, _, _, _ => none
  | _ + 1, _, _, [] => none
  | fuel + 1, outer, current, '[' :: cs =>
    match readAsciiClass? cs with
    | some (chars, rest) => readSetFrom fuel outer (current.push ⟨chars, 0⟩) rest
    | none =>
      let (inner, rest) := openSet cs
      readSetFrom fuel (current :: outer) inner rest
  | fuel + 1, outer, current, ']' :: rest =>
    match outer with
    | [] => some (current.close, rest)
    | around :: outer => readSetFrom fuel outer (around.push current.close) rest
  | fuel + 1, outer, current, '&' :: '&' :: rest =>
    readSetFrom fuel outer (current.operate .inter) rest
  | fuel + 1, outer, current, '-' :: '-' :: rest =>
    readSetFrom fuel outer (current.operate .diff) rest
  | fuel + 1, outer, current, '~' :: '~' :: rest =>
    readSetFrom fuel outer (current.operate .symmDiff) rest
  | fuel + 1, outer, current, cs =>
    match readItem cs with
    | some (item, rest) => readSetFrom fuel outer (current.push item) rest
    | none => none

def readSet (cs : List Char) : Option (NestedSet × List Char) :=
  let (outermost, rest) := openSet cs
  readSetFrom (cs.length + 1) [] outermost rest

end Pattern

end LetPrint

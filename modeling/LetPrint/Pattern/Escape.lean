import LetPrint.Pattern.Basic
import LetPrint.Text.Classes

/-! # Escapes

What a backslash and the characters after it stand for in a pattern text: one character, a class of
characters, or a test of the place. The classes are those of words, digits and white space; classes
by the name of a property, such as `\p{Greek}`, are outside the syntax that is read here.
-/
namespace LetPrint

namespace Pattern

inductive Escape where
  | char (c : Char)
  | chars (members : Text.Ranges)
  | look (test : Look)
  deriving DecidableEq, Repr

def hexDigit? (c : Char) : Option Nat :=
  if '0' ≤ c ∧ c ≤ '9' then some (c.toNat - '0'.toNat)
  else if 'a' ≤ c ∧ c ≤ 'f' then some (c.toNat - 'a'.toNat + 10)
  else if 'A' ≤ c ∧ c ≤ 'F' then some (c.toNat - 'A'.toNat + 10)
  else none

/-- Whether a backslash before the character stands for the character itself. -/
def isPlainEscape (c : Char) : Bool :=
  c.toNat < 128 && !c.isAlphanum && c != '<' && c != '>'

def hexChar? (digits : List Char) : Option Char := do
  if digits.isEmpty then none
  let values ← digits.mapM hexDigit?
  let number := values.foldl (fun n d => 16 * n + d) 0
  if number.isValidChar then some (Char.ofNat number) else none

/-- Reads a character by its number: in braces, or else in a fixed number of digits. -/
def readNumbered (width : Nat) : List Char → Option (Char × List Char)
  | '\x7b' :: rest =>
    match rest.dropWhile (· ≠ '\x7d') with
    | [] => none
    | _ :: after => (hexChar? (rest.takeWhile (· ≠ '\x7d'))).map (·, after)
  | rest =>
    if rest.length < width then none else (hexChar? (rest.take width)).map (·, rest.drop width)

def wordLooks : List (String × Look) :=
  [("start", .wordStart), ("end", .wordEnd), ("start-half", .noWordBefore),
   ("end-half", .noWordAfter)]

def isLookNameChar (c : Char) : Bool := c.isAlpha || c = '-'

/-- Reads the test after the mark of a word boundary: by name in braces, or else the plain one.
Braces around anything but a name are a count, and left for it. -/
def readWordLook : List Char → Option (Look × List Char)
  | '\x7b' :: rest =>
    let name := rest.takeWhile isLookNameChar
    if name.isEmpty then some (.wordBoundary, '\x7b' :: rest)
    else
      match rest.dropWhile isLookNameChar with
      | '\x7d' :: rest => (wordLooks.lookup (String.ofList name)).map (·, rest)
      | _ => none
  | rest => some (.wordBoundary, rest)

def readEscape : List Char → Option (Escape × List Char)
  | [] => none
  | 'x' :: rest => (readNumbered 2 rest).map fun (c, rest) => (.char c, rest)
  | 'u' :: rest => (readNumbered 4 rest).map fun (c, rest) => (.char c, rest)
  | 'U' :: rest => (readNumbered 8 rest).map fun (c, rest) => (.char c, rest)
  | 'w' :: rest => some (.chars Text.wordRanges, rest)
  | 'W' :: rest => some (.chars Text.wordRanges.complement, rest)
  | 's' :: rest => some (.chars Text.spaceRanges, rest)
  | 'S' :: rest => some (.chars Text.spaceRanges.complement, rest)
  | 'd' :: rest => some (.chars Text.digitRanges, rest)
  | 'D' :: rest => some (.chars Text.digitRanges.complement, rest)
  | 'a' :: rest => some (.char '\x07', rest)
  | 'f' :: rest => some (.char '\x0c', rest)
  | 'n' :: rest => some (.char '\n', rest)
  | 'r' :: rest => some (.char '\r', rest)
  | 't' :: rest => some (.char '\t', rest)
  | 'v' :: rest => some (.char '\x0b', rest)
  | 'A' :: rest => some (.look .textStart, rest)
  | 'z' :: rest => some (.look .textEnd, rest)
  | 'b' :: rest => (readWordLook rest).map fun (test, rest) => (.look test, rest)
  | 'B' :: rest => some (.look .noWordBoundary, rest)
  | '<' :: rest => some (.look .wordStart, rest)
  | '>' :: rest => some (.look .wordEnd, rest)
  | c :: rest => if isPlainEscape c then some (.char c, rest) else none

end Pattern

end LetPrint

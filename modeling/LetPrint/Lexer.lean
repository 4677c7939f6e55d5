import LetPrint.Pattern.Match
import LetPrint.Pattern.Reader
import LetPrint.Pattern.Size
import LetPrint.Stream

/-! # Lexing

A lexer is an ordered list of patterns. At each place the first pattern with a nonempty match wins;
patterns without a kind are skipped. The first character that no pattern matches ends the stream
with an error.
-/
namespace LetPrint

/-- The matcher of a pattern and the kind of its tokens; text without a kind is skipped. -/
structure LexicalRule where
  kind : Option Kind
  matcher : Matcher
  deriving DecidableEq, Repr

structure Lexer where
  rules : List LexicalRule
  deriving DecidableEq, Repr

namespace Lexer

def anchoredText (pattern : String) : List Char :=
  "\\A(?:".toList ++ pattern.toList ++ [')']

/-- Reads one pattern, to match at the start of what is left of the source. A pattern that is too
large is refused like a text that is no pattern. -/
def readRule (kind : Option Kind) (pattern : String) : Except Error LexicalRule :=
  match (Pattern.read? (anchoredText pattern)).filter Pattern.fits with
  | some p => .ok ⟨kind, Matcher.ofPattern p⟩
  | none => .error ⟨.invalidPattern pattern "the text is not a pattern", none⟩

/-- The rules of a token table and the patterns to skip; the first bad pattern is reported. -/
def readRules (table : List (Kind × String)) (ignored : List String) :
    Except Error (List LexicalRule) := do
  let tokens ← table.mapM fun (kind, pattern) => readRule (some kind) pattern
  let skipped ← ignored.mapM (readRule none)
  return tokens ++ skipped

def build (table : List (Kind × String)) (ignored : List String) : Traced (Except Error Lexer) :=
  match readRules table ignored with
  | .error error => pure (.error error)
  | .ok rules => do
    Traced.note (.builtLexer rules.length)
    return .ok ⟨rules⟩

/-- The kind and the text of the first rule with a nonempty match. -/
def firstMatch (lexer : Lexer) (text : List Char) : Option (Option Kind × List Char) :=
  lexer.rules.findSome? fun rule =>
    match rule.matcher.find? text with
    | some (c :: cs) => some (rule.kind, c :: cs)
    | _ => none

/-- The stream from a place on. Every match is nonempty, so `fuel` need only be the number of
characters left. -/
def scanFrom (lexer : Lexer) : Nat → Position → List Char → List (Except Error Token)
  | 0, _, _ => []
  | _ + 1, _, [] => []
  | fuel + 1, position, c :: cs =>
    match lexer.firstMatch (c :: cs) with
    | none => [.error (.located (.unrecognisedToken (String.ofList [c])) position)]
    | some (kind, text) =>
      let next := position.advance text
      let rest := match Text.dropBytes (Text.byteCount text) (c :: cs) with
        | some rest => scanFrom lexer fuel next rest
        | none => [.error (.ofFault (.splitCharacter next.offset.toNat))]
      match kind with
      | some kind => .ok ⟨kind, String.ofList text, position⟩ :: rest
      | none => rest

def scan (lexer : Lexer) (source : String) : List (Except Error Token) :=
  lexer.scanFrom source.toList.length .start source.toList

def feed (lexer : Lexer) (source : String) : Feed := ⟨lexer.scan source, true⟩

/-- The token table of the language; keywords stand before identifiers. -/
def languageTable : List (Kind × String) :=
  [(.stringLiteral, "\"[^\"\\n]*\"|'[^'\\n]*'"),
   (.undefinedLiteral, "undefined\\b"),
   (.printKeyword, "print\\b"),
   (.letKeyword, "let\\b"),
   (.identifier, "[a-zA-Z_][a-zA-Z0-9_]*"),
   (.assignOperator, "=")]

def languageIgnored : List String := ["\\s+"]

def language : Traced (Except Error Lexer) := build languageTable languageIgnored

end Lexer

end LetPrint

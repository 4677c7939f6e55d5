import LetPrint.Proofs.Matching
import Mathlib.Data.List.TakeWhile

/-! # The lexer as a scanner

The patterns of the language are tried one after another, and the first match wins. A scanner that
looks at the first character of a token alone gives the same stream: it skips white space, takes a
quoted text up to the closing quote, and takes the longest run of name characters before it asks
whether that is a keyword.
-/
namespace LetPrint

namespace Scanner

def isQuote (c : Char) : Bool := c = '"' || c = '\''

def isNameStart (c : Char) : Bool := c.isAlpha || c = '_'

def isNameChar (c : Char) : Bool := c.isAlphanum || c = '_'

def isInside (quote c : Char) : Bool := c ≠ quote && c ≠ '\n'

/-- The kind of the longest run of name characters, given the character after it. -/
def wordKind (run : List Char) (next : Option Char) : Kind :=
  if next.any Text.isWord then .identifier
  else if run = "undefined".toList then .undefinedLiteral
  else if run = "print".toList then .printKeyword
  else if run = "let".toList then .letKeyword
  else .identifier

/-- The kind and the characters of the token at the start of a text. -/
def token? : List Char → Option (Kind × List Char)
  | [] => none
  | c :: cs =>
    if isQuote c then
      if (cs.dropWhile (isInside c)).head? = some c then
        some (.stringLiteral, c :: cs.takeWhile (isInside c) ++ [c])
      else none
    else if isNameStart c then
      let run := (c :: cs).takeWhile isNameChar
      some (wordKind run ((c :: cs).dropWhile isNameChar).head?, run)
    else if c = '=' then some (.assignOperator, [c])
    else none

theorem isNameChar_of_isNameStart {c : Char} (h : isNameStart c = true) : isNameChar c = true := by
  simp only [isNameStart, isNameChar, Char.isAlphanum, Bool.or_eq_true] at h ⊢
  tauto

theorem token?_takes {text chars : List Char} {kind : Kind} (h : token? text = some (kind, chars)) :
    chars <+: text ∧ chars ≠ [] := by
  cases text with
  | nil => cases h
  | cons c cs =>
    simp only [token?] at h
    split_ifs at h with hquote hclosed hname hassign
    · obtain ⟨-,rfl⟩ := Prod.mk.inj (Option.some.inj h)
      refine ⟨?_,by simp⟩
      obtain ⟨rest,hrest⟩ := List.head?_eq_some_iff.mp hclosed
      have hcs := List.takeWhile_append_dropWhile (p := isInside c) (l := cs)
      rw [hrest] at hcs
      refine ⟨rest,?_⟩
      rw [List.cons_append, List.cons_append, List.append_assoc, List.singleton_append, hcs]
    · obtain ⟨-,rfl⟩ := Prod.mk.inj (Option.some.inj h)
      have hrun : (c :: cs).takeWhile isNameChar <+: c :: cs := List.takeWhile_prefix isNameChar
      exact ⟨hrun,by simp [isNameChar_of_isNameStart hname]⟩
    · obtain ⟨-,rfl⟩ := Prod.mk.inj (Option.some.inj h)
      exact ⟨⟨cs,rfl⟩,by simp⟩

def scanFrom (position : Position) (text : List Char) : List (Except Error Token) :=
  match text with
  | [] => []
  | c :: cs =>
    if Text.isSpace c then scanFrom (position.step c) cs
    else
      match _h : token? (c :: cs) with
      | none => [.error (.located (.unrecognisedToken (String.ofList [c])) position)]
      | some (kind, chars) =>
        .ok ⟨kind, String.ofList chars, position⟩ ::
          scanFrom (position.advance chars) ((c :: cs).drop chars.length)
termination_by text.length
decreasing_by
  · simp
  · have hpos := List.length_pos_iff.mpr (token?_takes _h).2
    rw [List.length_drop, List.length_cons]
    omega

def scan (source : String) : List (Except Error Token) := scanFrom .start source.toList

end Scanner

/-- What a number of pulls gives, one after another. -/
def Feed.pulls (feed : Feed) : ℕ → List (Option (Except Error Token))
  | 0 => []
  | n + 1 => feed.pull.value.1 :: pulls feed.pull.value.2 n

theorem Feed.pulls_eq (feed : Feed) (n : ℕ) :
    feed.pulls n = (List.range n).map fun i => feed.items[i]? := by
  induction n generalizing feed with
  | zero => rfl
  | succ n ih =>
    rw [pulls, ih, List.range_succ_eq_map, List.map_cons, List.map_map]
    obtain ⟨items,announced⟩ := feed
    cases items <;> simp [pull, Function.comp_def]

namespace Lexer
open Scanner

def nameStarts : Text.Ranges := [(65, 90), (95, 95), (97, 122)]
def nameChars : Text.Ranges := [(48, 57), (65, 90), (95, 95), (97, 122)]

def insideOf (quote : Char) : Text.Ranges :=
  [(0, 9), (11, quote.toNat - 1), (quote.toNat + 1, 1114111)]

def languageRules : List LexicalRule :=
  [⟨some .stringLiteral, .ofPattern
      (.fromStart (.alt (.between '"' (insideOf '"')) (.between '\'' (insideOf '\''))))⟩,
   ⟨some .undefinedLiteral, .ofPattern (.wholeWord "undefined".toList)⟩,
   ⟨some .printKeyword, .ofPattern (.wholeWord "print".toList)⟩,
   ⟨some .letKeyword, .ofPattern (.wholeWord "let".toList)⟩,
   ⟨some .identifier, .ofPattern (.runOf nameStarts nameChars)⟩,
   ⟨some .assignOperator, .ofPattern (.fromStart (.literal ['=']))⟩,
   ⟨none, .ofPattern (.fromStart (.repeated (.set Text.spaceRanges) 1 none true))⟩]

theorem language_value : language.value = .ok ⟨languageRules⟩ := by decide +kernel

section Characters
variable (c : Char)

theorem isUpper_iff : c.isUpper = true ↔ 65 ≤ c.toNat ∧ c.toNat ≤ 90 := by
  delta Char.isUpper
  simp only [decide_eq_true_eq, UInt32.le_iff_toNat_le, ge_iff_le]
  rfl

theorem isLower_iff : c.isLower = true ↔ 97 ≤ c.toNat ∧ c.toNat ≤ 122 := by
  delta Char.isLower
  simp only [Bool.and_eq_true, decide_eq_true_eq, UInt32.le_iff_toNat_le, ge_iff_le]
  rfl

theorem isAlpha_iff : c.isAlpha = true ↔ c.isUpper = true ∨ c.isLower = true := by
  delta Char.isAlpha
  rw [Bool.or_eq_true]

theorem isDigit_iff : c.isDigit = true ↔ 48 ≤ c.toNat ∧ c.toNat ≤ 57 := by
  simp only [Char.isDigit, Bool.and_eq_true, decide_eq_true_eq, UInt32.le_iff_toNat_le, ge_iff_le]
  rfl

theorem eq_iff_toNat (d : Char) : c = d ↔ c.toNat = d.toNat := Char.toNat_inj.symm

theorem has_nil : Text.Ranges.has [] c = false := rfl

theorem has_cons_iff (low high : ℕ) (r : Text.Ranges) :
    Text.Ranges.has ((low, high) :: r) c = true ↔
      low ≤ c.toNat ∧ (c.toNat ≤ high ∨ r.has c = true) := by
  simp only [Text.Ranges.has, Text.Ranges.contains]
  split_ifs with hlt
  · simp [Nat.not_le_of_lt hlt]
  · simp [Nat.le_of_not_lt hlt]

theorem has_nameStarts : nameStarts.has c = isNameStart c := by
  have hunderscore : '_'.toNat = 95 := rfl
  rw [Bool.eq_iff_iff]
  simp only [nameStarts, has_cons_iff, has_nil, isNameStart, isAlpha_iff, Bool.or_eq_true,
    isUpper_iff, isLower_iff, decide_eq_true_eq, eq_iff_toNat, hunderscore, Bool.false_eq_true,
    or_false]
  omega

theorem has_nameChars : nameChars.has c = isNameChar c := by
  have hunderscore : '_'.toNat = 95 := rfl
  rw [Bool.eq_iff_iff]
  simp only [nameChars, has_cons_iff, has_nil, isNameChar, Char.isAlphanum, isAlpha_iff,
    Bool.or_eq_true, isUpper_iff, isLower_iff, isDigit_iff, decide_eq_true_eq, eq_iff_toNat,
    hunderscore, Bool.false_eq_true, or_false]
  omega

theorem toNat_le : c.toNat ≤ 1114111 := by
  have hvalid : c.toNat < 55296 ∨ 57343 < c.toNat ∧ c.toNat < 1114112 := c.valid
  omega

theorem has_insideOf {quote : Char} (h : 10 < quote.toNat) :
    (insideOf quote).has c = isInside quote c := by
  have hle := toNat_le c
  have hfeed : '\n'.toNat = 10 := rfl
  rw [Bool.eq_iff_iff]
  simp only [insideOf, has_cons_iff, has_nil, isInside, Bool.and_eq_true, decide_eq_true_eq,
    ne_eq, eq_iff_toNat, hfeed, Bool.false_eq_true, or_false]
  omega

theorem isWord_of_isNameChar (h : isNameChar c = true) : Text.isWord c = true := by
  have hascii : ∀ n < 128, nameChars.contains n = true → Text.wordRanges.contains n = true := by
    decide +kernel
  rw [← has_nameChars] at h
  have hlt : c.toNat < 128 := by
    simp only [nameChars, has_cons_iff, has_nil, Bool.false_eq_true, or_false] at h
    omega
  exact hascii c.toNat hlt h

theorem toNat_of_isSpace (h : Text.isSpace c = true) : c.toNat ≤ 32 ∨ 133 ≤ c.toNat := by
  change Text.spaceRanges.has c = true at h
  simp only [Text.spaceRanges, has_cons_iff] at h
  omega

theorem not_isSpace_of_isNameStart (h : isNameStart c = true) : Text.isSpace c = false := by
  rw [← has_nameStarts] at h
  simp only [nameStarts, has_cons_iff, has_nil, Bool.false_eq_true, or_false] at h
  by_contra hspace
  have hrange := toNat_of_isSpace c (by simpa using hspace)
  omega

end Characters

/-- A word of name characters is matched exactly if it is the longest run of them and no other word
character follows. -/
theorem find?_keyword {word : List Char} (hne : word ≠ [])
    (hall : word.all isNameChar = true) (c : Char) (cs : List Char) :
    (Matcher.ofPattern (.wholeWord word)).find? (c :: cs) =
      if (c :: cs).takeWhile isNameChar = word ∧
        ((c :: cs).dropWhile isNameChar).head?.any Text.isWord = false then some word else none := by
  have hword := List.all_eq_true.mp hall
  rw [Matcher.find?_wholeWord c cs hne fun d hd => isWord_of_isNameChar d (hword d hd)]
  congr 1
  rw [eq_iff_iff]
  constructor
  · rintro ⟨⟨rest,hrest⟩,hnext⟩
    rw [← hrest] at hnext ⊢
    rw [List.drop_left] at hnext
    have hstop : rest.takeWhile isNameChar = [] ∧ rest.dropWhile isNameChar = rest := by
      cases rest with
      | nil => exact ⟨rfl,rfl⟩
      | cons d rest =>
        have hd : isNameChar d = false := by
          by_contra hname
          rw [Bool.not_eq_false] at hname
          simp [isWord_of_isNameChar d hname] at hnext
        simp [hd]
    rw [List.takeWhile_append_of_pos hword, List.dropWhile_append_of_pos hword, hstop.1, hstop.2,
      List.append_nil]
    exact ⟨rfl,hnext⟩
  · rintro ⟨rfl,hnext⟩
    have hsplit := congrArg (List.drop ((c :: cs).takeWhile isNameChar).length)
      (List.takeWhile_append_dropWhile (p := isNameChar) (l := c :: cs))
    rw [List.drop_left] at hsplit
    rw [← hsplit]
    have hrun : (c :: cs).takeWhile isNameChar <+: c :: cs := List.takeWhile_prefix isNameChar
    exact ⟨hrun,hnext⟩

/-- A text that starts with no name start has no keyword at its start. -/
theorem find?_keyword_eq_none {word : List Char} (hhead : word.head?.any isNameStart = true)
    (hall : word.all isNameChar = true) {c : Char} (hc : isNameStart c = false)
    (cs : List Char) : (Matcher.ofPattern (.wholeWord word)).find? (c :: cs) = none := by
  have hne : word ≠ [] := by
    rintro rfl
    cases hhead
  rw [find?_keyword hne hall, if_neg]
  rintro ⟨rfl,-⟩
  rw [List.takeWhile_cons] at hhead
  split_ifs at hhead
  · simp [hc] at hhead
  · cases hhead

section FirstMatch
variable {rule : LexicalRule} {rules : List LexicalRule} {text : List Char}

theorem firstMatch_cons_of_none (h : rule.matcher.find? text = none) :
    firstMatch ⟨rule :: rules⟩ text = firstMatch ⟨rules⟩ text := by
  simp only [firstMatch, List.findSome?_cons, h]

theorem firstMatch_cons_of_some {c : Char} {cs : List Char}
    (h : rule.matcher.find? text = some (c :: cs)) :
    firstMatch ⟨rule :: rules⟩ text = some (rule.kind, c :: cs) := by
  simp only [firstMatch, List.findSome?_cons, h]

/-- A keyword comes before all later patterns exactly if it is the longest run. -/
theorem firstMatch_keyword {kind : Kind} {word : List Char} (hne : word ≠ [])
    (hall : word.all isNameChar = true) (c : Char) (cs : List Char) :
    firstMatch ⟨⟨some kind, .ofPattern (.wholeWord word)⟩ :: rules⟩ (c :: cs) =
      if (c :: cs).takeWhile isNameChar = word ∧
        ((c :: cs).dropWhile isNameChar).head?.any Text.isWord = false then some (some kind, word)
      else firstMatch ⟨rules⟩ (c :: cs) := by
  obtain ⟨w,ws,rfl⟩ := List.exists_cons_of_ne_nil hne
  have hfind := find?_keyword hne hall c cs
  split_ifs with h
  · rw [if_pos h] at hfind
    exact firstMatch_cons_of_some hfind
  · rw [if_neg h] at hfind
    exact firstMatch_cons_of_none hfind

end FirstMatch

theorem find?_text (c : Char) (cs : List Char) : (Matcher.ofPattern (.fromStart
    (.alt (.between '"' (insideOf '"')) (.between '\'' (insideOf '\''))))).find? (c :: cs) =
      if isQuote c ∧ (cs.dropWhile (isInside c)).head? = some c then
        some (c :: cs.takeWhile (isInside c) ++ [c]) else none := by
  have hdouble : (insideOf '"').has = isInside '"' := funext fun d => has_insideOf d (by decide)
  have hsingle : (insideOf '\'').has = isInside '\'' := funext fun d => has_insideOf d (by decide)
  rw [Matcher.find?_between c cs (by decide) (by decide) (by decide) (by simp [insideOf])
    (by simp [insideOf]), hdouble, hsingle]
  by_cases hc : c = '"'
  · subst hc
    simp [isQuote]
  · by_cases hc' : c = '\''
    · subst hc'
      simp [isQuote]
    · simp [isQuote, hc, hc']

theorem eq_of_isQuote {c : Char} (h : isQuote c = true) : c = '"' ∨ c = '\'' := by
  simpa [isQuote] using h

theorem not_isQuote_of_isNameStart {c : Char} (h : isNameStart c = true) : isQuote c = false := by
  by_contra hquote
  rcases eq_of_isQuote (by simpa using hquote) with rfl | rfl <;> cases h

theorem token?_name {c : Char} (h : isNameStart c = true) (cs : List Char) :
    token? (c :: cs) = some (wordKind ((c :: cs).takeWhile isNameChar)
      ((c :: cs).dropWhile isNameChar).head?, (c :: cs).takeWhile isNameChar) := by
  rw [token?, not_isQuote_of_isNameStart h, if_neg Bool.false_ne_true, if_pos h]

theorem firstMatch_name {c : Char} (h : isNameStart c = true) (cs : List Char) :
    firstMatch ⟨languageRules⟩ (c :: cs) =
      (token? (c :: cs)).map fun token => (some token.1, token.2) := by
  have hrun : (c :: cs).takeWhile isNameChar = c :: cs.takeWhile isNameChar := by
    simp [isNameChar_of_isNameStart h]
  have htext := find?_text c cs
  rw [if_neg (by simp [not_isQuote_of_isNameStart h])] at htext
  have hname := Matcher.find?_runOf c cs nameStarts (by simp [nameChars] : nameChars ≠ [])
  rw [has_nameStarts, if_pos h, funext has_nameChars] at hname
  rw [token?_name h, languageRules, firstMatch_cons_of_none htext,
    firstMatch_keyword (by decide) (by decide), firstMatch_keyword (by decide) (by decide),
    firstMatch_keyword (by decide) (by decide), firstMatch_cons_of_some hname, ← hrun]
  generalize (c :: cs).takeWhile isNameChar = run
  generalize ((c :: cs).dropWhile isNameChar).head? = next
  simp only [Option.map_some, wordKind]
  cases next.any Text.isWord with
  | true => simp only [Bool.true_eq_false, and_false, ↓reduceIte]
  | false =>
    simp only [and_true, Bool.false_eq_true, ↓reduceIte]
    split_ifs with hu hp hl
    · rw [hu]
    · rw [hp]
    · rw [hl]
    · rfl

theorem firstMatch_other {c : Char} (h : isNameStart c = false) (cs : List Char) :
    firstMatch ⟨languageRules⟩ (c :: cs) =
      if isQuote c ∧ (cs.dropWhile (isInside c)).head? = some c then
        some (some .stringLiteral, c :: cs.takeWhile (isInside c) ++ [c])
      else if c = '=' then some (some .assignOperator, [c])
      else if Text.isSpace c then some (none, c :: cs.takeWhile Text.isSpace)
      else none := by
  have htext := find?_text c cs
  have hname := Matcher.find?_runOf c cs nameStarts (by simp [nameChars] : nameChars ≠ [])
  have hassign := Matcher.find?_char c cs '='
  have hblank := Matcher.find?_repeated c cs Text.spaceRanges
  rw [has_nameStarts, if_neg (by simp [h])] at hname
  rw [languageRules]
  split_ifs at htext ⊢ with hclosed heq hspace
  · exact firstMatch_cons_of_some htext
  all_goals
    rw [firstMatch_cons_of_none htext,
      firstMatch_cons_of_none (find?_keyword_eq_none (by decide) (by decide) h cs),
      firstMatch_cons_of_none (find?_keyword_eq_none (by decide) (by decide) h cs),
      firstMatch_cons_of_none (find?_keyword_eq_none (by decide) (by decide) h cs),
      firstMatch_cons_of_none hname]
  · rw [if_pos heq] at hassign
    exact firstMatch_cons_of_some hassign
  · rw [if_neg heq] at hassign
    have hspace' : Text.spaceRanges.has c = true := hspace
    rw [if_pos hspace'] at hblank
    rw [firstMatch_cons_of_none hassign]
    exact firstMatch_cons_of_some hblank
  · rw [if_neg heq] at hassign
    have hspace' : ¬ Text.spaceRanges.has c = true := hspace
    rw [if_neg hspace'] at hblank
    rw [firstMatch_cons_of_none hassign, firstMatch_cons_of_none hblank]
    rfl

/-- The first pattern that matches finds the token that the scanner finds. -/
theorem firstMatch_eq (c : Char) (cs : List Char) : firstMatch ⟨languageRules⟩ (c :: cs) =
    if Text.isSpace c then some (none, c :: cs.takeWhile Text.isSpace)
    else (token? (c :: cs)).map fun token => (some token.1, token.2) := by
  cases hstart : isNameStart c with
  | true =>
    rw [if_neg (by simp [not_isSpace_of_isNameStart c hstart])]
    exact firstMatch_name hstart cs
  | false =>
    rw [firstMatch_other hstart, token?, hstart, if_neg Bool.false_ne_true]
    by_cases hquote : isQuote c = true
    · have hother : c ≠ '=' ∧ Text.isSpace c = false := by
        rcases eq_of_isQuote hquote with rfl | rfl <;> decide
      simp only [hquote, true_and, hother, ↓reduceIte, Bool.false_eq_true]
      split_ifs <;> rfl
    · by_cases heq : c = '='
      · subst heq
        have hspace : Text.isSpace '=' = false := by decide
        simp [hquote, hspace]
      · simp [hquote, heq]

end Lexer

theorem Text.dropBytes_append (taken rest : List Char) :
    Text.dropBytes (Text.byteCount taken) (taken ++ rest) = some rest := by
  induction taken with
  | nil => cases rest <;> rfl
  | cons c taken ih =>
    have hpos := c.utf8Size_pos
    obtain ⟨n,hn⟩ : ∃ n, Text.byteCount (c :: taken) = n + 1 :=
      Nat.exists_eq_add_one.mpr (by rw [Text.byteCount]; omega)
    have hrest : n + 1 - c.utf8Size = Text.byteCount taken := by
      rw [← hn, Text.byteCount]
      omega
    have hle : c.utf8Size ≤ n + 1 := by
      rw [← hn, Text.byteCount]
      omega
    rw [hn, List.cons_append, Text.dropBytes, if_pos hle, hrest, ih]

namespace Scanner

theorem scanFrom_spaces {spaces : List Char} (h : ∀ c ∈ spaces, Text.isSpace c = true)
    (position : Position) (rest : List Char) :
    scanFrom position (spaces ++ rest) = scanFrom (position.advance spaces) rest := by
  induction spaces generalizing position with
  | nil => rfl
  | cons c spaces ih =>
    rw [List.cons_append, scanFrom, if_pos (h c List.mem_cons_self),
      ih fun d hd => h d (List.mem_cons_of_mem c hd)]
    rfl

end Scanner

namespace Lexer
open Scanner

theorem scanFrom_eq (fuel : ℕ) (position : Position) (text : List Char) (h : text.length ≤ fuel) :
    Lexer.scanFrom ⟨languageRules⟩ fuel position text = Scanner.scanFrom position text := by
  induction fuel generalizing position text with
  | zero =>
    obtain rfl := List.length_eq_zero_iff.mp (Nat.le_zero.mp h)
    rw [Scanner.scanFrom]
    rfl
  | succ fuel ih =>
    cases text with
    | nil =>
      rw [Scanner.scanFrom]
      rfl
    | cons c cs =>
      rw [Lexer.scanFrom, firstMatch_eq]
      by_cases hspace : Text.isSpace c = true
      -- the lexer skips a run of white space at once, the scanner one character at a time
      · have htext : c :: cs = (c :: cs.takeWhile Text.isSpace) ++ cs.dropWhile Text.isSpace := by
          rw [List.cons_append, List.takeWhile_append_dropWhile]
        have hdrop := Text.dropBytes_append (c :: cs.takeWhile Text.isSpace)
          (cs.dropWhile Text.isSpace)
        have hall : ∀ d ∈ c :: cs.takeWhile Text.isSpace, Text.isSpace d = true := by
          intro d hd
          rcases List.mem_cons.mp hd with rfl | hd
          · exact hspace
          · exact List.mem_takeWhile_imp hd
        have hshorter : (cs.dropWhile Text.isSpace).length ≤ fuel :=
          (List.dropWhile_sublist _).length_le.trans (Nat.le_of_succ_le_succ h)
        rw [← htext] at hdrop
        simp only [hspace, ↓reduceIte, hdrop]
        rw [ih _ _ hshorter, htext, scanFrom_spaces hall]
      · rw [if_neg hspace, Scanner.scanFrom, if_neg hspace]
        cases htoken : token? (c :: cs) with
        | none => simp only [Option.map_none]
        | some token =>
          obtain ⟨kind,chars⟩ := token
          obtain ⟨⟨rest,hrest⟩,hne⟩ := token?_takes htoken
          have hshorter : rest.length ≤ fuel := by
            have hpos := List.length_pos_iff.mpr hne
            rw [← hrest, List.length_append] at h
            omega
          simp only [Option.map_some]
          rw [← hrest, Text.dropBytes_append, List.drop_left]
          exact congrArg (List.cons _) (ih _ _ hshorter)

theorem scan_languageRules (source : String) : scan ⟨languageRules⟩ source = Scanner.scan source :=
  scanFrom_eq _ _ _ (Nat.le_refl _)

/-- The lexer of the language gives the stream of the scanner, and nothing after it. -/
theorem scan_eq_scanner : ∃ lexer, language.value = .ok lexer ∧ ∀ source : String,
    lexer.scan source = Scanner.scan source ∧ ∀ n, (lexer.feed source).pulls n =
      (List.range n).map fun i => (Scanner.scan source)[i]? := by
  refine ⟨⟨languageRules⟩,language_value,fun source => ⟨scan_languageRules source,fun n => ?_⟩⟩
  rw [Feed.pulls_eq, feed, scan_languageRules]

end Lexer

end LetPrint

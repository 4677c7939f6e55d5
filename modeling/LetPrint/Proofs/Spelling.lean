import LetPrint.Proofs.Places
import LetPrint.Proofs.SourceOrder

/-! # How tokens are spelled

Every kind of token has its own spelling. A word that is spelled as its kind demands is read as one
token of that kind wherever white space or the end of the text comes behind it. Conversely all
tokens of a text that is lexed without an error are so spelled: a keyword that was read as a name
would have a letter behind it with which no token starts.
-/
namespace LetPrint

theorem Text.Ranges.mem_of_contains {r : Text.Ranges} {n : ℕ} (h : r.contains n = true) :
    n ∈ r.flatMap fun range => List.range' range.1 (range.2 + 1 - range.1) := by
  induction r with
  | nil => cases h
  | cons range r ih =>
    obtain ⟨low,high⟩ := range
    rw [contains] at h
    split_ifs at h with hlow
    rw [Bool.or_eq_true, decide_eq_true_eq] at h
    rw [List.flatMap_cons, List.mem_append, List.mem_range'_1]
    rcases h with hhigh | hrest
    · exact Or.inl (by omega)
    · exact Or.inr (ih hrest)

theorem Text.not_isWord_of_isSpace {c : Char} (h : Text.isSpace c = true) :
    Text.isWord c = false := by
  have hall : ∀ n ∈ Text.spaceRanges.flatMap fun range =>
      List.range' range.1 (range.2 + 1 - range.1), Text.wordRanges.contains n = false := by
    decide +kernel
  exact hall _ (Text.Ranges.mem_of_contains h)

namespace Scanner

/-- A word ends before white space and before nothing. -/
def EndsWord (rest : List Char) : Prop := ∀ c ∈ rest.head?, Text.isSpace c = true

/-- A letter or an underscore with letters, digits and underscores behind it, but no keyword. -/
def IsName (word : String) : Prop :=
  word.toList.head?.any isNameStart = true ∧ word.toList.all isNameChar = true ∧
    word ∉ ["undefined", "print", "let"]

instance (word : String) : Decidable (IsName word) :=
  inferInstanceAs (Decidable (_ ∧ _ ∧ _))

end Scanner

open Scanner

def Kind.Spells : Kind → String → Prop
  | stringLiteral, word => ∃ content, Quoted word content ∧ '\n' ∉ content.toList
  | undefinedLiteral, word => word = "undefined"
  | identifier, word => IsName word
  | printKeyword, word => word = "print"
  | letKeyword, word => word = "let"
  | assignOperator, word => word = "="

/-- What may stand behind a token: words have no further word character behind them. -/
def Kind.Stops : Kind → List Char → Prop
  | stringLiteral, _ => True
  | assignOperator, _ => True
  | _, rest => rest.head?.any Text.isWord = false

theorem Kind.Stops.cutoff {kind : Kind} {short rest : List Char} (h : kind.Stops rest)
    (hshort : short <+: rest) : kind.Stops short := by
  have hword : rest.head?.any Text.isWord = false → short.head?.any Text.isWord = false := by
    cases short with
    | nil => exact fun _ => rfl
    | cons c short =>
      obtain ⟨more,rfl⟩ := hshort
      exact id
  cases kind with
  | stringLiteral => trivial
  | assignOperator => trivial
  | undefinedLiteral | identifier | printKeyword | letKeyword => exact hword h

namespace Scanner
variable {rest : List Char}

theorem EndsWord.any_isWord (h : EndsWord rest) : rest.head?.any Text.isWord = false := by
  cases hr : rest.head? with
  | none => rfl
  | some c => exact Text.not_isWord_of_isSpace (h c hr)

theorem stops_of_any_isWord (h : rest.head?.any Text.isWord = false) (kind : Kind) :
    kind.Stops rest := by
  cases kind with
  | stringLiteral => trivial
  | assignOperator => trivial
  | undefinedLiteral | identifier | printKeyword | letKeyword => exact h

theorem scanFrom_blank {blank : List Char} (h : ∀ c ∈ blank, Text.isSpace c = true)
    (position : Position) : scanFrom position blank = [] := by
  have hskip := scanFrom_spaces h position []
  rwa [List.append_nil, scanFrom] at hskip

theorem takeWhile_eq_nil (h : rest.head?.any Text.isWord = false) :
    rest.takeWhile isNameChar = [] := by
  cases rest with
  | nil => rfl
  | cons c rest =>
    have hc : isNameChar c = false := by
      by_contra hname
      have hword := Lexer.isWord_of_isNameChar c (by simpa using hname)
      rw [List.head?_cons, Option.any_some, hword] at h
      cases h
    simp [hc]

theorem token?_run {run : List Char} (hstart : run.head?.any isNameStart = true)
    (hall : run.all isNameChar = true) (h : rest.takeWhile isNameChar = []) :
    token? (run ++ rest) = some (wordKind run rest.head?, run) := by
  have hword := List.all_eq_true.mp hall
  have hrun : (run ++ rest).takeWhile isNameChar = run := by
    rw [List.takeWhile_append_of_pos hword, h, List.append_nil]
  have hnext : (run ++ rest).dropWhile isNameChar = rest := by
    rw [List.dropWhile_append_of_pos hword]
    have hsplit := List.takeWhile_append_dropWhile (p := isNameChar) (l := rest)
    rwa [h, List.nil_append] at hsplit
  cases run with
  | nil => cases hstart
  | cons c cs =>
    have hc : isNameStart c = true := by simpa using hstart
    rw [List.cons_append] at hrun hnext ⊢
    rw [Lexer.token?_name hc, hrun, hnext]

theorem token?_word {word : String} (hstart : word.toList.head?.any isNameStart = true)
    (hall : word.toList.all isNameChar = true) (h : rest.head?.any Text.isWord = false) :
    token? (word.toList ++ rest) = some (wordKind word.toList rest.head?, word.toList) :=
  token?_run hstart hall (takeWhile_eq_nil h)

theorem token?_string {word content : String} (hquoted : Quoted word content)
    (hline : '\n' ∉ content.toList) (rest : List Char) :
    token? (word.toList ++ rest) = some (.stringLiteral, word.toList) := by
  obtain ⟨quote,hquote,hnone,htext⟩ := hquoted
  have hinside : ∀ c ∈ content.toList, isInside quote c = true := by
    intro c hc
    have hne : c ≠ quote ∧ c ≠ '\n' :=
      ⟨fun he => hnone (he ▸ hc),fun he => hline (he ▸ hc)⟩
    simp [isInside, hne]
  have hstop : isInside quote quote = false := by simp [isInside]
  rw [htext, List.cons_append, List.cons_append, List.append_assoc]
  simp only [token?, hquote, ↓reduceIte, List.takeWhile_append_of_pos hinside,
    List.dropWhile_append_of_pos hinside, List.singleton_append]
  simp [hstop]

/-- A word that is spelled as its kind demands is read as one token. -/
theorem token?_of_spells {kind : Kind} {word : String} (hspells : kind.Spells word)
    (h : kind.Stops rest) : token? (word.toList ++ rest) = some (kind, word.toList) := by
  cases kind with
  | stringLiteral =>
    obtain ⟨content,hquoted,hline⟩ := hspells
    exact token?_string hquoted hline rest
  | identifier =>
    obtain ⟨hstart,hall,hne⟩ := hspells
    simp only [List.mem_cons, List.not_mem_nil, or_false, not_or, ← String.toList_inj] at hne
    rw [token?_word hstart hall h, wordKind, h, if_neg Bool.false_ne_true, if_neg hne.1,
      if_neg hne.2.1, if_neg hne.2.2]
  | undefinedLiteral =>
    cases hspells
    rw [token?_word (by decide) (by decide) h, wordKind, h]
    rfl
  | printKeyword =>
    cases hspells
    rw [token?_word (by decide) (by decide) h, wordKind, h]
    rfl
  | letKeyword =>
    cases hspells
    rw [token?_word (by decide) (by decide) h, wordKind, h]
    rfl
  | assignOperator =>
    cases hspells
    rfl

/-- No token starts with a letter that only other languages have. -/
theorem exists_error_of_isWord {c : Char} (hword : Text.isWord c = true)
    (hname : isNameChar c = false) (position : Position) (cs : List Char) :
    ∃ e, .error e ∈ scanFrom position (c :: cs) := by
  have hspace : ¬ Text.isSpace c = true := by
    intro hs
    rw [Text.not_isWord_of_isSpace hs] at hword
    cases hword
  have hquote : isQuote c = false := by
    by_contra hq
    rcases Lexer.eq_of_isQuote (by simpa using hq) with rfl | rfl <;> revert hword <;> decide
  have hstart : isNameStart c = false := by
    by_contra hs
    rw [isNameChar_of_isNameStart (by simpa using hs)] at hname
    cases hname
  have hassign : c ≠ '=' := by
    rintro rfl
    revert hword
    decide
  rw [scanFrom_of_none position hspace (by simp [token?, hquote, hstart, hassign])]
  exact ⟨_,List.mem_singleton.mpr rfl⟩

/-- Where no error follows, the run of name characters ends at a character of no word. -/
theorem any_isWord_of_clean {position : Position} (hrun : rest.takeWhile isNameChar = [])
    (hclean : ∀ e, .error e ∉ scanFrom position rest) : rest.head?.any Text.isWord = false := by
  cases rest with
  | nil => rfl
  | cons c cs =>
    have hname : isNameChar c = false := by
      by_contra hc
      simp [hc] at hrun
    by_contra hword
    obtain ⟨e,he⟩ := exists_error_of_isWord (by simpa using hword) hname position cs
    exact hclean e he

theorem spells_wordKind {run : List Char} {next : Option Char}
    (hstart : run.head?.any isNameStart = true) (hall : run.all isNameChar = true)
    (hnext : next.any Text.isWord = false) : (wordKind run next).Spells (String.ofList run) := by
  rw [wordKind, hnext, if_neg Bool.false_ne_true]
  split_ifs with hundefined hprint hlet
  · rw [hundefined]
    exact String.ofList_toList
  · rw [hprint]
    exact String.ofList_toList
  · rw [hlet]
    exact String.ofList_toList
  · refine ⟨by rwa [String.toList_ofList],by rwa [String.toList_ofList],?_⟩
    simp only [List.mem_cons, List.not_mem_nil, or_false, not_or, ← String.toList_inj,
      String.toList_ofList]
    exact ⟨hundefined,hprint,hlet⟩

/-- A token is a string, a run of name characters or the operator. -/
theorem token?_cases {chars : List Char} {kind : Kind}
    (h : token? (chars ++ rest) = some (kind, chars)) :
    (kind = .stringLiteral ∧ Kind.stringLiteral.Spells (String.ofList chars)) ∨
      (kind = wordKind chars rest.head? ∧ chars.head?.any isNameStart = true ∧
        chars.all isNameChar = true ∧ rest.takeWhile isNameChar = []) ∨
      (kind = .assignOperator ∧ chars = ['=']) := by
  cases htext : chars ++ rest with
  | nil =>
    rw [htext] at h
    cases h
  | cons c cs =>
    rw [htext] at h
    simp only [token?] at h
    split_ifs at h with hquote hclosed hname hassign
    · obtain ⟨rfl,rfl⟩ := Prod.mk.inj (Option.some.inj h)
      have hinside : ∀ d ∈ cs.takeWhile (isInside c), isInside c d = true :=
        fun d hd => List.mem_takeWhile_imp hd
      refine Or.inl ⟨rfl,String.ofList (cs.takeWhile (isInside c)),⟨c,hquote,?_,by simp⟩,?_⟩
      · rw [String.toList_ofList]
        intro hmem
        simpa [isInside] using hinside c hmem
      · rw [String.toList_ofList]
        intro hmem
        simpa [isInside] using hinside '\n' hmem
    · obtain ⟨rfl,rfl⟩ := Prod.mk.inj (Option.some.inj h)
      have hrest : rest = (c :: cs).dropWhile isNameChar := by
        have hsplit := List.takeWhile_append_dropWhile (p := isNameChar) (l := c :: cs)
        exact List.append_cancel_left (htext.trans hsplit.symm)
      have hall : ∀ d ∈ (c :: cs).takeWhile isNameChar, isNameChar d = true :=
        fun d hd => List.mem_takeWhile_imp hd
      refine Or.inr (Or.inl ⟨by rw [hrest],?_,List.all_eq_true.mpr hall,?_⟩)
      · simp [isNameChar_of_isNameStart hname, hname]
      · have hwhole := @List.takeWhile_append_of_pos _ isNameChar _ rest hall
        rw [htext] at hwhole
        exact List.self_eq_append_right.mp hwhole
    · obtain ⟨rfl,rfl⟩ := Prod.mk.inj (Option.some.inj h)
      exact Or.inr (Or.inr ⟨rfl,by rw [hassign]⟩)

/-- A token is spelled and followed as its kind demands, if no error follows it. -/
theorem spells_of_token? {chars : List Char} {kind : Kind} (position : Position)
    (h : token? (chars ++ rest) = some (kind, chars))
    (hclean : ∀ e, .error e ∉ scanFrom position rest) :
    kind.Spells (String.ofList chars) ∧ kind.Stops rest := by
  rcases token?_cases h with ⟨rfl,hspells⟩ | ⟨rfl,hstart,hall,hrun⟩ | ⟨rfl,rfl⟩
  · exact ⟨hspells,trivial⟩
  · have hnext := any_isWord_of_clean hrun hclean
    exact ⟨spells_wordKind hstart hall hnext,stops_of_any_isWord hnext _⟩
  · exact ⟨rfl,trivial⟩

/-- A token is also read where the text behind it is cut off, if no error follows it. -/
theorem token?_cutoff {chars short : List Char} {kind : Kind} (position : Position)
    (h : token? (chars ++ rest) = some (kind, chars))
    (hclean : ∀ e, .error e ∉ scanFrom position rest) (hshort : short <+: rest) :
    token? (chars ++ short) = some (kind, chars) := by
  obtain ⟨hspells,hstops⟩ := spells_of_token? position h hclean
  have htoken := token?_of_spells hspells (hstops.cutoff hshort)
  rwa [String.toList_ofList] at htoken

theorem spells_of_scan {position : Position} {text : List Char} {tokens : List Token}
    (h : scanFrom position text = tokens.map .ok) : ∀ t ∈ tokens, t.kind.Spells t.text := by
  fun_induction scanFrom position text generalizing tokens with
  | case1 =>
    obtain rfl := List.map_eq_nil_iff.mp h.symm
    simp
  | case2 position c cs hspace ih => exact ih h
  | case3 position c cs hspace htoken =>
    obtain ⟨_,_,_,he,_⟩ := List.map_eq_cons_iff.mp h.symm
    cases he
  | case4 position c cs hspace kind chars htoken ih =>
    obtain ⟨first,others,rfl,hfirst,hothers⟩ := List.map_eq_cons_iff.mp h.symm
    cases hfirst
    obtain ⟨rest,hrest,_,_⟩ := scanFrom_of_token? position htoken
    rw [hrest, List.drop_left] at ih hothers
    intro t ht
    rcases List.mem_cons.mp ht with rfl | ht
    · rw [hrest] at htoken
      refine (spells_of_token? (position.advance chars) htoken fun e he => ?_).1
      rw [← hothers] at he
      simp at he
    · exact ih hothers.symm t ht

end Scanner

/-- A token without its place. -/
structure Spelling where
  kind : Kind
  text : String
  deriving DecidableEq

def Token.spelling (t : Token) : Spelling := ⟨t.kind, t.text⟩

/-- Texts with white space between them, and perhaps behind the last one. -/
inductive Spaced : List Spelling → List Char → Prop
  | last (word : Spelling) (blank : List Char) (spaces : ∀ c ∈ blank, Text.isSpace c = true) :
    Spaced [word] (word.text.toList ++ blank)
  | next (word : Spelling) (blank : List Char) (spaces : ∀ c ∈ blank, Text.isSpace c = true)
    (apart : blank ≠ []) {words : List Spelling} {text : List Char} (rest : Spaced words text) :
    Spaced (word :: words) (word.text.toList ++ (blank ++ text))

namespace Spaced
variable {words : List Spelling} {text : List Char}

theorem exists_of_ne_nil (h : words ≠ []) : ∃ text, Spaced words text := by
  induction words with
  | nil => exact absurd rfl h
  | cons word words ih =>
    cases words with
    | nil => exact ⟨_,.last word [] (by simp)⟩
    | cons other words =>
      obtain ⟨text,htext⟩ := ih (by simp)
      have hspace : ∀ c ∈ [' '], Text.isSpace c = true := List.forall_mem_singleton.mpr rfl
      exact ⟨_,.next word [' '] hspace (by simp) htext⟩

theorem scan (h : Spaced words text) (hwords : ∀ w ∈ words, w.kind.Spells w.text)
    (position : Position) : ∃ tokens : List Token,
      scanFrom position text = tokens.map .ok ∧ tokens.map Token.spelling = words := by
  induction h generalizing position with
  | last word blank spaces =>
    have hends : EndsWord blank := fun c hc => spaces c (List.mem_of_mem_head? hc)
    have htoken := token?_of_spells (hwords word List.mem_cons_self)
      (stops_of_any_isWord hends.any_isWord _)
    refine ⟨[⟨word.kind, word.text, position⟩],?_,rfl⟩
    rw [scanFrom_append position htoken, scanFrom_blank spaces, String.ofList_toList]
    rfl
  | @next word blank spaces apart words text _ ih =>
    have hends : EndsWord (blank ++ text) := by
      intro c hc
      rw [List.head?_append_of_ne_nil _ apart] at hc
      exact spaces c (List.mem_of_mem_head? hc)
    have htoken := token?_of_spells (hwords word List.mem_cons_self)
      (stops_of_any_isWord hends.any_isWord _)
    obtain ⟨tokens,htokens,hspelled⟩ := ih (fun w hw => hwords w (List.mem_cons_of_mem _ hw))
      ((position.advance word.text.toList).advance blank)
    refine ⟨⟨word.kind, word.text, position⟩ :: tokens,?_,?_⟩
    · rw [scanFrom_append position htoken, scanFrom_spaces spaces, htokens, String.ofList_toList]
      rfl
    · rw [List.map_cons, hspelled]
      rfl

end Spaced

end LetPrint

import LetPrint.Proofs.Relocation

/-! # Lexing across line breaks

No token holds a line feed, and no keyword is spoilt by one behind it. So a text that is lexed
without an error gives the same tokens when a line feed and more text come behind it, and what comes
behind is lexed as if it stood alone, at positions moved by the lines and the bytes before it.
-/
namespace LetPrint

/-- The place that is some lines below and some bytes behind another, in the same column. -/
def Position.moved (lines bytes : ℕ) (p : Position) : Position :=
  ⟨p.line + .ofNat lines, p.column, p.offset + .ofNat bytes⟩

def Token.moved (lines bytes : ℕ) (t : Token) : Token :=
  { t with position := t.position.moved lines bytes }

def Error.moved (lines bytes : ℕ) (e : Error) : Error :=
  { e with position := e.position.map (Position.moved lines bytes) }

def Feed.movedItem (lines bytes : ℕ) : Except Error Token → Except Error Token
  | .ok token => .ok (token.moved lines bytes)
  | .error error => .error (error.moved lines bytes)

namespace Position
variable (lines bytes : ℕ) (p : Position)

theorem moved_step (c : Char) : (p.moved lines bytes).step c = (p.step c).moved lines bytes := by
  have hcomm : ∀ a b c : UInt64, a + b + c = a + c + b := by grind
  unfold step
  split_ifs
  · simp only [moved, hcomm]
  · simp only [moved, hcomm]

theorem moved_advance (cs : List Char) :
    (p.moved lines bytes).advance cs = (p.advance cs).moved lines bytes := by
  induction cs generalizing p with
  | nil => rfl
  | cons c cs ih =>
    have hstep := ih (p.step c)
    rw [← moved_step] at hstep
    exact hstep

/-- Behind a line feed a new line starts in its first column, as in a text of its own. -/
theorem advance_newline (cs : List Char) : start.advance (cs ++ ['\n']) =
    start.moved (cs.count '\n' + 1) (Text.byteCount cs + 1) := by
  rw [advance_append, moved, UInt64.ofNat_add, UInt64.ofNat_add, ← UInt64.add_assoc,
    ← UInt64.add_assoc, ← line_advance, ← offset_advance]
  rfl

end Position

namespace Scanner

theorem isNameChar_newline : isNameChar '\n' = false := by decide

theorem takeWhile_append_of_head? {p : Char → Bool} {cs : List Char} {c : Char}
    (h : (cs.dropWhile p).head? = some c) (more : List Char) :
    (cs ++ more).takeWhile p = cs.takeWhile p ∧ ((cs ++ more).dropWhile p).head? = some c := by
  induction cs with
  | nil => cases h
  | cons d cs ih =>
    by_cases hd : p d = true
    · rw [List.dropWhile_cons_of_pos hd] at h
      obtain ⟨htake,hdrop⟩ := ih h
      constructor
      · rw [List.cons_append, List.takeWhile_cons_of_pos hd, List.takeWhile_cons_of_pos hd, htake]
      · rw [List.cons_append, List.dropWhile_cons_of_pos hd, hdrop]
    · rw [List.dropWhile_cons_of_neg hd] at h
      constructor
      · rw [List.cons_append, List.takeWhile_cons_of_neg hd, List.takeWhile_cons_of_neg hd]
      · rw [List.cons_append, List.dropWhile_cons_of_neg hd]
        exact h

theorem nameRun_append (cs more : List Char) :
    (cs ++ '\n' :: more).takeWhile isNameChar = cs.takeWhile isNameChar ∧
      ((cs ++ '\n' :: more).dropWhile isNameChar).head?.any Text.isWord =
        (cs.dropWhile isNameChar).head?.any Text.isWord := by
  induction cs with
  | nil =>
    have hword : Text.isWord '\n' = false := by decide
    simp [isNameChar_newline, hword]
  | cons c cs ih =>
    by_cases hc : isNameChar c = true
    · simpa [hc] using ih
    · simp [hc]

theorem token?_append_newline {text chars : List Char} {kind : Kind}
    (h : token? text = some (kind, chars)) (more : List Char) :
    token? (text ++ '\n' :: more) = some (kind, chars) := by
  cases text with
  | nil => cases h
  | cons c cs =>
    simp only [token?] at h
    split_ifs at h with hquote hclosed hname hassign
    · obtain ⟨htake,hhead⟩ := takeWhile_append_of_head? hclosed ('\n' :: more)
      simp only [List.cons_append, token?, if_pos hquote, if_pos hhead]
      rw [htake]
      exact h
    · obtain ⟨htake,hnext⟩ := nameRun_append (c :: cs) more
      simp only [List.cons_append] at htake hnext
      simp only [List.cons_append, token?, if_neg hquote, if_pos hname, htake]
      simp only [wordKind, hnext] at h ⊢
      exact h
    · simp only [List.cons_append, token?, if_neg hquote, if_neg hname, if_pos hassign]
      exact h

theorem scanFrom_moved (lines bytes : ℕ) (position : Position) (text : List Char) :
    scanFrom (position.moved lines bytes) text =
      (scanFrom position text).map (Feed.movedItem lines bytes) := by
  have hitem : Feed.movedItem lines bytes = Feed.relocatedItem (Position.moved lines bytes) := by
    funext item
    cases item <;> rfl
  rw [hitem]
  exact scanFrom_relocated fun front _ => (position.moved_advance lines bytes front).symm

/-- A text without an error and what comes behind a line feed are lexed one after the other. -/
theorem scanFrom_append_newline {position : Position} {text : List Char} (more : List Char)
    (h : ∀ e, .error e ∉ scanFrom position text) :
    scanFrom position (text ++ '\n' :: more) =
      scanFrom position text ++ scanFrom (position.advance (text ++ ['\n'])) more := by
  fun_induction scanFrom position text with
  | case1 position =>
    have hspace : Text.isSpace '\n' = true := by decide
    rw [List.nil_append, scanFrom, if_pos hspace]
    rfl
  | case2 position c cs hspace ih =>
    rw [List.cons_append, scanFrom, if_pos hspace, ih h]
    rfl
  | case3 position c cs hspace htoken => exact absurd List.mem_cons_self (h _)
  | case4 position c cs hspace kind chars htoken ih =>
    obtain ⟨rest,hrest,_,_⟩ := scanFrom_of_token? position htoken
    obtain ⟨rest',hrest',_,hscan⟩ :=
      scanFrom_of_token? position (token?_append_newline htoken more)
    rw [hrest, List.append_assoc] at hrest'
    obtain rfl := List.append_cancel_left hrest'
    rw [hrest, List.drop_left] at ih h ⊢
    rw [hrest] at hscan
    have hclean : ∀ e, .error e ∉ scanFrom (position.advance chars) rest :=
      fun e he => h e (List.mem_cons_of_mem _ he)
    rw [hscan, ih hclean, List.append_assoc chars, Position.advance_append position chars]
    rfl

theorem scan_append_newline {a : String} (b : String) (h : ∀ e, .error e ∉ scan a) :
    scan (a ++ "\n" ++ b) = scan a ++
      (scan b).map (Feed.movedItem (a.toList.count '\n' + 1) (a.utf8ByteSize + 1)) := by
  have htext : (a ++ "\n" ++ b).toList = a.toList ++ '\n' :: b.toList := by simp
  rw [scan, htext, scanFrom_append_newline b.toList h, Position.advance_newline, scanFrom_moved,
    Text.byteCount_toList]
  rfl

end Scanner

namespace Lexer

/-- Behind tokens and a line feed, a source is lexed as if it stood alone, below the lines and
behind the bytes that come before. -/
theorem scan_line_break : ∃ lexer, language.value = .ok lexer ∧
    ∀ (a b : String) (tokens : List Token), lexer.scan a = tokens.map .ok →
      lexer.scan (a ++ "\n" ++ b) = tokens.map .ok ++
        (lexer.scan b).map (Feed.movedItem (a.toList.count '\n' + 1) (a.utf8ByteSize + 1)) := by
  refine ⟨⟨languageRules⟩,language_value,fun a b tokens h => ?_⟩
  simp only [scan_languageRules] at h ⊢
  have hclean : ∀ e, .error e ∉ Scanner.scan a := by simp [h]
  rw [Scanner.scan_append_newline b hclean, h]

/-- The keyword before the break stays one, though a name would go on with the word behind it, and
the error behind it is moved as the tokens are. -/
theorem scan_line_break_keyword : ∃ lexer, language.value = .ok lexer ∧
    lexer.scan "'é'\nlet\nit ?" = [.ok ⟨.stringLiteral, "'é'", ⟨1, 1, 0⟩⟩,
      .ok ⟨.letKeyword, "let", ⟨2, 1, 5⟩⟩, .ok ⟨.identifier, "it", ⟨3, 1, 9⟩⟩,
      .error (.located (.unrecognisedToken "?") ⟨3, 4, 12⟩)] := by
  obtain ⟨lexer,hlexer,hbreak⟩ := scan_line_break
  refine ⟨lexer,hlexer,?_⟩
  obtain rfl := Except.ok.inj (language_value.symm.trans hlexer)
  have hfirst : scan ⟨languageRules⟩ "'é'\nlet" =
      [⟨.stringLiteral, "'é'", ⟨1, 1, 0⟩⟩, ⟨.letKeyword, "let", ⟨2, 1, 5⟩⟩].map .ok := by
    decide +kernel
  have hsecond : scan ⟨languageRules⟩ "it ?" = [.ok ⟨.identifier, "it", ⟨1, 1, 0⟩⟩,
      .error (.located (.unrecognisedToken "?") ⟨1, 4, 3⟩)] := by decide +kernel
  have hboth := hbreak "'é'\nlet" "it ?" _ hfirst
  rw [hsecond] at hboth
  exact hboth

end Lexer

end LetPrint

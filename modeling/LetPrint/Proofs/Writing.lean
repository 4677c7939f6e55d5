import LetPrint.Proofs.Joining
import LetPrint.Proofs.Spelling

/-! # Writing programs

A list of statements can be written down if its names are no keywords, its strings leave out the
line feed and one of the quotes, and every name that is referred to was bound before. However it is
written, with white space between the tokens and each string in a quote that it does not hold, it is
read back as it was. And nothing but such lists is ever read from a source.
-/
namespace LetPrint
open Scanner

def Expr.bare : Expr → Expr
  | text content _ => text content .atStart
  | undefined _ => undefined .atStart
  | name identifier _ => name identifier .atStart

def Expr.use? : Expr → Option String
  | name identifier _ => some identifier
  | _ => none

/-- Strings leave out the line feed and a quote, and names are no keywords. -/
def Expr.Proper : Expr → Prop
  | text content _ =>
    '\n' ∉ content.toList ∧ ('"' ∉ content.toList ∨ '\'' ∉ content.toList)
  | undefined _ => True
  | name identifier _ => IsName identifier

instance : (e : Expr) → Decidable e.Proper
  | .text _ _ => inferInstanceAs (Decidable (_ ∧ (_ ∨ _)))
  | .undefined _ => inferInstanceAs (Decidable True)
  | .name identifier _ => inferInstanceAs (Decidable (IsName identifier))

/-- The token of an expression: the string stands in a quote that it does not hold. -/
inductive Expr.Written : Expr → Spelling → Prop
  | text {content word : String} (span : Span) (quoted : Quoted word content) :
    Written (.text content span) ⟨.stringLiteral, word⟩
  | undefined (span : Span) : Written (.undefined span) ⟨.undefinedLiteral, "undefined"⟩
  | name (identifier : String) (span : Span) :
    Written (.name identifier span) ⟨.identifier, identifier⟩

namespace Stmt

def bare : Stmt → Stmt
  | print operand _ => print operand.bare .atStart
  | bind identifier initializer _ => bind identifier (initializer.map Expr.bare) .atStart

def use? (s : Stmt) : Option String := s.operand?.bind Expr.use?

def Proper : Stmt → Prop
  | print operand _ => operand.Proper
  | bind identifier initializer _ => IsName identifier ∧ ∀ e ∈ initializer, e.Proper

instance : (s : Stmt) → Decidable s.Proper
  | print operand _ => inferInstanceAs (Decidable operand.Proper)
  | bind _ none _ => decidable_of_iff _ (and_iff_left (by simp)).symm
  | bind identifier (some e) _ =>
    decidable_of_iff (IsName identifier ∧ e.Proper) (by simp [Proper])

/-- Every name that a statement refers to is known or bound by an earlier statement. -/
def InScope (known : List String) : List Stmt → Prop
  | [] => True
  | s :: rest => (∀ name ∈ s.use?, name ∈ known) ∧ InScope (s.binder?.toList ++ known) rest

instance decidableInScope : (known : List String) → (statements : List Stmt) →
    Decidable (InScope known statements)
  | _, [] => inferInstanceAs (Decidable True)
  | known, s :: rest =>
    have := decidableInScope (s.binder?.toList ++ known) rest
    inferInstanceAs (Decidable ((∀ name ∈ s.use?, name ∈ known) ∧ _))

/-- What a list of statements needs to be written down. -/
structure Writable (statements : List Stmt) : Prop where
  ne_nil : statements ≠ []
  proper : ∀ s ∈ statements, s.Proper
  inScope : InScope [] statements

instance (statements : List Stmt) : Decidable (Writable statements) :=
  decidable_of_iff (statements ≠ [] ∧ (∀ s ∈ statements, s.Proper) ∧ InScope [] statements)
    ⟨fun h => ⟨h.1,h.2.1,h.2.2⟩,fun h => ⟨h.ne_nil,h.proper,h.inScope⟩⟩

inductive Written : Stmt → List Spelling → Prop
  | print {e : Expr} {word : Spelling} (span : Span) (operand : e.Written word) :
    Written (.print e span) [⟨.printKeyword, "print"⟩, word]
  | declare (identifier : String) (span : Span) :
    Written (.bind identifier none span) [⟨.letKeyword, "let"⟩, ⟨.identifier, identifier⟩]
  | define (identifier : String) {e : Expr} {word : Spelling} (span : Span)
    (initializer : e.Written word) : Written (.bind identifier (some e) span)
      [⟨.letKeyword, "let"⟩, ⟨.identifier, identifier⟩, ⟨.assignOperator, "="⟩, word]

/-- A source that holds the tokens of statements, with white space between them. -/
def Writes (statements : List Stmt) (source : String) : Prop :=
  ∃ words blank text, List.Forall₂ Written statements words ∧
    (∀ c ∈ blank, Text.isSpace c = true) ∧ Spaced words.flatten text ∧
    source.toList = blank ++ text

end Stmt

theorem Expr.Proper.exists_written {e : Expr} (h : e.Proper) : ∃ word, e.Written word := by
  cases e with
  | text content span =>
    obtain ⟨quote,hquote,hnone⟩ : ∃ quote, isQuote quote = true ∧ quote ∉ content.toList := by
      rcases h.2 with hdouble | hsingle
      · exact ⟨_,rfl,hdouble⟩
      · exact ⟨_,rfl,hsingle⟩
    exact ⟨_,.text span ⟨quote,hquote,hnone,String.toList_ofList⟩⟩
  | undefined span => exact ⟨_,.undefined span⟩
  | name identifier span => exact ⟨_,.name identifier span⟩

theorem Stmt.Proper.exists_written {s : Stmt} (h : s.Proper) :
    ∃ words, words ≠ [] ∧ s.Written words := by
  cases s with
  | print operand span =>
    obtain ⟨word,hword⟩ := Expr.Proper.exists_written h
    exact ⟨_,by simp,.print span hword⟩
  | bind identifier initializer span =>
    cases initializer with
    | none => exact ⟨_,by simp,.declare identifier span⟩
    | some e =>
      obtain ⟨word,hword⟩ := (h.2 e rfl).exists_written
      exact ⟨_,by simp,.define identifier span hword⟩

theorem Stmt.exists_words {statements : List Stmt} (hne : statements ≠ [])
    (h : ∀ s ∈ statements, s.Proper) :
    ∃ words, List.Forall₂ Written statements words ∧ words.flatten ≠ [] := by
  induction statements with
  | nil => exact absurd rfl hne
  | cons s rest ih =>
    obtain ⟨words,hwords,hwritten⟩ := (h s List.mem_cons_self).exists_written
    cases rest with
    | nil => exact ⟨[words],.cons hwritten .nil,by simpa using hwords⟩
    | cons other rest =>
      obtain ⟨more,hmore,_⟩ := ih (by simp) fun s hs => h s (List.mem_cons_of_mem _ hs)
      exact ⟨words :: more,.cons hwritten hmore,by simp [hwords]⟩

theorem Stmt.Writable.exists_source {statements : List Stmt} (h : Writable statements) :
    ∃ source, Writes statements source := by
  obtain ⟨words,hwords,hne⟩ := exists_words h.ne_nil h.proper
  obtain ⟨text,htext⟩ := Spaced.exists_of_ne_nil hne
  exact ⟨String.ofList text,words,[],text,hwords,by simp,htext,String.toList_ofList⟩

theorem Expr.Written.spells {e : Expr} {word : Spelling} (h : e.Written word) (he : e.Proper) :
    word.kind.Spells word.text := by
  cases h with
  | text span quoted => exact ⟨_,quoted,he.1⟩
  | undefined span => rfl
  | name identifier span => exact he

theorem Stmt.Written.spells {s : Stmt} {words : List Spelling} (h : s.Written words)
    (hs : s.Proper) : ∀ w ∈ words, w.kind.Spells w.text := by
  cases h with
  | print span operand =>
    simp only [List.forall_mem_cons]
    exact ⟨rfl,operand.spells hs,by simp⟩
  | declare identifier span =>
    simp only [List.forall_mem_cons]
    exact ⟨rfl,hs.1,by simp⟩
  | define identifier span initializer =>
    simp only [List.forall_mem_cons]
    exact ⟨rfl,hs.1,rfl,initializer.spells (hs.2 _ rfl),by simp⟩

theorem Stmt.spells_flatten {statements : List Stmt} {words : List (List Spelling)}
    (h : List.Forall₂ Written statements words) (hproper : ∀ s ∈ statements, s.Proper) :
    ∀ w ∈ words.flatten, w.kind.Spells w.text := by
  induction h with
  | nil => simp
  | cons hwritten _ ih =>
    rw [List.forall_mem_cons] at hproper
    rw [List.flatten_cons, List.forall_mem_append]
    exact ⟨hwritten.spells hproper.1,ih hproper.2⟩

theorem Expr.Written.exists_operand {e : Expr} {token : Token} (h : e.Written token.spelling) :
    ∃ o : Operand, o.token = token ∧ o.expr.bare = e.bare := by
  obtain ⟨kind,word,position⟩ := token
  cases h with
  | text span quoted =>
    refine ⟨.text ⟨word,position⟩,rfl,?_⟩
    rw [Operand.expr, unquoted_of_quoted quoted]
    rfl
  | undefined span => exact ⟨.undefined ⟨_,position⟩,rfl,rfl⟩
  | name identifier span => exact ⟨.name ⟨_,position⟩,rfl,rfl⟩

theorem Token.exists_lexeme {token : Token} {kind : Kind} {word : String}
    (h : token.spelling = ⟨kind, word⟩) : ∃ l : Lexeme kind, l.token = token ∧ l.text = word := by
  obtain ⟨kind,word,position⟩ := token
  cases h
  exact ⟨⟨word,position⟩,rfl,rfl⟩

theorem Stmt.Written.exists_clause {s : Stmt} {tokens : List Token}
    (h : s.Written (tokens.map Token.spelling)) :
    ∃ c : Clause, c.tokens = tokens ∧ c.stmt.bare = s.bare := by
  generalize hwords : tokens.map Token.spelling = words at h
  cases h with
  | print span operand =>
    simp only [List.map_eq_cons_iff, List.map_eq_nil_iff] at hwords
    obtain ⟨first,_,rfl,hfirst,token,_,rfl,rfl,rfl⟩ := hwords
    obtain ⟨keyword,rfl,_⟩ := Token.exists_lexeme hfirst
    obtain ⟨o,rfl,ho⟩ := operand.exists_operand
    exact ⟨.print keyword o,rfl,by simp [Clause.stmt, bare, ho]⟩
  | declare identifier span =>
    simp only [List.map_eq_cons_iff, List.map_eq_nil_iff] at hwords
    obtain ⟨first,_,rfl,hfirst,second,_,rfl,hsecond,rfl⟩ := hwords
    obtain ⟨keyword,rfl,_⟩ := Token.exists_lexeme hfirst
    obtain ⟨name,rfl,hname⟩ := Token.exists_lexeme hsecond
    exact ⟨.declare keyword name,rfl,by simp [Clause.stmt, bare, hname]⟩
  | define identifier span initializer =>
    simp only [List.map_eq_cons_iff, List.map_eq_nil_iff] at hwords
    obtain ⟨first,_,rfl,hfirst,second,_,rfl,hsecond,third,_,rfl,hthird,hlast⟩ := hwords
    obtain ⟨token,_,rfl,rfl,rfl⟩ := hlast
    obtain ⟨keyword,rfl,_⟩ := Token.exists_lexeme hfirst
    obtain ⟨name,rfl,hname⟩ := Token.exists_lexeme hsecond
    obtain ⟨operator,rfl,_⟩ := Token.exists_lexeme hthird
    obtain ⟨o,rfl,ho⟩ := initializer.exists_operand
    exact ⟨.define keyword name operator o,rfl,by simp [Clause.stmt, bare, hname, ho]⟩

theorem Stmt.exists_clauses {statements : List Stmt} {words : List (List Spelling)}
    (h : List.Forall₂ Written statements words) {tokens : List Token}
    (htokens : tokens.map Token.spelling = words.flatten) :
    ∃ clauses : List Clause, clauses.flatMap Clause.tokens = tokens ∧
      (clauses.map Clause.stmt).map bare = statements.map bare := by
  induction h generalizing tokens with
  | nil =>
    obtain rfl := List.map_eq_nil_iff.mp htokens
    exact ⟨[],rfl,rfl⟩
  | cons hwritten _ ih =>
    rw [List.flatten_cons] at htokens
    obtain ⟨first,rest,rfl,rfl,hrest⟩ := List.map_eq_append_iff.mp htokens
    obtain ⟨c,rfl,hc⟩ := hwritten.exists_clause
    obtain ⟨clauses,rfl,hclauses⟩ := ih hrest
    exact ⟨c :: clauses,rfl,by simp only [List.map_cons, hc, hclauses]⟩

@[simp] theorem Expr.use?_bare (e : Expr) : e.bare.use? = e.use? := by
  cases e <;> rfl

@[simp] theorem Stmt.use?_bare (s : Stmt) : s.bare.use? = s.use? := by
  cases s with
  | print operand span => exact operand.use?_bare
  | bind identifier initializer span =>
    cases initializer with
    | none => rfl
    | some e => exact e.use?_bare

@[simp] theorem Stmt.binder?_bare (s : Stmt) : s.bare.binder? = s.binder? := by
  cases s <;> rfl

theorem Stmt.inScope_map_bare {known : List String} {statements : List Stmt} :
    InScope known (statements.map bare) ↔ InScope known statements := by
  induction statements generalizing known with
  | nil => rfl
  | cons s rest ih => simp only [List.map_cons, InScope, use?_bare, binder?_bare, ih]

theorem Clause.use?_stmt (c : Clause) : c.stmt.use? = c.use?.map Lexeme.text := by
  cases c with
  | print keyword operand => cases operand <;> rfl
  | declare keyword name => rfl
  | define keyword name operator initializer => cases initializer <;> rfl

theorem Clause.scoped_singleton {env : Environment} {c : Clause} :
    Scoped env [c] ↔ ∀ name ∈ c.stmt.use?, name ∈ env.declared := by
  have hconcat : Scoped env ([] ++ [c]) ↔ _ := scoped_concat
  rw [List.nil_append, List.foldl_nil, stray?_eq_none_iff, and_iff_right scoped_nil] at hconcat
  rw [hconcat, use?_stmt]
  simp

/-- The names that clauses refer to are declared exactly if those of their statements are known. -/
theorem Clause.inScope_stmts {clauses : List Clause} {env : Environment} {known : List String}
    (h : ∀ name, name ∈ known ↔ name ∈ env.declared) :
    Stmt.InScope known (clauses.map stmt) ↔ Scoped env clauses := by
  induction clauses generalizing env known with
  | nil => simp [Stmt.InScope, scoped_nil]
  | cons c clauses ih =>
    have hknown : ∀ name, name ∈ c.stmt.binder?.toList ++ known ↔
        name ∈ (c.declareIn env).declared := by
      intro name
      rw [mem_declared_declareIn, List.mem_append, h, binder?_stmt, Option.mem_toList, or_comm]
    rw [List.map_cons, Stmt.InScope, ih hknown, ← List.singleton_append, scoped_append,
      scoped_singleton, List.foldl_cons, List.foldl_nil]
    simp only [h]

theorem Clause.inScope_stmts_nil {clauses : List Clause} :
    Stmt.InScope [] (clauses.map stmt) ↔ Scoped {} clauses := inScope_stmts (by simp)

theorem Operand.proper_expr {o : Operand} (h : o.token.kind.Spells o.token.text) :
    o.expr.Proper := by
  cases o with
  | text literal =>
    obtain ⟨content,hquoted,hline⟩ := h
    have hcontent : Phrase.unquoted literal.text = content := unquoted_of_quoted hquoted
    rw [expr, hcontent]
    obtain ⟨quote,hquote,hnone,_⟩ := hquoted
    rcases Lexer.eq_of_isQuote hquote with rfl | rfl
    · exact ⟨hline,Or.inl hnone⟩
    · exact ⟨hline,Or.inr hnone⟩
  | undefined literal => trivial
  | name identifier => exact h

theorem Clause.proper_stmt {c : Clause} (h : ∀ t ∈ c.tokens, t.kind.Spells t.text) :
    c.stmt.Proper := by
  cases c with
  | print keyword operand =>
    exact Operand.proper_expr (h operand.token (by simp [tokens]))
  | declare keyword name => exact ⟨h name.token (by simp [tokens]),by simp⟩
  | define keyword name operator initializer =>
    refine ⟨h name.token (by simp [tokens]),?_⟩
    simp only [Option.mem_def, Option.some.injEq, forall_eq']
    exact Operand.proper_expr (h initializer.token (by simp [tokens]))

namespace Language
variable {source : String} {statements : List Stmt}

theorem feed_eq (source : String) :
    Lexer.feed ⟨Lexer.languageRules⟩ source = ⟨Scanner.scan source, true⟩ := by
  rw [Lexer.feed, Lexer.scan_languageRules]

/-- What is written is lexed as the tokens of clauses that stand for the statements. -/
theorem exists_clauses_of_writes (hproper : ∀ s ∈ statements, s.Proper)
    (h : Stmt.Writes statements source) : ∃ clauses : List Clause,
      Scanner.scan source = (clauses.flatMap Clause.tokens).map .ok ∧
      (clauses.map Clause.stmt).map Stmt.bare = statements.map Stmt.bare := by
  obtain ⟨words,blank,text,hwords,hblank,hspaced,hsource⟩ := h
  obtain ⟨tokens,hscan,hspelled⟩ := hspaced.scan (Stmt.spells_flatten hwords hproper)
    (Position.start.advance blank)
  obtain ⟨clauses,rfl,hbare⟩ := Stmt.exists_clauses hwords hspelled
  refine ⟨clauses,?_,hbare⟩
  rw [Scanner.scan, hsource, scanFrom_spaces hblank, hscan]

theorem parse_of_writes (hwritable : Stmt.Writable statements)
    (h : Stmt.Writes statements source) : ∃ program after,
      (reader.parse (Lexer.feed ⟨Lexer.languageRules⟩ source) {}).value = (.ok program, after) ∧
      program.statements.map Stmt.bare = statements.map Stmt.bare := by
  obtain ⟨clauses,hscan,hbare⟩ := exists_clauses_of_writes hwritable.proper h
  have hne : clauses ≠ [] := by
    rintro rfl
    exact hwritable.ne_nil (List.map_eq_nil_iff.mp hbare.symm)
  have hscoped : Clause.Scoped {} clauses := by
    rw [← Clause.inScope_stmts_nil, ← Stmt.inScope_map_bare, hbare, Stmt.inScope_map_bare]
    exact hwritable.inScope
  refine ⟨⟨clauses.map Clause.stmt,Phrase.spanOf (clauses.map Clause.stmt)⟩,
    clauses.foldl Clause.declareIn {},?_,hbare⟩
  rw [feed_eq, hscan, value_parse_reader, Scan.outcome_of_scoped hne hscoped]
  rfl

theorem writable_of_parse {program : Program} {after : Environment}
    (h : (reader.parse (Lexer.feed ⟨Lexer.languageRules⟩ source) {}).value = (.ok program, after)) :
    Stmt.Writable program.statements := by
  rw [feed_eq] at h
  obtain ⟨clauses,hscan,hscoped,hstatements,_⟩ := clauses_of_parse h
  have hspells := spells_of_scan hscan
  rw [hstatements]
  refine ⟨?_,?_,Clause.inScope_stmts_nil.mpr hscoped⟩
  · intro hnil
    obtain rfl := List.map_eq_nil_iff.mp hnil
    rw [hscan, value_parse_reader] at h
    cases h
  · intro s hs
    obtain ⟨c,hc,rfl⟩ := List.mem_map.mp hs
    exact Clause.proper_stmt fun t ht => hspells t (List.mem_flatMap.mpr ⟨c,hc,ht⟩)

/-- Lists of statements that can be written down are written down and read back, whatever quotes and
white space are chosen, and what is read from a source can be written down. -/
theorem parse_written : ∃ lexer p, Lexer.language.value = .ok lexer ∧ parser.value = .ok p ∧
    (∀ statements, Stmt.Writable statements →
      (∃ source, Stmt.Writes statements source) ∧
      ∀ source, Stmt.Writes statements source → ∃ program after,
        (p.parse (lexer.feed source) {}).value = (.ok program, after) ∧
        program.statements.map Stmt.bare = statements.map Stmt.bare) ∧
    ∀ source program after, (p.parse (lexer.feed source) {}).value = (.ok program, after) →
      Stmt.Writable program.statements := by
  refine ⟨⟨Lexer.languageRules⟩,reader,Lexer.language_value,parser_value,?_,?_⟩
  · intro statements hwritable
    exact ⟨hwritable.exists_source,fun source h => parse_of_writes hwritable h⟩
  · intro source program after h
    exact writable_of_parse h

/-- A name that begins like a keyword, and a string with a quote in it. -/
theorem parse_written_apostrophe :
    let statements : List Stmt := [.bind "let_" (some (.text "it's" .atStart)) .atStart]
    let source := "let let_\t=\u3000\"it's\"\n"
    Stmt.Writable statements ∧ Stmt.Writes statements source ∧
    ∃ lexer p, Lexer.language.value = .ok lexer ∧ parser.value = .ok p ∧ ∃ program after,
      (p.parse (lexer.feed source) {}).value = (.ok program, after) ∧
      program.statements.map Stmt.bare = statements := by
  intro statements source
  have hwritable : Stmt.Writable statements := by decide
  have hwrites : Stmt.Writes statements source := by
    have hquoted : Quoted "\"it's\"" "it's" := ⟨'"',by decide,by decide,by decide⟩
    have hblank : ∀ c, Text.isSpace c = true → ∀ d ∈ [c], Text.isSpace d = true :=
      fun c hc => List.forall_mem_singleton.mpr hc
    have hvalue := Spaced.last ⟨.stringLiteral,"\"it's\""⟩ ['\n'] (hblank _ rfl)
    have hoperator := Spaced.next ⟨.assignOperator,"="⟩ ['\u3000'] (hblank _ rfl) (by simp) hvalue
    have hname := Spaced.next ⟨.identifier,"let_"⟩ ['\t'] (hblank _ rfl) (by simp) hoperator
    have hkeyword := Spaced.next ⟨.letKeyword,"let"⟩ [' '] (hblank _ rfl) (by simp) hname
    exact ⟨_,[],_,.cons (.define _ _ (.text _ hquoted)) .nil,by simp,hkeyword,by decide⟩
  obtain ⟨lexer,p,hlexer,hp,hwritten,_⟩ := parse_written
  exact ⟨hwritable,hwrites,lexer,p,hlexer,hp,(hwritten statements hwritable).2 source hwrites⟩

end Language

end LetPrint

import LetPrint.Language
import LetPrint.Proofs.Derivation
import Mathlib.Data.List.Induction

/-! # Clauses and sentences

A clause is a statement as a list of tokens: the kinds are part of its type, so every clause is well
formed. Reading tokens one at a time is a small automaton over clauses: at every moment there are
the clauses that are finished and the stage of the one at hand. The sentences of the language are
the nonempty concatenations of clauses.
-/
namespace LetPrint

/-- A token of a known kind. -/
structure Lexeme (kind : Kind) where
  text : String
  position : Position

def Lexeme.token {kind : Kind} (l : Lexeme kind) : Token := ⟨kind, l.text, l.position⟩

def Lexeme.notDefined (identifier : Lexeme .identifier) : Error :=
  .located (.identifierNotDefined identifier.text) identifier.position

inductive Operand where
  | text (literal : Lexeme .stringLiteral)
  | undefined (literal : Lexeme .undefinedLiteral)
  | name (identifier : Lexeme .identifier)

namespace Operand

def token : Operand → Token
  | text literal => literal.token
  | undefined literal => literal.token
  | name identifier => identifier.token

def expr : Operand → Expr
  | text literal => .text (Phrase.unquoted literal.text) literal.token.span
  | undefined literal => .undefined literal.token.span
  | name identifier => .name identifier.text identifier.token.span

def use? : Operand → Option (Lexeme .identifier)
  | name identifier => some identifier
  | _ => none

/-- The identifier that an operand refers to although it is not declared. -/
def stray? (o : Operand) (env : Environment) : Option (Lexeme .identifier) :=
  match o with
  | name identifier => if env.isDeclared identifier.text then none else some identifier
  | _ => none

theorem stray?_eq_some_iff {o : Operand} {env : Environment} {identifier : Lexeme .identifier} :
    o.stray? env = some identifier ↔
      o.use? = some identifier ∧ identifier.text ∉ env.declared := by
  cases o with
  | text literal => simp [stray?, use?]
  | undefined literal => simp [stray?, use?]
  | name other =>
    simp only [stray?, use?, Environment.isDeclared, decide_eq_true_eq, Option.some.injEq]
    constructor
    · intro h
      split_ifs at h with hd
      cases h
      exact ⟨rfl,hd⟩
    · rintro ⟨rfl,hd⟩
      rw [if_neg hd]

def ofToken? : Token → Option Operand
  | ⟨.stringLiteral, word, position⟩ => some (.text ⟨word, position⟩)
  | ⟨.undefinedLiteral, word, position⟩ => some (.undefined ⟨word, position⟩)
  | ⟨.identifier, word, position⟩ => some (.name ⟨word, position⟩)
  | _ => none

theorem ofToken?_eq_some_iff {token : Token} {o : Operand} :
    ofToken? token = some o ↔ token = o.token := by
  obtain ⟨kind,text,position⟩ := token
  constructor
  · intro h
    cases kind <;> cases h <;> rfl
  · intro h
    cases o <;> cases h <;> rfl

@[simp] theorem ofToken?_token (o : Operand) : ofToken? o.token = some o :=
  ofToken?_eq_some_iff.mpr rfl

end Operand

/-- A statement as it is written. -/
inductive Clause where
  | print (keyword : Lexeme .printKeyword) (operand : Operand)
  | declare (keyword : Lexeme .letKeyword) (name : Lexeme .identifier)
  | define (keyword : Lexeme .letKeyword) (name : Lexeme .identifier)
    (operator : Lexeme .assignOperator) (initializer : Operand)

namespace Clause

def tokens : Clause → List Token
  | print keyword operand => [keyword.token, operand.token]
  | declare keyword name => [keyword.token, name.token]
  | define keyword name operator initializer =>
    [keyword.token, name.token, operator.token, initializer.token]

def use? : Clause → Option (Lexeme .identifier)
  | print _ operand => operand.use?
  | declare _ _ => none
  | define _ _ _ initializer => initializer.use?

def stray? (c : Clause) (env : Environment) : Option (Lexeme .identifier) :=
  match c with
  | print _ operand => operand.stray? env
  | declare _ _ => none
  | define _ _ _ initializer => initializer.stray? env

theorem stray?_eq_some_iff {c : Clause} {env : Environment} {identifier : Lexeme .identifier} :
    c.stray? env = some identifier ↔
      c.use? = some identifier ∧ identifier.text ∉ env.declared := by
  cases c with
  | print keyword operand => exact Operand.stray?_eq_some_iff
  | declare keyword name => simp [stray?, use?]
  | define keyword name operator initializer => exact Operand.stray?_eq_some_iff

def binder? : Clause → Option String
  | print _ _ => none
  | declare _ name => some name.text
  | define _ name _ _ => some name.text

def stmt : Clause → Stmt
  | print keyword operand => .print operand.expr ⟨keyword.position, operand.expr.span.stop⟩
  | declare keyword name => .bind name.text none ⟨keyword.position, name.token.span.stop⟩
  | define keyword name _ initializer =>
    .bind name.text (some initializer.expr) ⟨keyword.position, initializer.expr.span.stop⟩

def declareIn (env : Environment) (c : Clause) : Environment :=
  match c.binder? with
  | some name => env.declare name
  | none => env

end Clause

/-- How far the clause at hand has been read. -/
inductive Stage where
  | idle
  | printing (keyword : Lexeme .printKeyword)
  | letting (keyword : Lexeme .letKeyword)
  | naming (keyword : Lexeme .letKeyword) (name : Lexeme .identifier)
  | assigning (keyword : Lexeme .letKeyword) (name : Lexeme .identifier)
    (operator : Lexeme .assignOperator)
  | printed (keyword : Lexeme .printKeyword) (operand : Operand)
  | assigned (keyword : Lexeme .letKeyword) (name : Lexeme .identifier)
    (operator : Lexeme .assignOperator) (initializer : Operand)

def Clause.stage : Clause → Stage
  | print keyword operand => .printed keyword operand
  | declare keyword name => .naming keyword name
  | define keyword name operator initializer => .assigned keyword name operator initializer

namespace Stage

def tokens : Stage → List Token
  | idle => []
  | printing keyword => [keyword.token]
  | letting keyword => [keyword.token]
  | naming keyword name => [keyword.token, name.token]
  | assigning keyword name operator => [keyword.token, name.token, operator.token]
  | printed keyword operand => [keyword.token, operand.token]
  | assigned keyword name operator initializer =>
    [keyword.token, name.token, operator.token, initializer.token]

/-- The clause at hand, if it may end here. -/
def pending? : Stage → Option Clause
  | naming keyword name => some (.declare keyword name)
  | printed keyword operand => some (.print keyword operand)
  | assigned keyword name operator initializer => some (.define keyword name operator initializer)
  | _ => none

def shift : Stage → Token → Option Stage
  | idle, ⟨.printKeyword, word, position⟩ => some (printing ⟨word, position⟩)
  | idle, ⟨.letKeyword, word, position⟩ => some (letting ⟨word, position⟩)
  | printing keyword, token => (Operand.ofToken? token).map (printed keyword)
  | letting keyword, ⟨.identifier, word, position⟩ => some (naming keyword ⟨word, position⟩)
  | naming keyword name, ⟨.assignOperator, word, position⟩ =>
    some (assigning keyword name ⟨word, position⟩)
  | assigning keyword name operator, token =>
    (Operand.ofToken? token).map (assigned keyword name operator)
  | _, _ => none

def expects : Stage → List Terminal
  | idle => [.token .printKeyword, .token .letKeyword]
  | printing _ | assigning _ _ _ =>
    [.token .stringLiteral, .token .undefinedLiteral, .token .identifier]
  | letting _ => [.token .identifier]
  | naming _ _ => [.token .printKeyword, .token .letKeyword, .token .assignOperator, .endOfInput]
  | printed _ _ | assigned _ _ _ _ => [.token .printKeyword, .token .letKeyword, .endOfInput]

@[simp] theorem tokens_idle : idle.tokens = [] := rfl

theorem tokens_of_shift {stage stage' : Stage} {token : Token}
    (h : stage.shift token = some stage') : stage'.tokens = stage.tokens ++ [token] := by
  obtain ⟨kind,text,position⟩ := token
  cases stage <;> cases kind <;> cases h <;> rfl

theorem pending?_stage (c : Clause) : c.stage.pending? = some c := by
  cases c <;> rfl

theorem eq_stage_of_pending? {stage : Stage} {c : Clause} (h : stage.pending? = some c) :
    stage = c.stage := by
  cases stage <;> cases h <;> rfl

/-- Every stage on the way is the beginning of some clause. -/
theorem exists_completion {stage : Stage} (h : stage ≠ .idle) :
    ∃ (c : Clause) (rest : List Token), stage.tokens ++ rest = c.tokens := by
  let operand : Operand := .undefined ⟨"", .start⟩
  cases stage with
  | idle => exact absurd rfl h
  | printing keyword => exact ⟨.print keyword operand,[operand.token],rfl⟩
  | letting keyword =>
    let name : Lexeme .identifier := ⟨"", .start⟩
    exact ⟨.declare keyword name,[name.token],rfl⟩
  | naming keyword name => exact ⟨.declare keyword name,[],rfl⟩
  | assigning keyword name operator =>
    exact ⟨.define keyword name operator operand,[operand.token],rfl⟩
  | printed keyword operand => exact ⟨.print keyword operand,[],rfl⟩
  | assigned keyword name operator initializer =>
    exact ⟨.define keyword name operator initializer,[],rfl⟩

theorem ne_idle_of_shift {stage stage' : Stage} {token : Token}
    (h : stage.shift token = some stage') : stage' ≠ .idle := by
  rintro rfl
  have htokens := tokens_of_shift h
  simp at htokens

theorem end_mem_expects {stage : Stage} :
    .endOfInput ∈ stage.expects ↔ ∃ c, stage.pending? = some c := by
  cases stage <;> simp [expects, pending?]

theorem tokens_stage (c : Clause) : c.stage.tokens = c.tokens := by
  cases c <;> rfl

end Stage

/-- The clauses that have been read and the stage of the one at hand. -/
structure Scan where
  done : List Clause := []
  stage : Stage := .idle

namespace Scan

def tokens (s : Scan) : List Token := s.done.flatMap Clause.tokens ++ s.stage.tokens

/-- Reads a token, which may end the clause at hand and start the next. -/
def next (s : Scan) (token : Token) : Option Scan :=
  match s.stage.shift token with
  | some stage => some ⟨s.done, stage⟩
  | none => do
    let clause ← s.stage.pending?
    let stage ← Stage.idle.shift token
    return ⟨s.done ++ [clause], stage⟩

def all (tokens : List Token) : Option Scan := tokens.foldlM next {}

theorem next_cases {s s' : Scan} {token : Token} (h : s.next token = some s') :
    s'.done = s.done ∧ s.stage.shift token = some s'.stage ∨
      ∃ clause, s.stage.pending? = some clause ∧ s.stage.shift token = none ∧
        Stage.idle.shift token = some s'.stage ∧ s'.done = s.done ++ [clause] := by
  unfold next at h
  cases hs : s.stage.shift token with
  | some stage =>
    rw [hs] at h
    cases h
    exact Or.inl ⟨rfl,rfl⟩
  | none =>
    simp only [hs, bind, Option.bind_eq_some_iff, pure, Option.some.injEq] at h
    obtain ⟨clause,hc,stage,hi,rfl⟩ := h
    exact Or.inr ⟨clause,hc,rfl,hi,rfl⟩

theorem tokens_of_next {s s' : Scan} {token : Token} (h : s.next token = some s') :
    s'.tokens = s.tokens ++ [token] := by
  rcases next_cases h with ⟨hd,hs⟩ | ⟨clause,hc,_,hi,hd⟩
  · simp [tokens, hd, Stage.tokens_of_shift hs]
  · have hstage : s.stage.tokens = clause.tokens := by
      rw [Stage.eq_stage_of_pending? hc, Stage.tokens_stage]
    simp [tokens, hd, hstage, Stage.tokens_of_shift hi]

theorem tokens_of_foldlM {s s' : Scan} {tokens : List Token}
    (h : tokens.foldlM next s = some s') : s'.tokens = s.tokens ++ tokens := by
  induction tokens generalizing s with
  | nil =>
    cases h
    simp
  | cons token tokens ih =>
    simp only [List.foldlM_cons, bind, Option.bind_eq_some_iff] at h
    obtain ⟨mid,hn,hm⟩ := h
    rw [ih hm, tokens_of_next hn]
    simp

theorem tokens_of_all {s : Scan} {tokens : List Token} (h : all tokens = some s) :
    s.tokens = tokens := by
  simpa [Scan.tokens] using tokens_of_foldlM h

theorem token_mem_expects {s : Scan} {token : Token} :
    .token token.kind ∈ s.stage.expects ↔ ∃ s', s.next token = some s' := by
  obtain ⟨done,stage⟩ := s
  obtain ⟨kind,text,position⟩ := token
  cases stage <;> cases kind <;>
    simp [Stage.expects, next, Stage.shift, Stage.pending?, Operand.ofToken?]

theorem stage_ne_idle_of_next {s s' : Scan} {token : Token} (h : s.next token = some s') :
    s'.stage ≠ .idle := by
  rcases next_cases h with ⟨_,hs⟩ | ⟨_,_,_,hs,_⟩
  · exact Stage.ne_idle_of_shift hs
  · exact Stage.ne_idle_of_shift hs

theorem all_append (tokens rest : List Token) :
    all (tokens ++ rest) = (all tokens).bind (rest.foldlM next ·) := by
  unfold all
  rw [List.foldlM_append]
  rfl

/-- The clauses that are finished before a new one starts. -/
def closed? (s : Scan) : Option (List Clause) :=
  match s.stage with
  | .idle => some s.done
  | stage => stage.pending?.map (s.done ++ [·])

theorem closed?_stage (done : List Clause) (c : Clause) :
    closed? ⟨done, c.stage⟩ = some (done ++ [c]) := by
  cases c <;> rfl

theorem next_print {s : Scan} {before : List Clause} (h : s.closed? = some before)
    (keyword : Lexeme .printKeyword) : s.next keyword.token = some ⟨before, .printing keyword⟩ := by
  obtain ⟨done,stage⟩ := s
  cases stage <;> cases h <;> rfl

theorem next_let {s : Scan} {before : List Clause} (h : s.closed? = some before)
    (keyword : Lexeme .letKeyword) : s.next keyword.token = some ⟨before, .letting keyword⟩ := by
  obtain ⟨done,stage⟩ := s
  cases stage <;> cases h <;> rfl

theorem next_operand (done : List Clause) (operand : Operand) (keyword : Lexeme .printKeyword) :
    next ⟨done, .printing keyword⟩ operand.token = some ⟨done, .printed keyword operand⟩ := by
  simp [next, Stage.shift]

theorem next_initializer (done : List Clause) (initializer : Operand)
    (keyword : Lexeme .letKeyword) (name : Lexeme .identifier) (operator : Lexeme .assignOperator) :
    next ⟨done, .assigning keyword name operator⟩ initializer.token =
      some ⟨done, .assigned keyword name operator initializer⟩ := by
  simp [next, Stage.shift]

/-- A clause can be read wherever a new one may start. -/
theorem foldlM_clause {s : Scan} {before : List Clause} (h : s.closed? = some before)
    (c : Clause) : c.tokens.foldlM next s = some ⟨before, c.stage⟩ := by
  cases c with
  | print keyword operand =>
    simp only [Clause.tokens, List.foldlM_cons, List.foldlM_nil, next_print h]
    exact congrArg (· >>= pure) (next_operand before operand keyword)
  | declare keyword name =>
    simp only [Clause.tokens, List.foldlM_cons, List.foldlM_nil, next_let h]
    rfl
  | define keyword name operator initializer =>
    simp only [Clause.tokens, List.foldlM_cons, List.foldlM_nil, next_let h]
    exact congrArg (· >>= pure) (next_initializer before initializer keyword name operator)

theorem foldlM_clauses {s : Scan} {before : List Clause} (h : s.closed? = some before)
    (clauses : List Clause) (last : Clause) :
    (clauses.flatMap Clause.tokens ++ last.tokens).foldlM next s =
      some ⟨before ++ clauses, last.stage⟩ := by
  induction clauses generalizing s before with
  | nil => simpa using foldlM_clause h last
  | cons c clauses ih =>
    rw [List.flatMap_cons, List.append_assoc, List.foldlM_append, foldlM_clause h c]
    simpa using ih (closed?_stage before c)

theorem all_clauses (clauses : List Clause) (last : Clause) :
    all (clauses.flatMap Clause.tokens ++ last.tokens) = some ⟨clauses, last.stage⟩ := by
  exact foldlM_clauses (s := {}) rfl clauses last

end Scan

namespace Language

/-- What the tokens of a symbol are. -/
def Reads : Symbol → List Token → Prop
  | .terminal (.token kind), tokens => ∃ l : Lexeme kind, tokens = [l.token]
  | .terminal .endOfInput, _ => False
  | .nonTerminal .expr, tokens => ∃ o : Operand, tokens = [o.token]
  | .nonTerminal .stmt, tokens => ∃ c : Clause, tokens = c.tokens
  | .nonTerminal _, tokens => ∃ (clauses : List Clause) (last : Clause),
    tokens = clauses.flatMap Clause.tokens ++ last.tokens

theorem reads_rule {r : Rule} (hr : r ∈ grammar.productions) {tokens : List Token}
    (h : Splits Reads r.rhs tokens) : Reads (.nonTerminal r.lhs) tokens := by
  simp only [Grammar.productions, grammar, rules, List.map_cons, List.map_nil, List.mem_cons,
    List.not_mem_nil, or_false] at hr
  rcases hr with rfl | rfl | rfl | rfl | rfl | rfl | rfl | rfl | rfl | rfl
  · obtain ⟨_,_,rfl,⟨cs,last,rfl⟩,rfl⟩ := h
    exact ⟨cs,last,by simp⟩
  · obtain ⟨_,_,rfl,⟨cs,last,rfl⟩,rfl⟩ := h
    exact ⟨cs,last,by simp⟩
  · obtain ⟨_,_,rfl,⟨c,rfl⟩,rfl⟩ := h
    exact ⟨[],c,by simp⟩
  · obtain ⟨_,_,rfl,⟨cs,last,rfl⟩,_,_,rfl,⟨c,rfl⟩,rfl⟩ := h
    exact ⟨cs ++ [last],c,by simp⟩
  · obtain ⟨_,_,rfl,⟨keyword,rfl⟩,_,_,rfl,⟨operand,rfl⟩,rfl⟩ := h
    exact ⟨.print keyword operand,rfl⟩
  · obtain ⟨_,_,rfl,⟨keyword,rfl⟩,_,_,rfl,⟨name,rfl⟩,rfl⟩ := h
    exact ⟨.declare keyword name,rfl⟩
  · obtain ⟨_,_,rfl,⟨keyword,rfl⟩,_,_,rfl,⟨name,rfl⟩,_,_,rfl,⟨operator,rfl⟩,_,_,rfl,
      ⟨initializer,rfl⟩,rfl⟩ := h
    exact ⟨.define keyword name operator initializer,rfl⟩
  · obtain ⟨_,_,rfl,⟨literal,rfl⟩,rfl⟩ := h
    exact ⟨.text literal,rfl⟩
  · obtain ⟨_,_,rfl,⟨literal,rfl⟩,rfl⟩ := h
    exact ⟨.undefined literal,rfl⟩
  · obtain ⟨_,_,rfl,⟨identifier,rfl⟩,rfl⟩ := h
    exact ⟨.name identifier,rfl⟩

theorem derives_operand (o : Operand) :
    grammar.Derives [.nonTerminal .expr] [o.token.symbol] := by
  cases o with
  | text literal => exact Grammar.derives_rhs (r := ⟨.expr, [.token .stringLiteral]⟩) (by decide)
  | undefined literal =>
    exact Grammar.derives_rhs (r := ⟨.expr, [.token .undefinedLiteral]⟩) (by decide)
  | name identifier => exact Grammar.derives_rhs (r := ⟨.expr, [.token .identifier]⟩) (by decide)

theorem derives_clause (c : Clause) :
    grammar.Derives [.nonTerminal .stmt] (c.tokens.map Token.symbol) := by
  cases c with
  | print keyword operand =>
    have hrule := Grammar.derives_rhs (g := grammar)
      (r := ⟨.stmt, [.token .printKeyword, .nonTerminal .expr]⟩) (by decide)
    exact hrule.trans (Grammar.Derives.append_left (derives_operand operand) [.token .printKeyword])
  | declare keyword name =>
    exact Grammar.derives_rhs (r := ⟨.stmt, [.token .letKeyword, .token .identifier]⟩) (by decide)
  | define keyword name operator initializer =>
    have hrule := Grammar.derives_rhs (g := grammar) (r := ⟨.stmt, [.token .letKeyword,
      .token .identifier, .token .assignOperator, .nonTerminal .expr]⟩) (by decide)
    exact hrule.trans (Grammar.Derives.append_left (derives_operand initializer)
      [.token .letKeyword, .token .identifier, .token .assignOperator])

theorem derives_clauses (clauses : List Clause) (last : Clause) :
    grammar.Derives [.nonTerminal .stmtList]
      ((clauses.flatMap Clause.tokens ++ last.tokens).map Token.symbol) := by
  induction clauses using List.reverseRecOn generalizing last with
  | nil =>
    have hrule := Grammar.derives_rhs (g := grammar)
      (r := ⟨.stmtList, [.nonTerminal .stmt]⟩) (by decide)
    exact hrule.trans (derives_clause last)
  | append_singleton clauses c ih =>
    have hrule := Grammar.derives_rhs (g := grammar)
      (r := ⟨.stmtList, [.nonTerminal .stmtList, .nonTerminal .stmt]⟩) (by decide)
    have hparts := Grammar.Derives.append (ih c) (derives_clause last)
    simpa using hrule.trans hparts

/-- The sentences are the nonempty concatenations of clauses. -/
theorem sentence_iff {tokens : List Token} : grammar.Sentence (tokens.map Token.kind) ↔
    ∃ (clauses : List Clause) (last : Clause),
      tokens = clauses.flatMap Clause.tokens ++ last.tokens := by
  constructor
  · intro h
    obtain ⟨tree,rfl⟩ := Grammar.sentence_iff_exists_tree.mp h
    have hleaf : ∀ token : Token, Reads token.symbol [token] := fun token => ⟨⟨_,_⟩,rfl⟩
    exact tree.meaning hleaf fun r hr tokens => reads_rule hr
  · rintro ⟨clauses,last,rfl⟩
    have hrule := Grammar.derives_rhs (g := grammar)
      (r := ⟨.program, [.nonTerminal .stmtList]⟩) (by decide)
    rw [Grammar.Sentence, List.map_map]
    exact hrule.trans (derives_clauses clauses last)

section Legal
variable {tokens : List Token} {s : Scan} (h : Scan.all tokens = some s)
include h

theorem legal_token_iff {token : Token} :
    grammar.Legal (tokens.map Token.kind) (.token token.kind) ↔ ∃ s', s.next token = some s' := by
  constructor
  -- a sentence is read without getting stuck, so the stage takes what comes next in it
  · rintro ⟨rest,hrest⟩
    have hkinds : tokens.map Token.kind ++ token.kind :: rest =
        (tokens ++ token :: rest.map fun kind => ⟨kind, "", .start⟩).map Token.kind := by
      simp [Function.comp_def]
    rw [hkinds] at hrest
    obtain ⟨clauses,last,hc⟩ := sentence_iff.mp hrest
    have hall := Scan.all_clauses clauses last
    rw [← hc, Scan.all_append, h] at hall
    simp only [Option.bind_some, List.foldlM_cons, bind, Option.bind_eq_some_iff] at hall
    obtain ⟨s',hs',_⟩ := hall
    exact ⟨s',hs'⟩
  · rintro ⟨s',hs'⟩
    obtain ⟨c,rest,hc⟩ := Stage.exists_completion (Scan.stage_ne_idle_of_next hs')
    refine ⟨rest.map Token.kind,?_⟩
    have hkinds : tokens.map Token.kind ++ token.kind :: rest.map Token.kind =
        (tokens ++ [token] ++ rest).map Token.kind := by simp
    rw [hkinds]
    refine sentence_iff.mpr ⟨s'.done,c,?_⟩
    rw [← hc, ← Scan.tokens_of_all h, ← Scan.tokens_of_next hs', Scan.tokens, List.append_assoc]

theorem legal_end_iff :
    grammar.Legal (tokens.map Token.kind) .endOfInput ↔ ∃ c, s.stage.pending? = some c := by
  constructor
  · intro hs
    obtain ⟨clauses,last,rfl⟩ := sentence_iff.mp hs
    rw [Scan.all_clauses] at h
    cases h
    exact ⟨last,Stage.pending?_stage last⟩
  · rintro ⟨c,hc⟩
    refine sentence_iff.mpr ⟨s.done,c,?_⟩
    rw [← Stage.tokens_stage, ← Stage.eq_stage_of_pending? hc, ← Scan.tokens_of_all h]
    rfl

/-- What may legally follow tokens is what the stage reached with them expects. -/
theorem legal_iff {t : Terminal} :
    grammar.Legal (tokens.map Token.kind) t ↔ t ∈ s.stage.expects := by
  cases t with
  | token kind =>
    let token : Token := ⟨kind, "", .start⟩
    have htoken : .token token.kind ∈ s.stage.expects ↔ ∃ s', s.next token = some s' :=
      Scan.token_mem_expects
    exact (legal_token_iff h).trans htoken.symm
  | endOfInput => exact (legal_end_iff h).trans Stage.end_mem_expects.symm

end Legal

end Language

end LetPrint

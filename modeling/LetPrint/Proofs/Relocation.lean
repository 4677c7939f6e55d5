import LetPrint.Proofs.Clauses
import LetPrint.Proofs.Places

/-! # Texts at other places

A place is of no importance for what is read there: neither the tokens of a text nor the statements
of its clauses depend on it. So a map of places that goes along with the characters of a text takes
the stream of the text to the stream of the same text elsewhere, and its statements with it.
-/
namespace LetPrint

section Relocated
variable (f : Position → Position)

def Span.relocated (span : Span) : Span := ⟨f span.start, f span.stop⟩

def Token.relocated (t : Token) : Token := { t with position := f t.position }

def Error.relocated (e : Error) : Error := { e with position := e.position.map f }

def Feed.relocatedItem : Except Error Token → Except Error Token
  | .ok token => .ok (token.relocated f)
  | .error error => .error (error.relocated f)

def Expr.relocated : Expr → Expr
  | text content span => .text content (span.relocated f)
  | undefined span => .undefined (span.relocated f)
  | name identifier span => .name identifier (span.relocated f)

def Stmt.relocated : Stmt → Stmt
  | print operand span => .print (operand.relocated f) (span.relocated f)
  | bind identifier initializer span =>
    .bind identifier (initializer.map (Expr.relocated f)) (span.relocated f)

def Program.relocated (program : Program) : Program :=
  ⟨program.statements.map (Stmt.relocated f), program.span.relocated f⟩

def Lexeme.relocated {kind : Kind} (l : Lexeme kind) : Lexeme kind :=
  { l with position := f l.position }

def Operand.relocated : Operand → Operand
  | text literal => .text (literal.relocated f)
  | undefined literal => .undefined (literal.relocated f)
  | name identifier => .name (identifier.relocated f)

def Clause.relocated : Clause → Clause
  | print keyword operand => .print (keyword.relocated f) (operand.relocated f)
  | declare keyword name => .declare (keyword.relocated f) (name.relocated f)
  | define keyword name operator initializer =>
    .define (keyword.relocated f) (name.relocated f) (operator.relocated f)
      (initializer.relocated f)

theorem Expr.span_relocated (e : Expr) : (e.relocated f).span = e.span.relocated f := by
  cases e <;> rfl

theorem Stmt.span_relocated (s : Stmt) : (s.relocated f).span = s.span.relocated f := by
  cases s <;> rfl

theorem Operand.token_relocated (o : Operand) : (o.relocated f).token = o.token.relocated f := by
  cases o <;> rfl

theorem Operand.stray?_relocated (o : Operand) (env : Environment) :
    (o.relocated f).stray? env = (o.stray? env).map (Lexeme.relocated f) := by
  cases o with
  | text literal => rfl
  | undefined literal => rfl
  | name identifier =>
    by_cases hdeclared : env.isDeclared identifier.text = true
    · simp [relocated, stray?, Lexeme.relocated, hdeclared]
    · simp [relocated, stray?, Lexeme.relocated, hdeclared]

theorem Clause.tokens_relocated (c : Clause) :
    (c.relocated f).tokens = c.tokens.map (Token.relocated f) := by
  cases c with
  | print keyword operand =>
    simp only [relocated, tokens, Operand.token_relocated, List.map_cons, List.map_nil]
    rfl
  | declare keyword name => rfl
  | define keyword name operator initializer =>
    simp only [relocated, tokens, Operand.token_relocated, List.map_cons, List.map_nil]
    rfl

theorem Clause.stray?_relocated (c : Clause) (env : Environment) :
    (c.relocated f).stray? env = (c.stray? env).map (Lexeme.relocated f) := by
  cases c with
  | print keyword operand => exact operand.stray?_relocated f env
  | declare keyword name => rfl
  | define keyword name operator initializer => exact initializer.stray?_relocated f env

theorem Clause.declareIn_relocated (env : Environment) (c : Clause) :
    declareIn env (c.relocated f) = declareIn env c := by
  cases c <;> rfl

theorem Clause.foldl_relocated (env : Environment) (clauses : List Clause) :
    (clauses.map (relocated f)).foldl declareIn env = clauses.foldl declareIn env := by
  simp only [List.foldl_map, declareIn_relocated]

end Relocated

section Along
variable {f : Position → Position}

/-- A map of places goes along with the characters of a text from a place on. -/
def Position.Carried (f : Position → Position) (p : Position) (text : List Char) : Prop :=
  ∀ front, front <+: text → f (p.advance front) = (f p).advance front

theorem Position.Carried.advance {p : Position} (front : List Char) {rest : List Char}
    (h : p.Carried f (front ++ rest)) : (p.advance front).Carried f rest := by
  intro more hmore
  have hfront := h front (List.prefix_append front rest)
  have hboth := h (front ++ more) ((List.prefix_append_right_inj front).mpr hmore)
  rw [hfront, ← advance_append, ← advance_append, hboth]

theorem Position.Carried.left {p : Position} {front rest : List Char}
    (h : p.Carried f (front ++ rest)) : p.Carried f front :=
  fun less hless => h less (hless.trans (List.prefix_append front rest))

theorem Token.span_relocated {t : Token} (h : t.position.Carried f t.text.toList) :
    (t.relocated f).span = t.span.relocated f := by
  have hstop := h t.text.toList List.prefix_rfl
  exact congrArg (Span.mk (f t.position)) hstop.symm

theorem Operand.expr_relocated {o : Operand}
    (h : o.token.position.Carried f o.token.text.toList) :
    (o.relocated f).expr = o.expr.relocated f := by
  have hspan := Token.span_relocated h
  cases o with
  | text literal => exact congrArg (Expr.text _) hspan
  | undefined literal => exact congrArg Expr.undefined hspan
  | name identifier => exact congrArg (Expr.name _) hspan

theorem Clause.stmt_relocated {c : Clause}
    (h : ∀ t ∈ c.tokens, t.position.Carried f t.text.toList) :
    (c.relocated f).stmt = c.stmt.relocated f := by
  cases c with
  | print keyword operand =>
    have hoperand := Operand.expr_relocated (h operand.token (by simp [tokens]))
    simp only [relocated, stmt, hoperand, Expr.span_relocated]
    rfl
  | declare keyword name =>
    have hspan := Token.span_relocated (h name.token (by simp [tokens]))
    have hstop := congrArg Span.stop hspan
    exact congrArg (fun stop => Stmt.bind name.text none ⟨f keyword.position, stop⟩) hstop
  | define keyword name operator initializer =>
    have hinitializer := Operand.expr_relocated (h initializer.token (by simp [tokens]))
    simp only [relocated, stmt, hinitializer, Expr.span_relocated]
    rfl

namespace Scanner

theorem scanFrom_relocated {position : Position} {text : List Char}
    (h : position.Carried f text) :
    scanFrom (f position) text = (scanFrom position text).map (Feed.relocatedItem f) := by
  fun_induction scanFrom position text with
  | case1 =>
    rw [scanFrom]
    rfl
  | case2 position c cs hspace ih =>
    have hstep : f (position.step c) = (f position).step c := h [c] (List.prefix_append [c] cs)
    rw [scanFrom, if_pos hspace, ← hstep]
    exact ih (h.advance [c])
  | case3 position c cs hspace htoken =>
    rw [scanFrom_of_none _ hspace htoken]
    rfl
  | case4 position c cs hspace kind chars htoken ih =>
    obtain ⟨rest,hrest,_,hscan⟩ := scanFrom_of_token? (f position) htoken
    rw [hrest] at h
    rw [hrest, List.drop_left] at ih
    rw [hscan, ← h chars (List.prefix_append chars rest), ih (h.advance chars), hrest,
      List.drop_left]
    rfl

end Scanner

end Along

end LetPrint

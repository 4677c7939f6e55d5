import LetPrint.Proofs.LineBreaks
import LetPrint.Proofs.SourceOrder

/-! # Runs of joined sources

Two sources that run one after the other can be run as one, with a line break between them. The
clauses of the second are the same at other places, and places decide neither scope nor values. That
all names of both sources are declared before the first statement runs makes no difference: a
statement reads values only, and binds names that its own parse has declared.
-/
namespace LetPrint

section Moved
variable (lines bytes : ℕ)

def Lexeme.moved {kind : Kind} (l : Lexeme kind) : Lexeme kind :=
  { l with position := l.position.moved lines bytes }

def Operand.moved : Operand → Operand
  | text literal => .text (literal.moved lines bytes)
  | undefined literal => .undefined (literal.moved lines bytes)
  | name identifier => .name (identifier.moved lines bytes)

def Clause.moved : Clause → Clause
  | print keyword operand => .print (keyword.moved lines bytes) (operand.moved lines bytes)
  | declare keyword name => .declare (keyword.moved lines bytes) (name.moved lines bytes)
  | define keyword name operator initializer =>
    .define (keyword.moved lines bytes) (name.moved lines bytes) (operator.moved lines bytes)
      (initializer.moved lines bytes)

theorem Operand.moved_eq (o : Operand) :
    o.moved lines bytes = o.relocated (Position.moved lines bytes) := by
  cases o <;> rfl

theorem Operand.value?_moved (o : Operand) (values : String → Option Value) :
    (o.moved lines bytes).expr.value? values = o.expr.value? values := by
  cases o <;> rfl

namespace Clause

theorem moved_eq (c : Clause) :
    c.moved lines bytes = c.relocated (Position.moved lines bytes) := by
  cases c with
  | print keyword operand => exact congrArg (print _) (operand.moved_eq lines bytes)
  | declare keyword name => rfl
  | define keyword name operator initializer =>
    exact congrArg (define _ _ _) (initializer.moved_eq lines bytes)

theorem tokens_moved (c : Clause) :
    (c.moved lines bytes).tokens = c.tokens.map (Token.moved lines bytes) := by
  rw [moved_eq]
  exact c.tokens_relocated (Position.moved lines bytes)

theorem stray?_moved (c : Clause) (env : Environment) :
    (c.moved lines bytes).stray? env = none ↔ c.stray? env = none := by
  rw [moved_eq, stray?_relocated, Option.map_eq_none_iff]

theorem foldl_moved (env : Environment) (clauses : List Clause) :
    (clauses.map (moved lines bytes)).foldl declareIn env = clauses.foldl declareIn env := by
  rw [List.map_congr_left fun c _ => moved_eq lines bytes c, foldl_relocated]

theorem scoped_moved {env : Environment} {clauses : List Clause} :
    Scoped env (clauses.map (moved lines bytes)) ↔ Scoped env clauses := by
  induction clauses using List.reverseRecOn with
  | nil => exact Iff.rfl
  | append_singleton clauses c ih =>
    rw [List.map_append, List.map_singleton, scoped_concat, scoped_concat, ih, foldl_moved,
      stray?_moved]

theorem items_moved (clauses : List Clause) :
    ((clauses.flatMap tokens).map Except.ok).map (Feed.movedItem lines bytes) =
      ((clauses.map (moved lines bytes)).flatMap tokens).map .ok := by
  induction clauses with
  | nil => rfl
  | cons c clauses ih =>
    simp only [List.flatMap_cons, List.map_append, List.map_cons, tokens_moved, ih]
    simp [Feed.movedItem]

end Clause

end Moved

theorem Clause.scoped_append {env : Environment} {front back : List Clause} :
    Scoped env (front ++ back) ↔ Scoped env front ∧ Scoped (front.foldl declareIn env) back := by
  induction back using List.reverseRecOn with
  | nil => simp [scoped_nil]
  | append_singleton back c ih =>
    rw [← List.append_assoc, scoped_concat, scoped_concat, ih, List.foldl_append, and_assoc]

theorem Clause.scoped_congr {env other : Environment} (h : env.declared = other.declared)
    {clauses : List Clause} : Scoped env clauses ↔ Scoped other clauses := by
  simp only [Scoped, h]

theorem Clause.declared_foldl_congr {env other : Environment} (h : env.declared = other.declared)
    (clauses : List Clause) :
    (clauses.foldl declareIn env).declared = (clauses.foldl declareIn other).declared := by
  induction clauses generalizing env other with
  | nil => exact h
  | cons c clauses ih =>
    refine ih ?_
    unfold declareIn
    cases c.binder? with
    | none => exact h
    | some name => exact congrArg (Environment.addName name) h

/-- Two statements that do the same, wherever they stand. -/
inductive Stmt.Alike : Stmt → Stmt → Prop
  | print {e e' : Expr} (span span' : Span) (h : ∀ values, e.value? values = e'.value? values) :
    Alike (.print e span) (.print e' span')
  | bind (identifier : String) {i i' : Option Expr} (span span' : Span)
    (h : ∀ values, Expr.initial? values i = Expr.initial? values i') :
    Alike (.bind identifier i span) (.bind identifier i' span')

theorem Stmt.Alike.refl (stmt : Stmt) : stmt.Alike stmt := by
  cases stmt with
  | print operand span => exact .print span span fun _ => rfl
  | bind identifier initializer span => exact .bind identifier span span fun _ => rfl

theorem Clause.stmt_moved (lines bytes : ℕ) (c : Clause) :
    c.stmt.Alike (c.moved lines bytes).stmt := by
  cases c with
  | print keyword operand =>
    exact .print _ _ fun values => (operand.value?_moved lines bytes values).symm
  | declare keyword name => exact .bind _ _ _ fun _ => rfl
  | define keyword name operator initializer =>
    exact .bind _ _ _ fun values => (initializer.value?_moved lines bytes values).symm

theorem Sink.written_of_writeLine {sink sink' : Sink} {value : Value}
    (h : sink.writeLine value.render = (.ok (), sink')) :
    sink'.written = sink.written ++ value.line := by
  cases hroom : sink.room with
  | none =>
    rw [writeLine_of_room_eq_none hroom] at h
    cases h
    rfl
  | some room =>
    simp only [writeLine, writeBytes, hroom] at h
    split_ifs at h with hfits
    · cases h
      simp [List.take_of_length_le hfits, Value.line]
    · cases h

theorem Environment.bind_of_mem {env : Environment} {name : String} (h : name ∈ env.declared)
    (value : Value) : env.bind name value = ⟨env.declared, putValue name value env.bindings⟩ := by
  simp [bind, addName, h]

theorem Environment.value?_congr {env other : Environment} (h : env.bindings = other.bindings) :
    env.value? = other.value? := by
  funext name
  rw [value?, value?, h]

namespace Stmt

theorem exec_print {m : Machine} {operand : Expr} {value : Value} (span : Span)
    (hvalue : operand.value? m.env.value? = some value) (hroom : m.sink.room = none) :
    ((print operand span).exec m).value = (.ok .undefined,
      { m with sink := { m.sink with written := m.sink.written ++ value.line } }) := by
  rcases operand.eval_cases m.env with ⟨found,hfound,heval⟩ | ⟨identifier,_,rfl,hnone,_⟩
  · rw [hvalue] at hfound
    cases hfound
    simp [exec, heval, Machine.print, Sink.writeLine_of_room_eq_none hroom]
  · rw [Expr.value?, hnone] at hvalue
    cases hvalue

theorem exec_bind {m : Machine} {initializer : Option Expr} {value : Value} (identifier : String)
    (span : Span) (hvalue : Expr.initial? m.env.value? initializer = some value) :
    ((bind identifier initializer span).exec m).value =
      (.ok .undefined, { m with env := m.env.bind identifier value }) := by
  have hdoes := does_bind m identifier initializer span
  generalize ((bind identifier initializer span).exec m).value = outcome at hdoes ⊢
  cases hdoes with
  | unbound hoperand hnone =>
    obtain rfl : initializer = _ := hoperand
    rw [Expr.initial?, Expr.value?, hnone] at hvalue
    cases hvalue
  | bind hfound =>
    rw [hvalue] at hfound
    cases hfound
    rfl

/-- A statement that succeeds does the same on other machines with the same values, if they have its
name declared and take all output. -/
theorem Alike.exec {stmt other : Stmt} (h : stmt.Alike other) {m mid : Machine} {result : Value}
    (hexec : (stmt.exec m).value = (.ok result, mid)) {env : Environment} {sink : Sink}
    (hbindings : env.bindings = m.env.bindings)
    (hdeclared : ∀ name, stmt.binder? = some name → name ∈ m.env.declared ∧ name ∈ env.declared)
    (hroom : sink.room = none) : ∃ output, mid.sink.written = m.sink.written ++ output ∧
      mid.env.declared = m.env.declared ∧ (other.exec ⟨env, sink⟩).value = (.ok .undefined,
        ⟨⟨env.declared, mid.env.bindings⟩, { sink with written := sink.written ++ output }⟩) := by
  have hvalues := Environment.value?_congr hbindings
  have hdoes := stmt.does_exec m
  rw [hexec] at hdoes
  cases hdoes with
  | @print operand span value sink' hvalue hline =>
    cases h with
    | @print _ operand' _ span' halike =>
      rw [halike, ← hvalues] at hvalue
      refine ⟨value.line,Sink.written_of_writeLine hline,rfl,?_⟩
      rw [exec_print (m := ⟨env, sink⟩) span' hvalue hroom, ← hbindings]
  | @bind identifier initializer span value hvalue =>
    cases h with
    | @bind _ _ initializer' _ span' halike =>
      rw [halike, ← hvalues] at hvalue
      obtain ⟨hm,henv⟩ := hdeclared identifier rfl
      refine ⟨[],(List.append_nil _).symm,?_,?_⟩
      · rw [Environment.bind_of_mem hm]
      · rw [exec_bind (m := ⟨env, sink⟩) identifier span' hvalue, Environment.bind_of_mem henv,
          Environment.bind_of_mem hm, hbindings, List.append_nil]

end Stmt

theorem execAll_alike {statements others : List Stmt}
    (h : List.Forall₂ Stmt.Alike statements others) {m m' : Machine}
    (hexec : (execAll m statements).value = (.ok (), m')) {env : Environment} {sink : Sink}
    (hbindings : env.bindings = m.env.bindings)
    (hdeclared : ∀ stmt ∈ statements, ∀ name, stmt.binder? = some name →
      name ∈ m.env.declared ∧ name ∈ env.declared)
    (hroom : sink.room = none) : ∃ output, m'.sink.written = m.sink.written ++ output ∧
      m'.env.declared = m.env.declared ∧ (execAll ⟨env, sink⟩ others).value = (.ok (),
        ⟨⟨env.declared, m'.env.bindings⟩, { sink with written := sink.written ++ output }⟩) := by
  induction h generalizing m env sink with
  | nil =>
    cases hexec
    refine ⟨[],(List.append_nil _).symm,rfl,?_⟩
    rw [← hbindings, List.append_nil]
    rfl
  | @cons stmt other statements others halike _ ih =>
    rw [value_execAll_cons] at hexec
    cases hs : (stmt.exec m).value with
    | mk result mid =>
      rw [hs] at hexec
      cases result with
      | error e => cases hexec
      | ok result =>
        obtain ⟨output,hwritten,hmid,hother⟩ := halike.exec hs hbindings
          (hdeclared stmt List.mem_cons_self) hroom
        have hsame : (Environment.mk env.declared mid.env.bindings).bindings =
            mid.env.bindings := rfl
        have hnames : ∀ later ∈ statements, ∀ name, later.binder? = some name →
            name ∈ mid.env.declared ∧ name ∈ env.declared := by
          intro later hmem
          rw [hmid]
          exact hdeclared later (List.mem_cons_of_mem stmt hmem)
        have hfree : { sink with written := sink.written ++ output }.room = none := hroom
        obtain ⟨more,hmore,hlast,hothers⟩ := ih hexec hsame hnames hfree
        refine ⟨output ++ more,?_,hlast.trans hmid,?_⟩
        · rw [hmore, hwritten, List.append_assoc]
        · rw [value_execAll_cons, hother, ← List.append_assoc]
          exact hothers

/-- The statements of clauses that succeed where their clauses are declared succeed where more is
declared, with the same output and bindings. -/
theorem Clause.execAll_stmts {clauses : List Clause} {others : List Stmt}
    (h : List.Forall₂ Stmt.Alike (clauses.map stmt) others) {base env : Environment}
    {written sink : Sink} {m' : Machine}
    (hexec : (execAll ⟨clauses.foldl declareIn base, written⟩ (clauses.map stmt)).value =
      (.ok (), m')) (hbindings : env.bindings = base.bindings)
    (hdeclared : (clauses.foldl declareIn base).declared ⊆ env.declared)
    (hroom : sink.room = none) : ∃ output, m'.sink.written = written.written ++ output ∧
      m'.env.declared = (clauses.foldl declareIn base).declared ∧
      (execAll ⟨env, sink⟩ others).value = (.ok (),
        ⟨⟨env.declared, m'.env.bindings⟩, { sink with written := sink.written ++ output }⟩) := by
  refine execAll_alike h hexec (hbindings.trans (bindings_foldl clauses).symm) ?_ hroom
  intro stmt hmem name hbinder
  obtain ⟨c,hc,rfl⟩ := List.mem_map.mp hmem
  rw [binder?_stmt] at hbinder
  have hname : name ∈ (clauses.foldl declareIn base).declared :=
    mem_declared_foldl.mpr (Or.inr ⟨c,hc,hbinder⟩)
  exact ⟨hname,hdeclared hname⟩

theorem execAll_append {front : List Stmt} (back : List Stmt) {m mid : Machine}
    (h : (execAll m front).value = (.ok (), mid)) :
    (execAll m (front ++ back)).value = (execAll mid back).value := by
  induction front generalizing m with
  | nil =>
    cases h
    rfl
  | cons stmt front ih =>
    rw [value_execAll_cons] at h
    rw [List.cons_append, value_execAll_cons]
    cases hs : (stmt.exec m).value with
    | mk result next =>
      rw [hs] at h
      cases result with
      | error e => cases h
      | ok value => exact ih h

/-- The statements of two lists of clauses, the second moved, run as one list. -/
theorem Clause.execAll_joined (lines bytes : ℕ) {front back : List Clause} {env : Environment}
    {first second sink : Sink} {mid last : Machine}
    (hfront : (execAll ⟨front.foldl declareIn env, first⟩ (front.map stmt)).value = (.ok (), mid))
    (hback : (execAll ⟨back.foldl declareIn mid.env, second⟩ (back.map stmt)).value =
      (.ok (), last))
    (hroom : sink.room = none) :
    mid.env.declared = (front.foldl declareIn env).declared ∧ ∃ output more,
      mid.sink.written = first.written ++ output ∧ last.sink.written = second.written ++ more ∧
      (execAll ⟨(front ++ back.map (moved lines bytes)).foldl declareIn env, sink⟩
        ((front ++ back.map (moved lines bytes)).map stmt)).value =
          (.ok (), ⟨last.env, { sink with written := sink.written ++ (output ++ more) }⟩) := by
  have hself : List.Forall₂ Stmt.Alike (front.map stmt) (front.map stmt) :=
    List.forall₂_same.mpr fun stmt _ => .refl stmt
  have hmoved : List.Forall₂ Stmt.Alike (back.map stmt)
      ((back.map (moved lines bytes)).map stmt) := by
    rw [List.map_map, List.forall₂_map_left_iff, List.forall₂_map_right_iff]
    exact List.forall₂_same.mpr fun c _ => c.stmt_moved lines bytes
  let base := front.foldl declareIn env
  let all := back.foldl declareIn base
  -- the first part runs with the names of the second declared already
  have hmore : base.declared ⊆ all.declared := fun name hname =>
    mem_declared_foldl.mpr (Or.inl hname)
  obtain ⟨output,hwritten,hdeclared,hfirst⟩ := execAll_stmts hself hfront
    ((bindings_foldl back).trans (bindings_foldl front)) hmore hroom
  have hsame : (back.foldl declareIn mid.env).declared = all.declared :=
    declared_foldl_congr hdeclared back
  have hbindings : (Environment.mk all.declared mid.env.bindings).bindings = mid.env.bindings := rfl
  have hsubset : (back.foldl declareIn mid.env).declared ⊆
      (Environment.mk all.declared mid.env.bindings).declared := by
    rw [hsame]
    exact List.Subset.refl _
  have hfree : { sink with written := sink.written ++ output }.room = none := hroom
  obtain ⟨more,hwritten',hdeclared',hsecond⟩ := execAll_stmts hmoved hback hbindings hsubset hfree
  have hlast : Environment.mk all.declared last.env.bindings = last.env := by
    rw [← hsame, ← hdeclared']
  refine ⟨hdeclared,output,more,hwritten,hwritten',?_⟩
  rw [List.foldl_append, foldl_moved, List.map_append, execAll_append _ hfirst, hsecond, hlast,
    List.append_assoc]

namespace Session
variable {s : Session} {source : String} {sink : Sink} {clauses : List Clause}

/-- What a run that succeeds has read and done. -/
theorem clauses_of_run_ok {after : Session} {sink' : Sink}
    (h : (s.run source sink).value = (.ok (), after, sink')) : ∃ clauses last,
      clauses ≠ [] ∧ Scanner.scan source = (clauses.flatMap Clause.tokens).map .ok ∧
      Clause.Scoped s.env clauses ∧
      (execAll ⟨clauses.foldl Clause.declareIn s.env, sink⟩ (clauses.map Clause.stmt)).value =
        (.ok (), last) ∧ after = ⟨last.env, true, true⟩ ∧
      sink' = { last.sink with flushes := last.sink.flushes + 1 } := by
  cases hparse : (s.parseSource source).value with
  | mk result parsed =>
    cases result with
    | error e =>
      rw [run_of_parse_error hparse] at h
      cases h
    | ok program =>
      obtain ⟨clauses,hscan,hscoped,hstatements,hparsed⟩ := clauses_of_parseSource hparse
      obtain ⟨last,hlast,rfl,rfl⟩ := execAll_of_run_ok hparse h
      have hne : clauses ≠ [] := by
        rintro rfl
        have hread := (parse_of_parseSource hparse).1
        rw [Lexer.feed, Lexer.scan_languageRules, hscan, Language.value_parse_reader] at hread
        cases hread
      rw [hstatements, hparsed] at hlast
      refine ⟨clauses,last,hne,hscan,hscoped,hlast,?_,rfl⟩
      rw [(parse_of_parseSource hparse).2]

/-- Clauses in scope whose statements succeed make up a source whose run succeeds. -/
theorem run_of_clauses {last : Machine} (hne : clauses ≠ [])
    (hscan : Scanner.scan source = (clauses.flatMap Clause.tokens).map .ok)
    (hscoped : Clause.Scoped s.env clauses)
    (hexec : (execAll ⟨clauses.foldl Clause.declareIn s.env, sink⟩
      (clauses.map Clause.stmt)).value = (.ok (), last)) (hflush : last.sink.flushFails = false) :
    (s.run source sink).value = (.ok (), ⟨last.env, true, true⟩,
      { last.sink with flushes := last.sink.flushes + 1 }) := by
  have hread : (Language.reader.parse (Lexer.feed ⟨Lexer.languageRules⟩ source) s.env).value =
      (.ok ⟨clauses.map Clause.stmt, Phrase.spanOf (clauses.map Clause.stmt)⟩,
        clauses.foldl Clause.declareIn s.env) := by
    rw [Lexer.feed, Lexer.scan_languageRules, hscan, Language.value_parse_reader,
      Scan.outcome_of_scoped hne hscoped]
    rfl
  cases hparse : (s.parseSource source).value with
  | mk result parsed =>
    obtain ⟨hread',hparsed⟩ := parse_of_parseSource hparse
    rw [hread] at hread'
    obtain ⟨rfl,henv⟩ := Prod.mk.inj hread'
    have hflushed : last.sink.flush = .ok () := by simp [Sink.flush, hflush]
    rw [run_of_parse_ok hparse, ← henv, hparsed]
    simp [execute, Program.exec, hexec, Sink.flushAfter, hflushed]

/-- A source that succeeds and a source that succeeds after it run as one with a line break between
them: the output is that of both, and so is the environment in the end. -/
theorem run_joined (s : Session) (a b : String) (first second sink : Sink) (hroom : sink.room = none)
    (hflush : sink.flushFails = false) {mid after : Session} {first' second' : Sink}
    (ha : (s.run a first).value = (.ok (), mid, first'))
    (hb : (mid.run b second).value = (.ok (), after, second')) : ∃ output more,
      first'.written = first.written ++ output ∧ second'.written = second.written ++ more ∧
      (s.run (a ++ "\n" ++ b) sink).value = (.ok (), after, { sink with
        written := sink.written ++ (output ++ more), flushes := sink.flushes + 1 }) := by
  obtain ⟨front,midway,hne,hscan,hscoped,hexec,rfl,rfl⟩ := clauses_of_run_ok ha
  obtain ⟨back,last,_,hscan',hscoped',hexec',rfl,rfl⟩ := clauses_of_run_ok hb
  obtain ⟨hdeclared,output,more,hwritten,hwritten',hall⟩ := Clause.execAll_joined
    (a.toList.count '\n' + 1) (a.utf8ByteSize + 1) hexec hexec' hroom
  refine ⟨output,more,hwritten,hwritten',run_of_clauses ?_ ?_ ?_ hall hflush⟩
  · simp [hne]
  · have hclean : ∀ e, .error e ∉ Scanner.scan a := by
      intro e he
      rw [hscan] at he
      simp at he
    rw [Scanner.scan_append_newline b hclean, hscan, hscan', Clause.items_moved, ← List.map_append,
      List.flatMap_append]
  · have hsecond := (Clause.scoped_congr hdeclared).mp hscoped'
    exact Clause.scoped_append.mpr ⟨hscoped,(Clause.scoped_moved _ _).mpr hsecond⟩

/-- The first source ends in a bare declaration, and the second one prints what it has declared. -/
theorem run_joined_declaration : ∃ (mid after : Session) (first second : Sink),
    (run {} "let x = 'a' print x let y" {}).value = (.ok (), mid, first) ∧
    (mid.run "print y print x" {}).value = (.ok (), after, second) ∧
    first.written = Text.bytes "a\n".toList ∧
    second.written = Text.bytes "undefined\na\n".toList ∧
    ∃ output more, first.written = output ∧ second.written = more ∧
      (run {} ("let x = 'a' print x let y" ++ "\n" ++ "print y print x") {}).value =
        (.ok (), after, { written := output ++ more, flushes := 1 }) := by
  let env : Environment := ⟨["x", "y"], [("x", .text "a"), ("y", .undefined)]⟩
  have ha : (run {} "let x = 'a' print x let y" {}).value =
      (.ok (), ⟨env, true, true⟩, { written := Text.bytes "a\n".toList, flushes := 1 }) := by
    decide +kernel
  have hb : (run ⟨env, true, true⟩ "print y print x" {}).value = (.ok (), ⟨env, true, true⟩,
      { written := Text.bytes "undefined\na\n".toList, flushes := 1 }) := by decide +kernel
  exact ⟨_,_,_,_,ha,hb,rfl,rfl,run_joined {} _ _ {} {} {} rfl rfl ha hb⟩

end Session

end LetPrint

import LetPrint.Session
import LetPrint.Proofs.Declarations
import LetPrint.Proofs.Execution
import LetPrint.Proofs.Scanner
import LetPrint.Proofs.Scoping

/-! # Runs of a session

A run parses first and then evaluates. A failed parse leaves the environment and the sink as they
were. A failed evaluation keeps the bindings that were made before it, and of the declarations those
that are old or bound.
-/
namespace LetPrint

theorem Scan.exists_tokens_of_outcome {s : Scan} {env after : Environment}
    {items : List (Except Error Token)} {value : Fragment}
    (h : s.outcome env items = (.accepted value, after)) :
    ∃ tokens : List Token, items = tokens.map .ok := by
  induction items generalizing s with
  | nil => exact ⟨[],rfl⟩
  | cons item rest ih =>
    cases item with
    | error e => cases h
    | ok token =>
      rw [outcome] at h
      split at h
      · cases h
      · cases h
      · obtain ⟨tokens,rfl⟩ := ih h
        exact ⟨token :: tokens,rfl⟩

namespace Clause

theorem value?_foldl (env : Environment) (clauses : List Clause) :
    (clauses.foldl declareIn env).value? = env.value? := by
  funext name
  unfold Environment.value?
  rw [bindings_foldl]

theorem isBound_foldl (env : Environment) (clauses : List Clause) (name : String) :
    (clauses.foldl declareIn env).isBound name = env.isBound name := by
  unfold Environment.isBound
  rw [value?_foldl]

theorem sound_foldl {env : Environment} (h : env.Sound) (clauses : List Clause) :
    (clauses.foldl declareIn env).Sound := by
  intro name hname
  rw [isBound_foldl] at hname
  exact mem_declared_foldl.mpr (Or.inl (h name hname))

@[simp] theorem binder?_stmt (c : Clause) : c.stmt.binder? = c.binder? := by
  cases c <;> rfl

/-- A statement that evaluates a name comes from a clause that refers to it. -/
theorem use?_of_operand? {c : Clause} {identifier : String} {span : Span}
    (h : c.stmt.operand? = some (.name identifier span)) :
    ∃ lexeme, c.use? = some lexeme ∧ lexeme.text = identifier := by
  cases c with
  | print keyword operand =>
    cases operand <;> cases h
    exact ⟨_,rfl,rfl⟩
  | declare keyword name => cases h
  | define keyword name operator initializer =>
    cases initializer <;> cases h
    exact ⟨_,rfl,rfl⟩

end Clause

namespace Language

/-- What a parse that succeeds has read, and what it leaves behind. -/
theorem clauses_of_parse {items : List (Except Error Token)} {announced : Bool}
    {env after : Environment} {program : Program}
    (h : (reader.parse ⟨items, announced⟩ env).value = (.ok program, after)) :
    ∃ clauses, items = (clauses.flatMap Clause.tokens).map .ok ∧ Clause.Scoped env clauses ∧
      program.statements = clauses.map Clause.stmt ∧ after = clauses.foldl Clause.declareIn env := by
  rw [value_parse_reader] at h
  cases hout : Scan.outcome env {} items with
  | mk outcome reached =>
    rw [hout] at h
    cases outcome with
    | failed error => cases h
    | stalled => cases h
    | accepted value =>
      obtain ⟨tokens,rfl⟩ := Scan.exists_tokens_of_outcome hout
      obtain ⟨clauses,hne,htokens,hscoped⟩ := Scan.scoped_of_outcome Clause.scoped_nil hout
      have htokens : tokens = clauses.flatMap Clause.tokens := htokens
      rw [htokens, Scan.outcome_of_scoped hne hscoped] at hout
      cases hout
      cases h
      exact ⟨clauses,by rw [htokens],hscoped,rfl,rfl⟩

end Language

namespace Session
variable {s parsed : Session} {source : String} {sink : Sink} {program : Program}

theorem value_keep {α : Type} {built : Traced (Except Error α)} {made : α}
    (h : built.value = .ok made) (kept : Session) (ready : Bool) :
    (s.keep kept ready built).value = (.ok made, kept) := by
  unfold keep
  rw [h]

theorem value_parser_eq (s : Session) :
    s.parser.value = (.ok Language.reader, { s with parserReady := true }) :=
  value_keep Language.parser_value _ _

theorem value_lexer_eq (s : Session) :
    s.lexer.value = (.ok ⟨Lexer.languageRules⟩, { s with lexerReady := true }) :=
  value_keep Lexer.language_value _ _

theorem parse_of_parseSource {result : Except Error Program}
    (h : (s.parseSource source).value = (result, parsed)) :
    (Language.reader.parse (Lexer.feed ⟨Lexer.languageRules⟩ source) s.env).value =
      (result, parsed.env) ∧ parsed = ⟨parsed.env, true, true⟩ := by
  rw [parseSource, Traced.value_bind, value_parser_eq, Traced.value_bind, value_lexer_eq,
    Traced.value_bind] at h
  generalize (Language.reader.parse (Lexer.feed ⟨Lexer.languageRules⟩ source) s.env).value = r at h ⊢
  cases h
  exact ⟨rfl,rfl⟩

/-- A run goes on from where parsing the source alone would end. -/
theorem value_run (s : Session) (source : String) (sink : Sink) {result : Except Error Program}
    (h : (s.parseSource source).value = (result, parsed)) :
    (s.run source sink).value = (resume ⟨s.env, true, true⟩ sink (result, parsed.env)).value := by
  rw [← (parse_of_parseSource h).1, run, Traced.value_bind, value_lexer_eq, Traced.value_bind,
    value_parser_eq, Traced.value_bind]

theorem run_of_parse_error {e : Error} (h : (s.parseSource source).value = (.error e, parsed)) :
    (s.run source sink).value = (.error e, parsed, sink) := by
  rw [value_run s source sink h, (parse_of_parseSource h).2]
  rfl

theorem run_of_parse_ok (h : (s.parseSource source).value = (.ok program, parsed)) :
    (s.run source sink).value =
      match (execute parsed.env s.env.checkpoint program sink).value with
      | (result, m) => (result, { parsed with env := m.env }, m.sink) := by
  rw [value_run s source sink h, (parse_of_parseSource h).2]
  rfl

theorem env_of_parseSource_error {e : Error} (hs : s.env.Sound)
    (h : (s.parseSource source).value = (.error e, parsed)) : parsed.env = s.env := by
  have hparse := (parse_of_parseSource h).1
  have hdeclares : ∀ n, (Language.reader.reduction n).Declares :=
    fun n => Reduction.declares_of_phrase (phraseReductions_cases _ n)
  have herror := congrArg Prod.fst hparse
  have henv := Parser.env_of_parse_error (p := Language.reader) hdeclares hs herror
  rw [hparse] at henv
  exact henv

theorem clauses_of_parseSource (h : (s.parseSource source).value = (.ok program, parsed)) :
    ∃ clauses, Scanner.scan source = (clauses.flatMap Clause.tokens).map .ok ∧
      Clause.Scoped s.env clauses ∧ program.statements = clauses.map Clause.stmt ∧
      parsed.env = clauses.foldl Clause.declareIn s.env := by
  rw [← Lexer.scan_languageRules]
  exact Language.clauses_of_parse (parse_of_parseSource h).1

/-- How evaluation fails after the statements that were executed: the next one fails, or they are
all and the sink cannot be flushed. -/
inductive FailsAfter (m : Machine) (statements : List Stmt) (e : Error) : List Stmt → Prop
  | statement {front back : List Stmt} {stmt : Stmt} {mid : Machine}
    (split : statements = front ++ stmt :: back) (front_ok : (execAll m front).value = (.ok (), mid))
    (fails : (stmt.exec mid).value.1 = .error e) : FailsAfter m statements e front
  | flush {mid : Machine} (all_ok : (execAll m statements).value = (.ok (), mid))
    (fails : mid.sink.flush = .error e) : FailsAfter m statements e statements

section Execute
variable {env : Environment} {checkpoint : List String} {m : Machine}

/-- After a failure the environment is the one that the executed statements made, rolled back. -/
theorem execute_error {e : Error}
    (h : (execute env checkpoint program sink).value = (.error e, m)) : ∃ executed mid,
      (execAll ⟨env, sink⟩ executed).value = (.ok (), mid) ∧
      FailsAfter ⟨env, sink⟩ program.statements e executed ∧
      m.env = mid.env.rollback checkpoint := by
  simp only [execute, Program.exec, Traced.value_bind] at h
  cases hrun : (execAll ⟨env, sink⟩ program.statements).value with
  | mk result last =>
    rw [hrun] at h
    cases result with
    | error error =>
      cases h
      obtain ⟨front,stmt,back,mid,hsplit,hfront,hfails⟩ := execAll_error hrun
      refine ⟨front,mid,hfront,.statement hsplit hfront (congrArg Prod.fst hfails),?_⟩
      exact congrArg (·.rollback checkpoint) (Stmt.exec_error hfails).1
    | ok _ =>
      cases hflush : last.sink.flush with
      | error error =>
        simp only [Sink.flushAfter, hflush] at h
        cases h
        exact ⟨program.statements,last,hrun,.flush hrun hflush,rfl⟩
      | ok _ =>
        simp only [Sink.flushAfter, hflush] at h
        cases h

theorem execute_ok (h : (execute env checkpoint program sink).value = (.ok (), m)) : ∃ last,
    (execAll ⟨env, sink⟩ program.statements).value = (.ok (), last) ∧
      m = ⟨last.env, { last.sink with flushes := last.sink.flushes + 1 }⟩ := by
  simp only [execute, Program.exec, Traced.value_bind] at h
  cases hrun : (execAll ⟨env, sink⟩ program.statements).value with
  | mk result last =>
    rw [hrun] at h
    cases result with
    | error error => cases h
    | ok _ =>
      cases hflush : last.sink.flush with
      | error error =>
        simp only [Sink.flushAfter, hflush] at h
        cases h
      | ok _ =>
        simp only [Sink.flushAfter, hflush] at h
        cases h
        exact ⟨last,rfl,rfl⟩

end Execute

/-- A run that succeeds has executed all statements of the source and flushed the sink. -/
theorem execAll_of_run_ok {after : Session} {sink' : Sink}
    (hparse : (s.parseSource source).value = (.ok program, parsed))
    (hrun : (s.run source sink).value = (.ok (), after, sink')) : ∃ last,
      (execAll ⟨parsed.env, sink⟩ program.statements).value = (.ok (), last) ∧
      after = { parsed with env := last.env } ∧
      sink' = { last.sink with flushes := last.sink.flushes + 1 } := by
  rw [run_of_parse_ok hparse] at hrun
  cases hexec : (execute parsed.env s.env.checkpoint program sink).value with
  | mk result m =>
    rw [hexec] at hrun
    cases hrun
    obtain ⟨last,hlast,rfl⟩ := execute_ok hexec
    exact ⟨last,hlast,rfl,rfl⟩

section Failure
variable {e : Error} {after : Session} {sink' : Sink}

/-- A run that fails in evaluation keeps what the executed statements have bound. Of the declared
names it keeps the old ones and the bound ones, and no name loses its value. -/
theorem env_of_run_error (hs : s.env.Sound)
    (hparse : (s.parseSource source).value = (.ok program, parsed))
    (hrun : (s.run source sink).value = (.error e, after, sink')) : ∃ executed,
      FailsAfter ⟨parsed.env, sink⟩ program.statements e executed ∧
      (∀ name, after.env.value? name = Stmt.valueAfter s.env.value? executed.reverse name) ∧
      (∀ name, name ∈ after.env.declared ↔
        name ∈ s.env.declared ∨ after.env.isBound name = true) ∧
      ∀ name, s.env.isBound name = true → after.env.isBound name = true := by
  obtain ⟨clauses,_,_,_,hparsed⟩ := clauses_of_parseSource hparse
  rw [run_of_parse_ok hparse] at hrun
  cases hexec : (execute parsed.env s.env.checkpoint program sink).value with
  | mk result m =>
    rw [hexec] at hrun
    cases hrun
    obtain ⟨executed,mid,hexecuted,hfails,henv⟩ := execute_error hexec
    refine ⟨executed,hfails,?_,?_,?_⟩
    · intro name
      have hvalue := value?_execAll hexecuted name
      rw [hparsed, Clause.value?_foldl] at hvalue
      rw [henv, Environment.value?_rollback, hvalue]
    · intro name
      have hdeclared := mem_declared_execAll hexecuted name
      rw [hparsed] at hdeclared hexecuted
      have hsound := sound_execAll hexecuted (Clause.sound_foldl hs clauses)
      simp only [henv, Environment.mem_declared_rollback, Environment.isBound_rollback,
        Environment.checkpoint]
      constructor
      · exact And.right
      · rintro (hold | hbound)
        · exact ⟨hdeclared.mpr (Or.inl (Clause.mem_declared_foldl.mpr (Or.inl hold))),Or.inl hold⟩
        · exact ⟨hsound name hbound,Or.inr hbound⟩
    · intro name hbound
      rw [henv, Environment.isBound_rollback, isBound_execAll hexecuted, hparsed,
        Clause.isBound_foldl]
      exact Or.inl hbound

/-- A run that fails before evaluation leaves the environment and the sink as they were, and so does
any parse whose reductions build phrases. A run that fails in evaluation has bound what the
statements before the failure bind; its declared names are the old ones and those with a value. -/
theorem run_error_keeps (s : Session) (hs : s.env.Reachable) (source : String) (sink : Sink) :
    (∀ e parsed, (s.parseSource source).value = (.error e, parsed) → ∃ after,
      (s.run source sink).value = (.error e, after, sink) ∧ after.env = s.env) ∧
    (∀ program parsed e after sink', (s.parseSource source).value = (.ok program, parsed) →
      (s.run source sink).value = (.error e, after, sink') → ∃ executed,
        FailsAfter ⟨parsed.env, sink⟩ program.statements e executed ∧
        (∀ name, after.env.value? name = Stmt.valueAfter s.env.value? executed.reverse name) ∧
        (∀ name, name ∈ after.env.declared ↔
          name ∈ s.env.declared ∨ after.env.isBound name = true) ∧
        (∀ name ∈ after.env.declared, name ∉ s.env.declared → after.env.isBound name = true) ∧
        ∀ name ∈ s.env.declared, name ∈ after.env.declared) ∧
    ∀ p : Parser, (∀ n, p.reduction n = .last ∨ ∃ phrase : Phrase, p.reduction n = phrase.reduction) →
      ∀ feed e, (p.parse feed s.env).value.1 = .error e → (p.parse feed s.env).value.2 = s.env := by
  refine ⟨?_,?_,?_⟩
  · intro e parsed hparse
    exact ⟨parsed,run_of_parse_error hparse,env_of_parseSource_error hs.sound hparse⟩
  · intro program parsed e after sink' hparse hrun
    obtain ⟨executed,hfails,hvalues,hdeclared,_⟩ := env_of_run_error hs.sound hparse hrun
    refine ⟨executed,hfails,hvalues,hdeclared,?_,?_⟩
    · intro name hname hnew
      exact ((hdeclared name).mp hname).resolve_left hnew
    · intro name hold
      exact (hdeclared name).mpr (Or.inl hold)
  · intro p hp feed e herror
    have hdeclares : ∀ n, (p.reduction n).Declares := fun n => Reduction.declares_of_phrase (hp n)
    exact Parser.env_of_parse_error hdeclares hs.sound herror

/-- The sink has no room for the line of `print a`: `a` keeps its value, `b` is forgotten. An
undeclared name stops the other source in the parse, and so does the end of an empty feed. -/
theorem run_error_full_sink : Environment.Reachable {} ∧
    (∃ after, (run {} "let a print c" {}).value =
      (.error ⟨.identifierNotDefined "c", some ⟨1, 13, 12⟩⟩, after, {}) ∧ after.env = {}) ∧
    (∃ after sink', (run {} "let a = 'x' print a let b" { room := some 1 }).value =
      (.error ⟨.io "sink full", none⟩, after, sink') ∧
        after.env = ⟨["a"], [("a", .text "x")]⟩ ∧
        (∀ name ∈ after.env.declared, name ∉ [] → after.env.isBound name = true)) ∧
    (Language.reader.parse ⟨[], false⟩ {}).value.2 = {} := by
  have hparse : (parseSource {} "let a print c").value =
      (.error ⟨.identifierNotDefined "c", some ⟨1, 13, 12⟩⟩, ⟨{}, true, true⟩) := by decide +kernel
  have hok : (parseSource {} "let a = 'x' print a let b").value.1.isOk = true := by decide +kernel
  have hrun : (run {} "let a = 'x' print a let b" { room := some 1 }).value =
      (.error ⟨.io "sink full", none⟩, ⟨⟨["a"], [("a", .text "x")]⟩, true, true⟩,
        { written := [120], room := some 0 }) := by decide +kernel
  have hempty : (Language.reader.parse ⟨[], false⟩ {}).value.1 =
      .error ⟨.unexpectedEnd ["PrintKeyword", "LetKeyword"], none⟩ := by decide +kernel
  refine ⟨.empty,?_,?_,?_⟩
  · exact (run_error_keeps {} .empty "let a print c" {}).1 _ _ hparse
  · cases hp : (parseSource {} "let a = 'x' print a let b").value with
    | mk parse parsed =>
      cases parse with
      | error e =>
        rw [hp] at hok
        cases hok
      | ok program =>
        obtain ⟨_,_,_,_,hbound,_⟩ := (run_error_keeps {} .empty "let a = 'x' print a let b"
          { room := some 1 }).2.1 _ _ _ _ _ hp hrun
        exact ⟨_,_,hrun,rfl,hbound⟩
  · exact (run_error_keeps {} .empty "" {}).2.2 Language.reader (phraseReductions_cases _) _ _ hempty

end Failure

end Session

end LetPrint

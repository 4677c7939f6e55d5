import LetPrint.Proofs.Joining

/-! # Names are checked twice

A parse asks of every name that is referred to whether it is declared, an evaluation whether it is
bound. Declarations are made by the reductions of clauses and bindings by their statements, so where
both start out with the same names they stay in step, clause by clause. Hence the parse stops at the
first stray identifier exactly if the evaluation would, and with the same error.
-/
namespace LetPrint

namespace Clause
variable {env : Environment}

/-- The first identifier that clauses refer to although it is not declared before its clause. -/
def firstStray? (env : Environment) : List Clause → Option (Lexeme .identifier)
  | [] => none
  | c :: rest =>
    match c.stray? env with
    | some identifier => some identifier
    | none => firstStray? (c.declareIn env) rest

theorem scoped_cons {c : Clause} {rest : List Clause} :
    Scoped env (c :: rest) ↔ c.stray? env = none ∧ Scoped (c.declareIn env) rest := by
  have hconcat : Scoped env ([] ++ [c]) ↔ Scoped env [] ∧ c.stray? env = none := scoped_concat
  rw [List.nil_append, and_iff_right scoped_nil] at hconcat
  rw [← hconcat]
  exact @scoped_append env [c] rest

theorem firstStray?_eq_none_iff {clauses : List Clause} :
    firstStray? env clauses = none ↔ Scoped env clauses := by
  induction clauses generalizing env with
  | nil => simp [firstStray?, scoped_nil]
  | cons c rest ih =>
    rw [scoped_cons, firstStray?, ← ih]
    cases c.stray? env <;> simp

theorem exists_of_firstStray? {clauses : List Clause} {identifier : Lexeme .identifier}
    (h : firstStray? env clauses = some identifier) : ∃ front c back,
      clauses = front ++ c :: back ∧ Scoped env front ∧
        c.stray? (front.foldl declareIn env) = some identifier := by
  induction clauses generalizing env with
  | nil => cases h
  | cons c rest ih =>
    rw [firstStray?] at h
    cases hc : c.stray? env with
    | some other =>
      rw [hc] at h
      cases h
      exact ⟨[],c,rest,rfl,scoped_nil,hc⟩
    | none =>
      rw [hc] at h
      obtain ⟨front,other,back,rfl,hfront,hother⟩ := ih h
      exact ⟨c :: front,other,back,rfl,scoped_cons.mpr ⟨hc,hfront⟩,hother⟩

theorem scoped_of_forall {clauses : List Clause} (h : ∀ c ∈ clauses, ∀ identifier,
    c.use? = some identifier → identifier.text ∈ env.declared) : Scoped env clauses := by
  rintro front c back rfl identifier huse
  exact Or.inl (h c (by simp) identifier huse)

theorem token_mem_of_use? {c : Clause} {identifier : Lexeme .identifier}
    (h : c.use? = some identifier) : identifier.token ∈ c.tokens := by
  cases c with
  | print keyword operand =>
    cases operand <;> cases h
    simp [tokens, Operand.token]
  | declare keyword name => cases h
  | define keyword name operator initializer =>
    cases initializer <;> cases h
    simp [tokens, Operand.token]

theorem exists_tokens_eq_cons (c : Clause) : ∃ token rest, c.tokens = token :: rest := by
  cases c <;> exact ⟨_,_,rfl⟩

end Clause

namespace Scan
variable {env : Environment}

/-- A clause with a stray identifier fails, whatever clauses come behind it. -/
theorem outcome_stage_of_stray {front back : List Clause} {c : Clause}
    {identifier : Lexeme .identifier}
    (h : c.stray? (front.foldl Clause.declareIn env) = some identifier) :
    (outcome env ⟨front, c.stage⟩ ((back.flatMap Clause.tokens).map .ok)).1 =
      .failed identifier.notDefined := by
  have hstray : stray? ⟨front, c.stage⟩ env = some identifier := by
    rw [stray?, Stage.pending?_stage]
    exact h
  cases back with
  | nil => simp [outcome, Stage.pending?_stage, hstray]
  | cons other back =>
    obtain ⟨token,rest,htokens⟩ := other.exists_tokens_eq_cons
    have hread := foldlM_clause (closed?_stage front c) other
    rw [htokens, List.foldlM_cons] at hread
    obtain ⟨s,hs,_⟩ := Option.bind_eq_some_iff.mp hread
    simp [htokens, outcome, hs, hstray]

theorem outcome_clauses {clauses : List Clause} (hne : clauses ≠ []) :
    (outcome env {} ((clauses.flatMap Clause.tokens).map .ok)).1 =
      match Clause.firstStray? env clauses with
      | none => (accepted env clauses).1
      | some identifier => .failed identifier.notDefined := by
  cases hstray : Clause.firstStray? env clauses with
  | none => rw [outcome_of_scoped hne (Clause.firstStray?_eq_none_iff.mp hstray)]
  | some identifier =>
    obtain ⟨front,c,back,rfl,hfront,hc⟩ := Clause.exists_of_firstStray? hstray
    have hread := outcome_append ((back.flatMap Clause.tokens).map .ok)
      (all_clauses front c) hfront
    rw [← List.map_append] at hread
    rw [List.flatMap_append, List.flatMap_cons, ← List.append_assoc, hread]
    exact outcome_stage_of_stray hc

end Scan

namespace Clause
variable {env : Environment} {m : Machine}

theorem exec_of_stray {c : Clause} {identifier : Lexeme .identifier}
    (h : ∀ name, name ∈ env.declared ↔ m.env.isBound name = true)
    (hstray : c.stray? env = some identifier) :
    (c.stmt.exec m).value.1 = .error identifier.notDefined := by
  obtain ⟨huse,hundeclared⟩ := stray?_eq_some_iff.mp hstray
  have hvalue : m.env.value? identifier.text = none := by
    rw [h, Environment.isBound] at hundeclared
    simpa using hundeclared
  cases c with
  | print keyword operand =>
    cases operand <;> cases huse
    simp [stmt, Operand.expr, Stmt.exec, Expr.eval, Environment.get, hvalue, Lexeme.notDefined,
      Token.span, Lexeme.token]
  | declare keyword name => cases huse
  | define keyword name operator initializer =>
    cases initializer <;> cases huse
    simp [stmt, Operand.expr, Stmt.exec, Expr.evalInitializer, Expr.eval, Environment.get, hvalue,
      Lexeme.notDefined, Token.span, Lexeme.token]

/-- A clause without a stray identifier has a statement that succeeds, and binds what it declares.
-/
theorem exec_of_not_stray {c : Clause}
    (h : ∀ name, name ∈ env.declared ↔ m.env.isBound name = true) (hroom : m.sink.room = none)
    (hstray : c.stray? env = none) : ∃ value m',
      (c.stmt.exec m).value = (.ok value, m') ∧ m'.sink.room = none ∧
      ∀ name, name ∈ (c.declareIn env).declared ↔ m'.env.isBound name = true := by
  have hdoes := c.stmt.does_exec m
  have hbinder := c.binder?_stmt
  generalize hresult : (c.stmt.exec m).value = result at hdoes
  generalize hs : c.stmt = s at hdoes hbinder
  cases hdoes with
  | unbound hoperand hvalue =>
    rw [← hs] at hoperand
    obtain ⟨lexeme,huse,rfl⟩ := use?_of_operand? hoperand
    have hbound := (h lexeme.text).mp (stray?_eq_none_iff.mp hstray lexeme huse)
    rw [Environment.isBound, hvalue] at hbound
    cases hbound
  | full _ hline =>
    have hsome := (Sink.writeLine_error (congrArg Prod.fst hline)).2
    rw [hroom] at hsome
    cases hsome
  | print _ hline =>
    rw [Sink.writeLine_of_room_eq_none hroom] at hline
    cases hline
    refine ⟨_,_,rfl,hroom,fun name => ?_⟩
    rw [mem_declared_declareIn, ← hbinder, h]
    simp
  | @bind identifier initializer span value _ =>
    refine ⟨_,_,rfl,hroom,fun name => ?_⟩
    rw [mem_declared_declareIn, ← hbinder, h, Environment.isBound_bind, Stmt.binder?_bind,
      Option.some.injEq]
    exact or_congr_right eq_comm

/-- Evaluating the statements of clauses ends in the error of their first stray identifier, if there
is one and the declared names are the bound ones. -/
theorem execAll_clauses (h : ∀ name, name ∈ env.declared ↔ m.env.isBound name = true)
    (hroom : m.sink.room = none) (clauses : List Clause) :
    (execAll m (clauses.map stmt)).value.1 =
      match firstStray? env clauses with
      | none => .ok ()
      | some identifier => .error identifier.notDefined := by
  induction clauses generalizing env m with
  | nil => rfl
  | cons c rest ih =>
    rw [List.map_cons, value_execAll_cons, firstStray?]
    cases hstray : c.stray? env with
    | some identifier =>
      have hexec := exec_of_stray h hstray
      cases hresult : (c.stmt.exec m).value with
      | mk result m' =>
        rw [hresult] at hexec
        cases hexec
        rfl
    | none =>
      obtain ⟨value,m',hexec,hroom',h'⟩ := exec_of_not_stray h hroom hstray
      rw [hexec]
      exact ih h' hroom'

end Clause

namespace Language

theorem value_parse_clauses (announced : Bool) (env : Environment) {clauses : List Clause}
    (hne : clauses ≠ []) :
    (reader.parse ⟨(clauses.flatMap Clause.tokens).map .ok, announced⟩ env).value.1 =
      match Clause.firstStray? env clauses with
      | none => .ok ⟨clauses.map Clause.stmt, Phrase.spanOf (clauses.map Clause.stmt)⟩
      | some identifier => .error identifier.notDefined := by
  have hout := @Scan.outcome_clauses env clauses hne
  rw [value_parse_reader]
  cases hstray : Clause.firstStray? env clauses with
  | none =>
    rw [hstray] at hout
    rw [hout]
    rfl
  | some identifier =>
    rw [hstray] at hout
    rw [hout]
    rfl

/-- Where the declared names are the bound ones, a sentence is refused for an identifier exactly if
evaluating its statements would fail for that identifier, in the same place. Otherwise the sentence
is parsed and its evaluation succeeds. The statements are those that the parser builds where every
identifier of the sentence is declared. -/
theorem parse_stray_iff_exec_stray : ∃ p, parser.value = .ok p ∧
    ∀ tokens : List Token, grammar.Sentence (tokens.map Token.kind) →
    ∀ announced, ∃ program : Program,
      (∀ wide : Environment,
        (∀ token ∈ tokens, token.kind = .identifier → token.text ∈ wide.declared) →
        (p.parse ⟨tokens.map .ok, announced⟩ wide).value.1 = .ok program) ∧
      ∀ env : Environment, env.Settled → ∀ sink : Sink, sink.room = none →
        (∀ name place,
          (p.parse ⟨tokens.map .ok, announced⟩ env).value.1 =
              .error ⟨.identifierNotDefined name, place⟩ ↔
            (program.exec ⟨env, sink⟩).value.1 = .error ⟨.identifierNotDefined name, place⟩) ∧
        ((∀ name place, (p.parse ⟨tokens.map .ok, announced⟩ env).value.1 ≠
            .error ⟨.identifierNotDefined name, place⟩) →
          (p.parse ⟨tokens.map .ok, announced⟩ env).value.1 = .ok program ∧
            (program.exec ⟨env, sink⟩).value.1 = .ok ()) := by
  refine ⟨reader,parser_value,?_⟩
  intro tokens hsentence announced
  obtain ⟨clauses,last,htokens⟩ := sentence_iff.mp hsentence
  obtain ⟨all,hall,hne⟩ : ∃ all : List Clause, tokens = all.flatMap Clause.tokens ∧ all ≠ [] :=
    ⟨clauses ++ [last],by simp [htokens],by simp⟩
  subst hall
  refine ⟨⟨all.map Clause.stmt,Phrase.spanOf (all.map Clause.stmt)⟩,?_,?_⟩
  · intro wide hwide
    have hscoped : Clause.Scoped wide all := by
      apply Clause.scoped_of_forall
      intro c hc identifier huse
      exact hwide identifier.token
        (List.mem_flatMap.mpr ⟨c,hc,Clause.token_mem_of_use? huse⟩) rfl
    rw [value_parse_clauses announced wide hne, Clause.firstStray?_eq_none_iff.mpr hscoped]
  · intro env hsettled sink hroom
    have hparse := value_parse_clauses announced env hne
    have hexec : (Program.exec ⟨env, sink⟩
        ⟨all.map Clause.stmt, Phrase.spanOf (all.map Clause.stmt)⟩).value.1 = _ :=
      Clause.execAll_clauses (m := ⟨env, sink⟩) hsettled hroom all
    rw [hparse, hexec]
    cases Clause.firstStray? env all with
    | none => simp
    | some identifier => simp [Lexeme.notDefined, Error.located]

/-- An initializer that refers to the name of its own clause: both checks fail at its place when the
name is new, and both let it pass when the name has a value. -/
theorem parse_self_reference :
    let tokens : List Token := [⟨.letKeyword, "let", ⟨1, 1, 0⟩⟩, ⟨.identifier, "a", ⟨1, 5, 4⟩⟩,
      ⟨.assignOperator, "=", ⟨1, 7, 6⟩⟩, ⟨.identifier, "a", ⟨1, 9, 8⟩⟩]
    let known : Environment := ⟨["a"], [("a", .text "x")]⟩
    grammar.Sentence (tokens.map Token.kind) ∧ Environment.Settled {} ∧ known.Settled ∧
    ∃ p program, parser.value = .ok p ∧
      (p.parse ⟨tokens.map .ok, false⟩ known).value.1 = .ok program ∧
      (program.exec ⟨{}, {}⟩).value.1 = .error ⟨.identifierNotDefined "a", some ⟨1, 9, 8⟩⟩ ∧
      (program.exec ⟨known, {}⟩).value.1 = .ok () := by
  intro tokens known
  let clause : Clause := .define ⟨"let", ⟨1, 1, 0⟩⟩ ⟨"a", ⟨1, 5, 4⟩⟩ ⟨"=", ⟨1, 7, 6⟩⟩
    (.name ⟨"a", ⟨1, 9, 8⟩⟩)
  have hsentence : grammar.Sentence (tokens.map Token.kind) := sentence_iff.mpr ⟨[],clause,rfl⟩
  have hknown : known.Settled := Environment.settled_empty.bind "a" (.text "x")
  obtain ⟨p,hp,hagree⟩ := parse_stray_iff_exec_stray
  obtain rfl : reader = p := Except.ok.inj (parser_value.symm.trans hp)
  obtain ⟨program,hwide,hstray⟩ := hagree tokens hsentence false
  have hparse := hwide known (by decide)
  have hrefused : (reader.parse ⟨tokens.map .ok, false⟩ {}).value.1 =
      .error ⟨.identifierNotDefined "a", some ⟨1, 9, 8⟩⟩ := by decide +kernel
  obtain ⟨hsame,_⟩ := hstray {} Environment.settled_empty {} rfl
  obtain ⟨_,hpass⟩ := hstray known hknown {} rfl
  refine ⟨hsentence,Environment.settled_empty,hknown,reader,program,hp,hparse,?_,?_⟩
  · exact (hsame "a" _).mp hrefused
  · refine (hpass ?_).2
    intro name place hfails
    rw [hparse] at hfails
    cases hfails

end Language

end LetPrint

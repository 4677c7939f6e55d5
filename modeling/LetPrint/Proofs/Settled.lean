import LetPrint.Proofs.Sessions

/-! # Sessions stay settled

A session is settled when its declared names are the bound ones. It begins so, and every call keeps
it so, although names are declared by the parse and bound by the evaluation, which may stop
anywhere. In a settled session nothing but the sink can stop the evaluation of a parsed source.
-/
namespace LetPrint

namespace Session
variable {s parsed : Session} {source : String} {sink : Sink} {program : Program}

/-- Where every declared name is bound, no statement of a parsed source refers to a name without a
value when its turn comes. -/
theorem isBound_of_scoped {clauses : List Clause} {front back : List Stmt} {stmt : Stmt}
    {mid : Machine} {identifier : String} {span : Span} (hs : s.env.Settled)
    (hscoped : Clause.Scoped s.env clauses) (hsplit : clauses.map Clause.stmt = front ++ stmt :: back)
    (hfront : (execAll ⟨clauses.foldl Clause.declareIn s.env, sink⟩ front).value = (.ok (), mid))
    (hoperand : stmt.operand? = some (.name identifier span)) :
    mid.env.isBound identifier = true := by
  obtain ⟨before,others,rfl,hbefore,hothers⟩ := List.map_eq_append_iff.mp hsplit
  obtain ⟨clause,rest,rfl,hclause,_⟩ := List.map_eq_cons_iff.mp hothers
  rw [← hclause] at hoperand
  obtain ⟨lexeme,huse,hlexeme⟩ := Clause.use?_of_operand? hoperand
  have hdeclared := hscoped before clause rest rfl lexeme huse
  rw [hlexeme] at hdeclared
  rw [isBound_execAll hfront, Clause.isBound_foldl]
  -- the parse saw the name declared: it had a value before, or an earlier clause binds it
  rcases hdeclared with hold | ⟨earlier,hmem,hbinder⟩
  · exact Or.inl ((hs identifier).mp hold)
  · refine Or.inr ⟨earlier.stmt,?_,by rw [Clause.binder?_stmt, hbinder]⟩
    rw [← hbefore]
    exact List.mem_map_of_mem hmem

/-- Where every declared name is bound, only the sink can stop the evaluation of a parsed source. -/
theorem sink_of_run_error {e : Error} {after : Session} {sink' : Sink} (hs : s.env.Settled)
    (hparse : (s.parseSource source).value = (.ok program, parsed))
    (hrun : (s.run source sink).value = (.error e, after, sink')) :
    e = sink.full ∧ sink.room.isSome = true ∨ e = sink.flushFailed ∧ sink.flushFails = true := by
  obtain ⟨clauses,_,hscoped,hstatements,hparsed⟩ := clauses_of_parseSource hparse
  obtain ⟨executed,hfails,_⟩ := env_of_run_error hs.sound hparse hrun
  rw [hparsed] at hfails
  cases hfails with
  | @statement front back stmt mid hsplit hfront hfails =>
    have hfaults := sameFaults_execAll hfront
    have hstmt : (stmt.exec mid).value = (.error e, (stmt.exec mid).value.2) :=
      Prod.ext hfails rfl
    rcases (Stmt.exec_error hstmt).2 with ⟨identifier,span,hoperand,hvalue⟩ | ⟨hfull,hroom⟩
    · rw [hstatements] at hsplit
      have hbound := isBound_of_scoped hs hscoped hsplit hfront hoperand
      rw [Environment.isBound, hvalue] at hbound
      cases hbound
    · rw [hfaults.full_eq] at hfull
      rw [hfaults.room_eq] at hroom
      exact Or.inl ⟨hfull,hroom⟩
  | flush hall hflush =>
    have hfaults := sameFaults_execAll hall
    obtain ⟨herror,hflushFails⟩ := Sink.flush_error hflush
    rw [hfaults.flushFailed_eq] at herror
    rw [hfaults.flushFails_eq] at hflushFails
    exact Or.inr ⟨herror,hflushFails⟩

theorem settled_of_run_ok {after : Session} {sink' : Sink} (hs : s.env.Settled)
    (hparse : (s.parseSource source).value = (.ok program, parsed))
    (hrun : (s.run source sink).value = (.ok (), after, sink')) : after.env.Settled := by
  obtain ⟨clauses,_,_,hstatements,hparsed⟩ := clauses_of_parseSource hparse
  obtain ⟨last,hlast,rfl,_⟩ := execAll_of_run_ok hparse hrun
  intro name
  have hbinders : (∃ stmt ∈ program.statements, stmt.binder? = some name) ↔
      ∃ c ∈ clauses, c.binder? = some name := by simp [hstatements]
  -- what the parse declares and what the evaluation binds are the binders of the same clauses
  rw [mem_declared_execAll hlast, isBound_execAll hlast, hbinders, hparsed, Clause.isBound_foldl,
    Clause.mem_declared_foldl, hs name, or_assoc, or_self]

/-- A run, successful or not, leaves the declared names equal to the bound ones if they were so. -/
theorem settled_run (hs : s.env.Settled) (source : String) (sink : Sink) :
    (s.run source sink).value.2.1.env.Settled := by
  cases hparse : (s.parseSource source).value with
  | mk parse parsed =>
    cases hrun : (s.run source sink).value with
    | mk result rest =>
      obtain ⟨after,sink'⟩ := rest
      cases parse with
      | error e =>
        rw [run_of_parse_error hparse] at hrun
        cases hrun
        rw [env_of_parseSource_error hs.sound hparse]
        exact hs
      | ok program =>
        cases result with
        | ok _ => exact settled_of_run_ok hs hparse hrun
        | error e =>
          obtain ⟨executed,_,_,hdeclared,hbound⟩ := env_of_run_error hs.sound hparse hrun
          intro name
          rw [hdeclared name]
          constructor
          · rintro (hold | hnew)
            · exact hbound name ((hs name).mp hold)
            · exact hnew
          · exact Or.inr

/-- What may be asked of a session. -/
inductive Call where
  | run (source : String) (sink : Sink)
  | resetLexer
  | resetParser

def serve (s : Session) : Call → Session
  | .run source sink => (s.run source sink).value.2.1
  | .resetLexer => s.resetLexer.value
  | .resetParser => s.resetParser.value

theorem settled_serve (hs : s.env.Settled) (call : Call) : (s.serve call).env.Settled := by
  cases call with
  | run source sink =>
    rw [serve]
    exact settled_run hs source sink
  | resetLexer => exact hs
  | resetParser => exact hs

theorem settled_foldl (hs : s.env.Settled) (calls : List Call) :
    (calls.foldl serve s).env.Settled := by
  induction calls generalizing s with
  | nil => exact hs
  | cons call calls ih => exact ih (settled_serve hs call)

/-- Whatever calls a session has served since it began, its declared names are the bound ones. The
next run hands on the error of the parse, with the sink untouched; after a parse that succeeds only
the sink can fail. -/
theorem calls_keep_settled (lexerReady parserReady : Bool) (calls : List Call) :
    let s := calls.foldl serve ⟨{}, lexerReady, parserReady⟩
    (∀ name, name ∈ s.env.declared ↔ s.env.isBound name = true) ∧
    ∀ (source : String) (sink : Sink),
      (∀ e, (s.parseSource source).value.1 = .error e →
        (s.run source sink).value.1 = .error e ∧ (s.run source sink).value.2.2 = sink) ∧
      (∀ program e, (s.parseSource source).value.1 = .ok program →
        (s.run source sink).value.1 = .error e →
          e = sink.full ∧ sink.room.isSome = true ∨
            e = sink.flushFailed ∧ sink.flushFails = true) ∧
      (sink.room = none → sink.flushFails = false →
        (s.run source sink).value.1 = .ok () ∨
          (s.run source sink).value.2.2.written = sink.written) := by
  intro s
  have hs : s.env.Settled := settled_foldl Environment.settled_empty calls
  clear_value s
  refine ⟨hs,fun source sink => ?_⟩
  cases hparse : (s.parseSource source).value with
  | mk parse parsed =>
    cases hrun : (s.run source sink).value with
    | mk result rest =>
      obtain ⟨after,sink'⟩ := rest
      dsimp only
      cases parse with
      | error error =>
        rw [run_of_parse_error hparse] at hrun
        cases hrun
        refine ⟨?_,?_,fun _ _ => Or.inr rfl⟩
        · intro e he
          cases he
          exact ⟨rfl,rfl⟩
        · intro program e hp
          cases hp
      | ok program =>
        have hsink : ∀ e, result = .error e →
            e = sink.full ∧ sink.room.isSome = true ∨
              e = sink.flushFailed ∧ sink.flushFails = true := by
          rintro e rfl
          exact sink_of_run_error hs hparse hrun
        refine ⟨?_,fun _ e _ => hsink e,?_⟩
        · intro e he
          cases he
        · intro hroom hflush
          cases result with
          | ok _ => exact Or.inl rfl
          | error e =>
            rcases hsink e rfl with ⟨_,hfails⟩ | ⟨_,hfails⟩
            · rw [hroom] at hfails
              cases hfails
            · rw [hflush] at hfails
              cases hfails

/-- A run that a full sink stopped, and a reset, leave `a` with its value and nothing of `b`. After
that a run fails in the parse or at the flush, or it succeeds. -/
theorem calls_after_full_sink : ∃ s : Session,
    [Call.run "let a = 'x' print a let b" { room := some 1 }, .resetParser].foldl serve
      ⟨{}, false, false⟩ = s ∧ s.env = ⟨["a"], [("a", .text "x")]⟩ ∧
    (∀ name, name ∈ s.env.declared ↔ s.env.isBound name = true) ∧
    (s.run "print b" {}).value.2.2 = {} ∧
    (∃ e, (s.run "print a" { flushFails := true }).value.1 = .error e ∧
      (e = Sink.full { flushFails := true } ∧ (none : Option ℕ).isSome = true ∨
        e = Sink.flushFailed { flushFails := true } ∧ true = true)) ∧
    ((s.run "print a" {}).value.1 = .ok () ∨ (s.run "print a" {}).value.2.2.written = []) := by
  let s : Session := ⟨⟨["a"], [("a", .text "x")]⟩, true, false⟩
  have hs : [Call.run "let a = 'x' print a let b" { room := some 1 }, .resetParser].foldl serve
      ⟨{}, false, false⟩ = s := by decide +kernel
  have hstray : (s.parseSource "print b").value.1 =
      .error ⟨.identifierNotDefined "b", some ⟨1, 7, 6⟩⟩ := by decide +kernel
  have hok : (s.parseSource "print a").value.1 = .ok
      ⟨[.print (.name "a" ⟨⟨1, 7, 6⟩, ⟨1, 8, 7⟩⟩) ⟨⟨1, 1, 0⟩, ⟨1, 8, 7⟩⟩], ⟨⟨1, 1, 0⟩, ⟨1, 8, 7⟩⟩⟩ := by
    decide +kernel
  have hflush : (s.run "print a" { flushFails := true }).value.1 =
      .error ⟨.io "flush failed", none⟩ := by decide +kernel
  have hcalls := calls_keep_settled false false
    [.run "let a = 'x' print a let b" { room := some 1 }, .resetParser]
  rw [hs] at hcalls
  obtain ⟨hsettled,hnext⟩ := hcalls
  exact ⟨s,hs,rfl,hsettled,((hnext "print b" {}).1 _ hstray).2,
    ⟨_,hflush,(hnext "print a" { flushFails := true }).2.1 _ _ hok hflush⟩,
    (hnext "print a" {}).2.2 rfl rfl⟩

end Session

end LetPrint

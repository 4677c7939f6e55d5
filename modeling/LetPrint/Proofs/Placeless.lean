import LetPrint.Proofs.Writing

/-! # Places carry no meaning

Places are copied into values and errors, but nothing depends on them. Reading goes on in the same
way wherever its tokens stand, and so does evaluation wherever its statements stand. Each function
is compared with itself on what is left when every place is the start of a source, so two inputs
with the same rest give results with the same rest.
-/
namespace LetPrint

def Token.bare (t : Token) : Token := t.relocated fun _ => .start

/-- The error at the start of a source, if it has a place at all. -/
def Error.bare (e : Error) : Error := e.relocated fun _ => .start

def Program.bare (program : Program) : Program := ⟨program.statements.map Stmt.bare, .atStart⟩

theorem Error.bare_relocated (f : Position → Position) (e : Error) :
    (e.relocated f).bare = e.bare := by
  obtain ⟨cause,position⟩ := e
  cases position <;> rfl

section Results
variable {α β : Type} {bare : α → α}

/-- A result without the places in its value and in its error. -/
def bareResult (bare : α → α) : Except Error α → Except Error α
  | .ok a => .ok (bare a)
  | .error e => .error e.bare

def bareRun (bare : α → α) (run : Except Error α × β) : Except Error α × β :=
  (bareResult bare run.1, run.2)

theorem bareResult_cases {result other : Except Error α}
    (h : bareResult bare result = bareResult bare other) :
    (∃ a b, result = .ok a ∧ other = .ok b ∧ bare a = bare b) ∨
      ∃ e e', result = .error e ∧ other = .error e' ∧ e.bare = e'.bare := by
  cases result with
  | ok a =>
    cases other with
    | ok b => exact Or.inl ⟨a,b,rfl,rfl,Except.ok.inj h⟩
    | error e' => cases h
  | error e =>
    cases other with
    | ok b => cases h
    | error e' => exact Or.inr ⟨e,e',rfl,rfl,Except.error.inj h⟩

theorem bareRun_cases {run other : Except Error α × β} (h : bareRun bare run = bareRun bare other) :
    (∃ a b state, run = (.ok a, state) ∧ other = (.ok b, state) ∧ bare a = bare b) ∨
      ∃ e e' state, run = (.error e, state) ∧ other = (.error e', state) ∧ e.bare = e'.bare := by
  obtain ⟨result,state⟩ := run
  obtain ⟨result',state'⟩ := other
  obtain ⟨hresult,rfl⟩ := Prod.mk.inj h
  rcases bareResult_cases hresult with ⟨a,b,rfl,rfl,hab⟩ | ⟨e,e',rfl,rfl,hbare⟩
  · exact Or.inl ⟨a,b,state,rfl,rfl,hab⟩
  · exact Or.inr ⟨e,e',state,rfl,rfl,hbare⟩

theorem bareRun_error {e e' : Error} (h : e.bare = e'.bare) (state : β) :
    bareRun bare (.error e, state) = bareRun bare (.error e', state) :=
  Prod.ext (congrArg Except.error h) rfl

end Results

section Reading
variable (f : Position → Position)

def Stage.relocated : Stage → Stage
  | idle => .idle
  | printing keyword => .printing (keyword.relocated f)
  | letting keyword => .letting (keyword.relocated f)
  | naming keyword name => .naming (keyword.relocated f) (name.relocated f)
  | assigning keyword name operator =>
    .assigning (keyword.relocated f) (name.relocated f) (operator.relocated f)
  | printed keyword operand => .printed (keyword.relocated f) (operand.relocated f)
  | assigned keyword name operator initializer =>
    .assigned (keyword.relocated f) (name.relocated f) (operator.relocated f)
      (initializer.relocated f)

def Scan.relocated (s : Scan) : Scan := ⟨s.done.map (Clause.relocated f), s.stage.relocated f⟩

namespace Stage
variable (stage : Stage)

theorem shift_relocated (t : Token) :
    (stage.relocated f).shift (t.relocated f) = (stage.shift t).map (relocated f) := by
  obtain ⟨kind,text,position⟩ := t
  cases stage <;> cases kind <;> rfl

theorem pending?_relocated :
    (stage.relocated f).pending? = stage.pending?.map (Clause.relocated f) := by
  cases stage <;> rfl

theorem expects_relocated : (stage.relocated f).expects = stage.expects := by
  cases stage <;> rfl

theorem tokens_relocated :
    (stage.relocated f).tokens = stage.tokens.map (Token.relocated f) := by
  cases stage with
  | printed keyword operand => exact Clause.tokens_relocated f (.print keyword operand)
  | assigned keyword name operator initializer =>
    exact Clause.tokens_relocated f (.define keyword name operator initializer)
  | _ => rfl

end Stage

theorem Clause.bare_stmt_relocated (c : Clause) : (c.relocated f).stmt.bare = c.stmt.bare := by
  have hoperand : ∀ o : Operand, (o.relocated f).expr.bare = o.expr.bare := by
    intro o
    cases o <;> rfl
  cases c with
  | print keyword operand => exact congrArg (Stmt.print · .atStart) (hoperand operand)
  | declare keyword name => rfl
  | define keyword name operator initializer =>
    exact congrArg (fun e => Stmt.bind name.text (some e) .atStart) (hoperand initializer)

namespace Scan
variable (s : Scan) (env : Environment)

theorem next_relocated (t : Token) :
    (s.relocated f).next (t.relocated f) = (s.next t).map (relocated f) := by
  have hfresh : Stage.idle.shift (t.relocated f) =
      (Stage.idle.shift t).map (Stage.relocated f) := Stage.shift_relocated f .idle t
  simp only [next, relocated, Stage.shift_relocated, Stage.pending?_relocated, hfresh]
  cases s.stage.shift t with
  | some stage => rfl
  | none =>
    cases s.stage.pending? with
    | none => rfl
    | some clause =>
      cases Stage.idle.shift t with
      | none => rfl
      | some stage => simp [relocated]

theorem environment_relocated : (s.relocated f).environment env = s.environment env :=
  Clause.foldl_relocated f env s.done

theorem stray?_relocated :
    (s.relocated f).stray? env = (s.stray? env).map (Lexeme.relocated f) := by
  rw [stray?, stray?, environment_relocated, relocated, Stage.pending?_relocated]
  cases s.stage.pending? with
  | none => rfl
  | some clause => exact clause.stray?_relocated f (s.environment env)

theorem expected_relocated : (s.relocated f).expected = s.expected :=
  congrArg (List.map Terminal.name) (s.stage.expects_relocated f)

theorem tokens_relocated : (s.relocated f).tokens = s.tokens.map (Token.relocated f) := by
  have hdone : (s.done.map (Clause.relocated f)).flatMap Clause.tokens =
      (s.done.flatMap Clause.tokens).map (Token.relocated f) := by
    rw [List.flatMap_map, List.map_flatMap]
    simp only [Clause.tokens_relocated]
  rw [tokens, tokens, List.map_append, ← hdone, ← Stage.tokens_relocated]
  rfl

theorem bare_lastEnd_relocated (cause : Cause) :
    Error.bare ⟨cause, (s.relocated f).lastEnd⟩ = Error.bare ⟨cause, s.lastEnd⟩ := by
  simp only [Error.bare, Error.relocated, lastEnd, tokens_relocated, List.getLast?_map,
    Option.map_map]
  rfl

/-- What reading makes of the items that are still to come. -/
def result (items : List (Except Error Token)) : Except Error Program × Environment :=
  ((s.outcome env items).1.toProgram, (s.outcome env items).2)

theorem result_relocated (items : List (Except Error Token)) :
    bareRun Program.bare ((s.relocated f).result env (items.map (Feed.relocatedItem f))) =
      bareRun Program.bare (s.result env items) := by
  induction items generalizing s with
  | nil =>
    rw [List.map_nil, result, result, outcome, outcome, stray?_relocated, expected_relocated,
      environment_relocated]
    simp only [relocated, Stage.pending?_relocated]
    cases hpending : s.stage.pending? with
    | none => exact Prod.ext (congrArg Except.error (s.bare_lastEnd_relocated f _)) rfl
    | some clause =>
      cases hstray : s.stray? env with
      | some identifier => rfl
      | none =>
        have hstatements :
            ((s.done.map (Clause.relocated f) ++ [clause.relocated f]).map Clause.stmt).map
              Stmt.bare = ((s.done ++ [clause]).map Clause.stmt).map Stmt.bare := by
          simp [Clause.bare_stmt_relocated, Function.comp_def]
        exact Prod.ext (congrArg (fun all => Except.ok (Program.mk all .atStart)) hstatements)
          (clause.declareIn_relocated f (s.environment env))
  | cons item rest ih =>
    cases item with
    | error e =>
      exact Prod.ext (congrArg Except.error (e.bare_relocated f)) (s.environment_relocated f env)
    | ok token =>
      rw [List.map_cons, result, result, Feed.relocatedItem, outcome, outcome, next_relocated,
        stray?_relocated, expected_relocated, environment_relocated]
      cases hnext : s.next token with
      | none => rfl
      | some after =>
        cases hstray : s.stray? env with
        | some identifier => rfl
        | none => exact ih after

end Scan

end Reading

namespace Language
variable {items others : List (Except Error Token)}

theorem value_parse_result (announced : Bool) (items : List (Except Error Token))
    (env : Environment) : (reader.parse ⟨items, announced⟩ env).value =
      match Scan.result {} env items with
      | (.ok program, after) => (.ok program, after)
      | (.error e, after) => (.error e, after.rollback env.checkpoint) := by
  rw [value_parse_reader, Scan.result]
  cases (Scan.outcome env {} items).1.toProgram <;> rfl

/-- Items with the same rest are parsed to programs with the same rest. -/
theorem parse_placeless (h : items.map (bareResult Token.bare) = others.map (bareResult Token.bare))
    (announced announced' : Bool) (env : Environment) :
    bareRun Program.bare (reader.parse ⟨items, announced⟩ env).value =
      bareRun Program.bare (reader.parse ⟨others, announced'⟩ env).value := by
  have hitem : bareResult Token.bare = Feed.relocatedItem fun _ => .start := by
    funext item
    cases item <;> rfl
  have hresult : bareRun Program.bare (Scan.result {} env items) =
      bareRun Program.bare (Scan.result {} env others) := by
    have hitems := Scan.result_relocated (fun _ => .start) {} env items
    have hothers := Scan.result_relocated (fun _ => .start) {} env others
    rw [← hitem, h] at hitems
    rw [← hitem] at hothers
    exact hitems.symm.trans hothers
  rw [value_parse_result, value_parse_result]
  rcases bareRun_cases hresult with ⟨program,other,after,hread,hread',hbare⟩ |
    ⟨e,e',after,hread,hread',hbare⟩
  · rw [hread, hread']
    exact Prod.ext (congrArg Except.ok hbare) rfl
  · rw [hread, hread']
    exact bareRun_error hbare _

end Language

theorem Expr.eval_bare (env : Environment) (e : Expr) :
    bareResult id (e.bare.eval env) = bareResult id (e.eval env) := by
  cases e with
  | text content span => rfl
  | undefined span => rfl
  | name identifier span =>
    rw [bare, eval, eval, Environment.get, Environment.get]
    cases env.value? identifier <;> rfl

theorem Expr.evalInitializer_bare (env : Environment) (initializer : Option Expr) :
    bareResult id (evalInitializer env (initializer.map bare)) =
      bareResult id (evalInitializer env initializer) := by
  cases initializer with
  | none => rfl
  | some e => exact e.eval_bare env

theorem Stmt.exec_bare (m : Machine) (stmt : Stmt) :
    bareRun id (stmt.bare.exec m).value = bareRun id (stmt.exec m).value := by
  cases stmt with
  | print operand span =>
    rw [bare, exec, exec]
    rcases bareResult_cases (operand.eval_bare m.env) with ⟨value,_,hbare,heval,rfl⟩ |
      ⟨e,e',hbare,heval,herror⟩
    · rw [hbare, heval]
      rfl
    · rw [hbare, heval]
      exact bareRun_error herror m
  | bind identifier initializer span =>
    rw [bare, exec, exec]
    rcases bareResult_cases (Expr.evalInitializer_bare m.env initializer) with
      ⟨value,_,hbare,heval,rfl⟩ | ⟨e,e',hbare,heval,herror⟩
    · rw [hbare, heval]
      rfl
    · rw [hbare, heval]
      exact bareRun_error herror m

theorem execAll_bare (m : Machine) (statements : List Stmt) :
    bareRun id (execAll m (statements.map Stmt.bare)).value =
      bareRun id (execAll m statements).value := by
  induction statements generalizing m with
  | nil => rfl
  | cons stmt rest ih =>
    rw [List.map_cons, value_execAll_cons, value_execAll_cons]
    rcases bareRun_cases (stmt.exec_bare m) with ⟨_,_,after,hbare,hexec,_⟩ |
      ⟨e,e',after,hbare,hexec,herror⟩
    · rw [hbare, hexec]
      exact ih after
    · rw [hbare, hexec]
      exact bareRun_error herror after

theorem Program.exec_placeless {program other : Program} (h : program.bare = other.bare)
    (m : Machine) : bareRun id (program.exec m).value = bareRun id (other.exec m).value := by
  have hstatements : program.statements.map Stmt.bare = other.statements.map Stmt.bare :=
    congrArg statements h
  have hprogram := execAll_bare m program.statements
  rw [hstatements] at hprogram
  exact hprogram.symm.trans (execAll_bare m other.statements)

namespace Session

theorem execute_placeless {program other : Program} (h : program.bare = other.bare)
    (env : Environment) (checkpoint : List String) (sink : Sink) :
    bareRun id (execute env checkpoint program sink).value =
      bareRun id (execute env checkpoint other sink).value := by
  simp only [execute, Traced.value_bind]
  rcases bareRun_cases (Program.exec_placeless h ⟨env, sink⟩) with ⟨_,_,m,hexec,hexec',_⟩ |
    ⟨e,e',m,hexec,hexec',herror⟩
  · rw [hexec, hexec']
  · rw [hexec, hexec']
    exact bareRun_error herror _

theorem resume_placeless (s : Session) (sink : Sink)
    {parsed other : Except Error Program × Environment}
    (h : bareRun Program.bare parsed = bareRun Program.bare other) :
    bareRun id (s.resume sink parsed).value = bareRun id (s.resume sink other).value := by
  rcases bareRun_cases h with ⟨program,program',env,rfl,rfl,hprogram⟩ | ⟨e,e',env,rfl,rfl,herror⟩
  · simp only [resume, Traced.value_bind]
    rcases bareRun_cases (execute_placeless hprogram env s.env.checkpoint sink) with
      ⟨_,_,m,hrun,hrun',_⟩ | ⟨e,e',m,hrun,hrun',herror⟩
    · rw [hrun, hrun']
    · rw [hrun, hrun']
      exact bareRun_error herror _
  · exact bareRun_error herror _

/-- Sources with the same tokens and the same error run in the same way. -/
theorem run_placeless {a b : String} (h : (Scanner.scan a).map (bareResult Token.bare) =
      (Scanner.scan b).map (bareResult Token.bare)) (s : Session) (sink : Sink) :
    bareRun id (s.run a sink).value = bareRun id (s.run b sink).value := by
  cases hparsed : (s.parseSource a).value with
  | mk result parsed =>
    cases hother : (s.parseSource b).value with
    | mk result' other =>
      rw [value_run s a sink hparsed, value_run s b sink hother,
        ← (parse_of_parseSource hparsed).1, ← (parse_of_parseSource hother).1, Language.feed_eq,
        Language.feed_eq]
      exact resume_placeless _ sink (Language.parse_placeless h true true s.env)

end Session

end LetPrint

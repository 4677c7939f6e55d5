import LetPrint.Proofs.Sessions

/-! # Operations on an environment

Whatever is done to an environment, by hand, by a parse or by a run, comes down to declaring names,
binding them and rolling back. A single one of these steps keeps bound names bound and declared, so
every sequence of operations does, also with checkpoints that are old by the time they are used.
-/
namespace LetPrint

namespace Environment
variable {env after : Environment} {name : String}

/-- One declaration, one binding or one rollback, whatever names it is told to keep. -/
inductive Changes : Environment → Environment → Prop
  | declare (env : Environment) (name : String) : Changes env (env.declare name)
  | bind (env : Environment) (name : String) (value : Value) : Changes env (env.bind name value)
  | rollback (env : Environment) (names : List String) : Changes env (env.rollback names)

def Leads : Environment → Environment → Prop := Relation.ReflTransGen Changes

theorem Changes.sound (h : env.Changes after) (hs : env.Sound) : after.Sound := by
  cases h with
  | declare name => exact hs.declare name
  | bind name value => exact hs.bind name value
  | rollback names => exact hs.rollback names

theorem Changes.isBound (h : env.Changes after) (hname : env.isBound name = true) :
    after.isBound name = true := by
  cases h with
  | declare other => exact hname
  | bind other value => exact isBound_bind.mpr (Or.inl hname)
  | rollback names => exact hname

theorem Leads.refl (env : Environment) : env.Leads env := Relation.ReflTransGen.refl

theorem Leads.trans {last : Environment} (h : env.Leads after) (h' : after.Leads last) :
    env.Leads last := Relation.ReflTransGen.trans h h'

theorem Changes.leads (h : env.Changes after) : env.Leads after := Relation.ReflTransGen.single h

theorem Leads.sound (h : env.Leads after) (hs : env.Sound) : after.Sound := by
  induction h with
  | refl => exact hs
  | tail _ hchange ih => exact hchange.sound ih

theorem Leads.isBound (h : env.Leads after) (hname : env.isBound name = true) :
    after.isBound name = true := by
  induction h with
  | refl => exact hname
  | tail _ hchange ih => exact hchange.isBound ih

end Environment

open Environment

/-- A reduction that changes the environment by its operations only. -/
def Reduction.Operates (r : Reduction) : Prop :=
  ∀ (env : Environment) (values : List Fragment), env.Leads (r env values).value.2

theorem Reduction.operates_of_phrase {r : Reduction}
    (h : r = .last ∨ ∃ phrase : Phrase, r = phrase.reduction) : r.Operates := by
  intro env values
  rcases env_of_phrase h env values with hsame | ⟨name,hdeclared⟩
  · rw [hsame]
    exact Leads.refl env
  · rw [hdeclared]
    exact (Changes.declare env name).leads

theorem Language.operates_reader (n : ℕ) : (reader.reduction n).Operates :=
  Reduction.operates_of_phrase (phraseReductions_cases _ n)

theorem Parser.leads_parse {p : Parser} (hp : ∀ n, (p.reduction n).Operates) (feed : Feed)
    (env : Environment) : env.Leads (p.parse feed env).value.2 := by
  have hdrive : env.Leads (p.drive feed env).value.2 :=
    related_drive Leads.refl Leads.trans hp feed env
  rw [parse, Traced.value_bind]
  cases hd : (p.drive feed env).value with
  | mk outcome after =>
    rw [hd] at hdrive
    cases ho : outcome.toProgram with
    | ok program =>
      simp only [ho]
      exact hdrive
    | error e =>
      simp only [ho]
      exact hdrive.trans (Changes.rollback after env.checkpoint).leads

theorem Stmt.leads_exec (stmt : Stmt) (m : Machine) :
    m.env.Leads (stmt.exec m).value.2.env := by
  generalize hdone : (stmt.exec m).value = result
  have hdoes := does_exec m stmt
  rw [hdone] at hdoes
  cases hdoes with
  | bind _ => exact (Changes.bind m.env _ _).leads
  | _ => exact Leads.refl m.env

theorem leads_execAll (statements : List Stmt) (m : Machine) :
    m.env.Leads (execAll m statements).value.2.env := by
  induction statements generalizing m with
  | nil => exact Leads.refl m.env
  | cons stmt rest ih =>
    have hfirst := stmt.leads_exec m
    rw [value_execAll_cons]
    cases hexec : (stmt.exec m).value with
    | mk result after =>
      rw [hexec] at hfirst
      cases result with
      | error e => exact hfirst
      | ok _ => exact hfirst.trans (ih after)

namespace Session

theorem leads_execute (env : Environment) (checkpoint : List String) (program : Program)
    (sink : Sink) : env.Leads (execute env checkpoint program sink).value.2.env := by
  have hexec := leads_execAll program.statements ⟨env, sink⟩
  rw [execute, Traced.value_bind, Program.exec]
  cases hlast : (execAll ⟨env, sink⟩ program.statements).value with
  | mk result m =>
    rw [hlast] at hexec
    dsimp only
    cases m.sink.flushAfter result with
    | mk flushed sink' =>
      cases flushed with
      | ok _ => exact hexec
      | error e => exact hexec.trans (Changes.rollback _ _).leads

theorem leads_run (s : Session) (source : String) (sink : Sink) :
    s.env.Leads (s.run source sink).value.2.1.env := by
  cases hparse : (s.parseSource source).value with
  | mk result parsed =>
    have hread := (parse_of_parseSource hparse).1
    have hparsed := Parser.leads_parse Language.operates_reader
      (Lexer.feed ⟨Lexer.languageRules⟩ source) s.env
    rw [hread] at hparsed
    cases result with
    | error e =>
      rw [run_of_parse_error hparse]
      exact hparsed
    | ok program =>
      rw [run_of_parse_ok hparse]
      exact hparsed.trans (leads_execute parsed.env s.env.checkpoint program sink)

end Session

/-- A session and the checkpoints that have been taken of it, the oldest first. -/
structure Client where
  session : Session := {}
  saved : List (List String) := []

/-- What a client can do with its environment. A rollback goes to any of the checkpoints, which stay
for later; a parser may be any one whose reductions use the operations of the environment. -/
inductive Operation where
  | declare (name : String)
  | bind (name : String) (value : Value)
  | get (name : String) (position : Position)
  | checkpoint
  | rollback (index : ℕ)
  | parse (parser : Parser) (operates : ∀ n, (parser.reduction n).Operates) (feed : Feed)
  | run (source : String) (sink : Sink)
  | exec (program : Program) (sink : Sink)
  | execStmt (stmt : Stmt) (sink : Sink)
  | eval (e : Expr)

namespace Client

def env (c : Client) : Environment := c.session.env

def withEnv (c : Client) (env : Environment) : Client :=
  { c with session := { c.session with env := env } }

/-- The client after an operation, whether it succeeds or fails. -/
def perform (c : Client) : Operation → Client
  | .declare name => c.withEnv (c.env.declare name)
  | .bind name value => c.withEnv (c.env.bind name value)
  | .get _ _ => c
  | .checkpoint => { c with saved := c.saved ++ [c.env.checkpoint] }
  | .rollback index =>
    match c.saved[index]? with
    | some names => c.withEnv (c.env.rollback names)
    | none => c
  | .parse parser _ feed => c.withEnv (parser.parse feed c.env).value.2
  | .run source sink => { c with session := (c.session.run source sink).value.2.1 }
  | .exec program sink => c.withEnv (program.exec ⟨c.env, sink⟩).value.2.env
  | .execStmt stmt sink => c.withEnv (stmt.exec ⟨c.env, sink⟩).value.2.env
  | .eval _ => c

theorem leads_perform (c : Client) (operation : Operation) :
    c.env.Leads (c.perform operation).env := by
  cases operation with
  | declare name => exact (Changes.declare c.env name).leads
  | bind name value => exact (Changes.bind c.env name value).leads
  | get name position => exact Leads.refl c.env
  | checkpoint => exact Leads.refl c.env
  | rollback index =>
    rw [perform]
    cases c.saved[index]? with
    | none => exact Leads.refl c.env
    | some names => exact (Changes.rollback c.env names).leads
  | parse parser operates feed => exact Parser.leads_parse operates feed c.env
  | run source sink =>
    simp only [env, perform]
    exact c.session.leads_run source sink
  | exec program sink => exact leads_execAll program.statements ⟨c.env, sink⟩
  | execStmt stmt sink => exact stmt.leads_exec ⟨c.env, sink⟩
  | eval e => exact Leads.refl c.env

theorem leads_foldl (operations : List Operation) (c : Client) :
    c.env.Leads (operations.foldl perform c).env := by
  induction operations generalizing c with
  | nil => exact Leads.refl c.env
  | cons operation rest ih => exact (c.leads_perform operation).trans (ih (c.perform operation))

/-- Whatever operations a client has performed since its environment was new, the bound names are
declared; they stay bound and declared whatever it performs later. A rollback to any checkpoint that
it took keeps of the declared names those that were declared then or are bound now, and it keeps all
values. -/
theorem operations_keep_names (lexerReady parserReady : Bool) (operations : List Operation) :
    let c := operations.foldl perform ⟨⟨{}, lexerReady, parserReady⟩, []⟩
    (∀ name, c.env.isBound name = true → name ∈ c.env.declared) ∧
    (∀ (later : List Operation) (name : String), c.env.isBound name = true →
      (later.foldl perform c).env.isBound name = true ∧
        name ∈ (later.foldl perform c).env.declared) ∧
    ∀ (index : ℕ) (names : List String), c.saved[index]? = some names →
      (∀ name, name ∈ (c.perform (.rollback index)).env.declared ↔
        name ∈ c.env.declared ∧ (name ∈ names ∨ c.env.isBound name = true)) ∧
      (c.perform (.rollback index)).env.bindings = c.env.bindings := by
  intro c
  have hsound : c.env.Sound := (leads_foldl operations _).sound sound_empty
  refine ⟨hsound,?_,?_⟩
  · intro later name hname
    have hlater := leads_foldl later c
    have hbound := hlater.isBound hname
    exact ⟨hbound,hlater.sound hsound name hbound⟩
  · intro index names hsaved
    have hperform : (c.perform (.rollback index)).env = c.env.rollback names := by
      rw [perform, hsaved]
      rfl
    rw [hperform]
    exact ⟨fun _ => mem_declared_rollback,rfl⟩

/-- Two runs fail, the second one after it has bound `c`, and the newer checkpoint is used after the
older one. It does not bring back `b`, and it takes away `e`, which a parse has declared since. -/
theorem operations_keep_names_stale :
    let operations : List Operation := [.declare "a", .checkpoint, .declare "b", .checkpoint,
      .run "let c print d" {}, .run "let c = 'x' print c" { room := some 0 }, .rollback 0,
      .parse Language.reader Language.operates_reader ⟨[.ok ⟨.letKeyword, "let", ⟨1, 1, 0⟩⟩,
        .ok ⟨.identifier, "e", ⟨1, 5, 4⟩⟩], false⟩]
    ∃ c : Client, operations.foldl perform ⟨⟨{}, false, false⟩, []⟩ = c ∧
      c.env = ⟨["a", "c", "e"], [("c", .text "x")]⟩ ∧
      (∀ name, name ∈ (c.perform (.rollback 1)).env.declared ↔
        name ∈ ["a", "c", "e"] ∧ (name ∈ ["a", "b"] ∨ c.env.isBound name = true)) ∧
      (c.perform (.rollback 1)).env.bindings = [("c", .text "x")] ∧
      "c" ∈ ([.rollback 1, .rollback 0, .run "print b" {}].foldl perform c).env.declared := by
  intro operations
  have hkeeps := operations_keep_names false false operations
  have henv : (operations.foldl perform ⟨⟨{}, false, false⟩, []⟩).env =
      ⟨["a", "c", "e"], [("c", .text "x")]⟩ := by decide +kernel
  have hsaved : (operations.foldl perform ⟨⟨{}, false, false⟩, []⟩).saved[1]? =
      some ["a", "b"] := by decide +kernel
  refine ⟨_,rfl,henv,?_⟩
  generalize operations.foldl perform ⟨⟨{}, false, false⟩, []⟩ = c at hkeeps henv hsaved ⊢
  obtain ⟨_,hlater,hrollback⟩ := hkeeps
  obtain ⟨hdeclared,hbindings⟩ := hrollback 1 ["a", "b"] hsaved
  have hbound : c.env.isBound "c" = true := by
    rw [henv]
    rfl
  refine ⟨?_,?_,(hlater _ "c" hbound).2⟩
  · intro name
    rw [hdeclared name, henv]
  · rw [hbindings, henv]

end Client

end LetPrint

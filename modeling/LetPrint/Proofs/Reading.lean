import LetPrint.Proofs.Clauses
import LetPrint.Proofs.PostOrder

/-! # How the language is parsed

The table of the language is small enough to be written down. Whenever its parser has pulled an
item, the stacks hold the list of the finished statements and the tokens of the clause at hand. A
clause that may end is reduced only once the next item is known to continue it legally, so an error
in that item comes before an undeclared name in the clause.
-/
namespace LetPrint

namespace Language

def operandRow (target : ℕ) : Row :=
  ⟨[(.token .stringLiteral, .shift 6), (.token .undefinedLiteral, .shift 7),
    (.token .identifier, .shift 8)], [(.expr, target)]⟩

def closingRow (production : ℕ) : Row :=
  ⟨[(.token .printKeyword, .reduce production), (.token .letKeyword, .reduce production),
    (.endOfInput, .reduce production)], []⟩

def table : Table where
  rows :=
    [⟨[(.token .printKeyword, .shift 1), (.token .letKeyword, .shift 2)],
      [(.program, 3), (.stmtList, 4), (.stmt, 5)]⟩,
     operandRow 9,
     ⟨[(.token .identifier, .shift 10)], []⟩,
     ⟨[(.endOfInput, .accept)], []⟩,
     ⟨[(.endOfInput, .reduce 1), (.token .printKeyword, .shift 1), (.token .letKeyword, .shift 2)],
      [(.stmt, 11)]⟩,
     closingRow 2, closingRow 7, closingRow 8, closingRow 9, closingRow 4,
     ⟨(closingRow 5).actions ++ [(.token .assignOperator, .shift 12)], []⟩,
     closingRow 3, operandRow 13, closingRow 6]

theorem build_grammar : Table.build grammar = .ok table := by decide +kernel

def reader : Parser := ⟨grammar, table, phraseReductions (rules.map (·.2))⟩

theorem parser_value : parser.value = .ok reader := by
  have hb : Table.ofAutomaton grammar (Automaton.canonical grammar).merged = .ok table :=
    build_grammar
  simp only [parser, Parser.build, hb]
  rfl

/-- How many reductions may still come, by the state on top of the stack. -/
def height (state : ℕ) : ℕ := [0, 0, 0, 1, 2, 3, 5, 5, 5, 4, 4, 3, 0, 4].getD state 0

theorem height_lt {state below n target : ℕ} {t : Terminal}
    (ha : table.action state t = some (.reduce n))
    (hg : table.goto below (grammar.production n).lhs = some target) :
    height target < height state := by
  have hcheck : ∀ state < 14, ∀ t ∈ Terminal.all, ∀ n < 10,
      table.action state t = some (.reduce n) → ∀ below < 14,
      ∀ target ∈ table.goto below (grammar.production n).lhs, height target < height state := by
    decide +kernel
  have hn : n < 10 :=
    (Grammar.validItem_of_mem_itemsAt (Table.item_of_action_reduce build_grammar ha).2).1
  have hstate : state < 14 := by
    by_contra hle
    have hnone : table.rows[state]? = none := List.getElem?_eq_none (Nat.le_of_not_lt hle)
    simp [Table.action, hnone] at ha
  have hbelow : below < 14 := by
    by_contra hle
    have hnone : table.rows[below]? = none := List.getElem?_eq_none (Nat.le_of_not_lt hle)
    simp [Table.goto, hnone] at hg
  exact hcheck state hstate t t.mem_all n hn ha below hbelow target hg

theorem settles (t : Terminal) (states : List ℕ) : reader.Settles t states := by
  have hless : Subrelation (fun after before => reader.Reduces t before after)
      (InvImage (· < ·) fun states : List ℕ => height (states.headD 0)) := by
    intro after before h
    unfold Parser.Reduces Parser.reduceStates at h
    split at h
    · next n ha =>
      simp only at h
      split_ifs at h
      obtain ⟨target,hg,rfl⟩ := Option.map_eq_some_iff.mp h
      exact height_lt ha hg
    · cases h
  exact hless.accessible ((InvImage.wf _ Nat.lt_wfRel.wf).apply states)

end Language

def Operand.state : Operand → ℕ
  | text _ => 6
  | undefined _ => 7
  | name _ => 8

def Operand.production : Operand → ℕ
  | text _ => 7
  | undefined _ => 8
  | name _ => 9

/-- The states above those of the finished statements, the top first. -/
def Stage.states : Stage → List ℕ
  | idle => []
  | printing _ => [1]
  | letting _ => [2]
  | naming _ _ => [10, 2]
  | assigning _ _ _ => [12, 10, 2]
  | printed _ operand => [operand.state, 1]
  | assigned _ _ _ initializer => [initializer.state, 12, 10, 2]

namespace Scan

def base (s : Scan) : List ℕ := if s.done = [] then [0] else [4, 0]

def stmtState (s : Scan) : ℕ := if s.done = [] then 5 else 11

def list (s : Scan) : List Fragment :=
  if s.done = [] then [] else [.stmtList (s.done.map Clause.stmt)]

def environment (s : Scan) (env : Environment) : Environment := s.done.foldl Clause.declareIn env

def lastEnd (s : Scan) : Option Position := s.tokens.getLast?.map (·.span.stop)

def config (s : Scan) (env : Environment) (lookahead : Option Token) (feed : Feed) : Config where
  states := s.stage.states ++ s.base
  values := (s.stage.tokens.map .token).reverse ++ s.list
  env := s.environment env
  lookahead := lookahead
  feed := feed
  lastEnd := s.lastEnd

def stray? (s : Scan) (env : Environment) : Option (Lexeme .identifier) :=
  s.stage.pending?.bind (·.stray? (s.environment env))

def expected (s : Scan) : List String := s.stage.expects.map Terminal.name

/-- How reading goes on with the items that are still to come. -/
def outcome (env : Environment) : Scan → List (Except Error Token) → Outcome × Environment
  | s, [] =>
    match s.stage.pending?, s.stray? env with
    | none, _ => (.failed ⟨.unexpectedEnd s.expected, s.lastEnd⟩, s.environment env)
    | some _, some identifier => (.failed identifier.notDefined, s.environment env)
    | some clause, none =>
      let statements := (s.done ++ [clause]).map Clause.stmt
      (.accepted (.program ⟨statements, Phrase.spanOf statements⟩),
        clause.declareIn (s.environment env))
  | s, .error error :: _ => (.failed error, s.environment env)
  | s, .ok token :: rest =>
    match s.next token, s.stray? env with
    | none, _ =>
      (.failed (.located (.unexpectedToken token.text s.expected) token.position),
        s.environment env)
    | some _, some identifier => (.failed identifier.notDefined, s.environment env)
    | some s', none => s'.outcome env rest

end Scan

namespace Language
variable {env : Environment}

/-- What a parse that has read so far ends with, given the items that are still to be pulled. -/
def EndsAt (s : Scan) (env : Environment) (announced : Bool) (items : List (Except Error Token))
    (result : Outcome × Environment) : Prop :=
  match items with
  | [] => reader.Ends (s.config env none ⟨[], announced⟩) result
  | .ok token :: rest => reader.Ends (s.config env (some token) ⟨rest, announced⟩) result
  | .error error :: _ => result = (.failed error, s.environment env)

theorem action_of_shift {s : Scan} {token : Token} {stage : Stage} {lookahead : Option Token}
    {feed : Feed} (h : s.stage.shift token = some stage) : ∃ target,
      stage.states = target :: s.stage.states ∧
      table.action (s.config env lookahead feed).top token.terminal = some (.shift target) := by
  obtain ⟨done,current⟩ := s
  obtain ⟨kind,text,position⟩ := token
  cases done <;> cases current <;> cases kind <;> cases h <;> exact ⟨_,rfl,rfl⟩

theorem ends_of_shift {s : Scan} {token : Token} {stage : Stage} {announced : Bool}
    {rest : List (Except Error Token)} {result : Outcome × Environment}
    (h : s.stage.shift token = some stage)
    (hends : EndsAt ⟨s.done, stage⟩ env announced rest result) :
    reader.Ends (s.config env (some token) ⟨rest, announced⟩) result := by
  let c := s.config env (some token) ⟨rest, announced⟩
  obtain ⟨target,hstates,ha⟩ : ∃ target, stage.states = target :: s.stage.states ∧
      table.action c.top token.terminal = some (.shift target) := action_of_shift h
  have hafter : ∀ next items, c.afterShift token target next items =
      Scan.config ⟨s.done, stage⟩ env next ⟨items, announced⟩ := by
    intro next items
    have htokens := Stage.tokens_of_shift h
    simp [c, Config.afterShift, Scan.config, hstates, htokens, Scan.lastEnd, Scan.tokens,
      Scan.base, Scan.list, Scan.environment]
  have hstep : (reader.step c).value = (Parser.shift c target).value := by
    have haction : reader.table.action c.top c.terminal = some (.shift target) := ha
    rw [Parser.value_step, haction]
  rw [Parser.value_shift] at hstep
  cases rest with
  | nil =>
    have hnext : (reader.step c).value = .shifted (c.afterShift token target none []) := hstep
    rw [hafter] at hnext
    exact Parser.Ends.of_reflTransGen (.single (Or.inl hnext)) hends
  | cons item rest =>
    cases item with
    | ok next =>
      have hnext : (reader.step c).value = .shifted (c.afterShift token target (some next) rest) :=
        hstep
      rw [hafter] at hnext
      exact Parser.Ends.of_reflTransGen (.single (Or.inl hnext)) hends
    | error error =>
      have hresult : result = (.failed error, s.environment env) := hends
      rw [hresult]
      exact ⟨c,.refl,hstep⟩

/-- Where a token or the end cannot follow, there is no action, and the actions that exist are for
what the stage expects. -/
theorem expected_top {s : Scan} {lookahead : Option Token} {feed : Feed}
    (hidle : s.stage = .idle → s.done = []) :
    table.expected (s.config env lookahead feed).top = s.stage.expects := by
  obtain ⟨done,stage⟩ := s
  cases stage with
  | idle =>
    obtain rfl : done = [] := hidle rfl
    rfl
  | printed keyword operand => cases operand <;> rfl
  | assigned keyword name operator initializer => cases initializer <;> rfl
  | _ => rfl

theorem action_eq_none {s : Scan} {lookahead : Option Token} {feed : Feed}
    (hidle : s.stage = .idle → s.done = []) {t : Terminal} (h : t ∉ s.stage.expects) :
    table.action (s.config env lookahead feed).top t = none := by
  have htop : table.expected (s.config env lookahead feed).top = s.stage.expects :=
    expected_top hidle
  rw [← htop] at h
  simpa [Table.expected] using h

theorem ends_of_unexpected {s : Scan} {lookahead : Option Token} {feed : Feed}
    (hidle : s.stage = .idle → s.done = [])
    (h : (s.config env lookahead feed).terminal ∉ s.stage.expects) :
    reader.Ends (s.config env lookahead feed)
      (.failed (match lookahead with
        | some token => .located (.unexpectedToken token.text s.expected) token.position
        | none => ⟨.unexpectedEnd s.expected, s.lastEnd⟩), s.environment env) := by
  refine ⟨_,.refl,?_⟩
  have haction : reader.table.action (s.config env lookahead feed).top
      (s.config env lookahead feed).terminal = none := action_eq_none hidle h
  have hexpected : reader.table.expected (s.config env lookahead feed).top = s.stage.expects :=
    expected_top hidle
  rw [Parser.value_step, haction]
  cases lookahead with
  | none =>
    simp only [Parser.unexpected, hexpected]
    rfl
  | some token =>
    simp only [Parser.unexpected, hexpected]
    rfl

def closing : List Terminal := [.token .printKeyword, .token .letKeyword, .endOfInput]

theorem action_closingRow {n state : ℕ} {t : Terminal} (ht : t ∈ closing)
    (hrow : table.rows[state]? = some (closingRow n)) :
    table.action state t = some (.reduce n) := by
  simp only [Table.action, hrow]
  simp only [closing, List.mem_cons, List.not_mem_nil, or_false] at ht
  rcases ht with rfl | rfl | rfl <;> rfl

theorem action_naming {t : Terminal} (ht : t ∈ closing) :
    table.action 10 t = some (.reduce 5) := by
  simp only [closing, List.mem_cons, List.not_mem_nil, or_false] at ht
  rcases ht with rfl | rfl | rfl <;> rfl

theorem value_reduction_operand (o : Operand) (env : Environment) :
    (reader.reduction o.production env [.token o.token]).value =
      match o.stray? env with
      | none => (.ok (.expr o.expr), env)
      | some identifier => (.error identifier.notDefined, env) := by
  cases o with
  | text literal => rfl
  | undefined literal => rfl
  | name identifier =>
    change (Phrase.referenceReduction env [.token identifier.token]).value = _
    by_cases h : env.isDeclared identifier.text
    · simp [Phrase.referenceReduction, Phrase.onlyToken, Fragment.toToken, Lexeme.token, h,
        Operand.expr, Operand.stray?]
    · simp [Phrase.referenceReduction, Phrase.onlyToken, Fragment.toToken, Lexeme.token, h,
        Operand.stray?, Lexeme.notDefined]

section Reductions
variable {c : Config} {states : List ℕ} {values : List Fragment} (ht : c.terminal ∈ closing)
include ht

/-- An operand becomes an expression, unless it is an undeclared identifier. -/
theorem step_operand {o : Operand} {below target : ℕ}
    (hs : c.states = o.state :: below :: states) (hv : c.values = .token o.token :: values)
    (hg : table.goto below .expr = some target) : (reader.step c).value =
      match o.stray? c.env with
      | none => .reduced { c with states := target :: below :: states,
                                  values := .expr o.expr :: values }
      | some identifier => .halted (.failed identifier.notDefined) c.env := by
  have ha : table.action c.top c.terminal = some (.reduce o.production) := by
    rw [Config.top, hs]
    cases o <;> exact action_closingRow ht rfl
  have hlhs : (grammar.production o.production).lhs = .expr := by cases o <;> rfl
  have hlen : (grammar.rhs o.production).length = 1 := by cases o <;> rfl
  have hr := value_reduction_operand o c.env
  cases hstray : o.stray? c.env with
  | none =>
    rw [hstray] at hr
    rw [← hlhs] at hg
    exact Parser.step_reduce [o.state] [.token o.token] ha hs hlen.symm (by simp) hv hlen.symm hr hg
  | some identifier =>
    rw [hstray] at hr
    exact Parser.step_reduce_error [o.state] [.token o.token] ha hs hlen.symm (by simp) hv
      hlen.symm hr

end Reductions

section Closing
variable {s : Scan} {clause : Clause} {lookahead : Option Token} {feed : Feed}

theorem goto_stmt (s : Scan) : table.goto (s.base.headD 0) .stmt = some s.stmtState := by
  unfold Scan.base Scan.stmtState
  split_ifs <;> rfl

theorem base_ne_nil (s : Scan) : s.base ≠ [] := by
  unfold Scan.base
  split_ifs <;> simp

def stated (s : Scan) (clause : Clause) (env : Environment) (lookahead : Option Token)
    (feed : Feed) : Config :=
  { s.config env lookahead feed with
    states := s.stmtState :: s.base
    values := .stmt clause.stmt :: s.list
    env := clause.declareIn (s.environment env) }

theorem clause_steps (hp : s.stage.pending? = some clause)
    (ht : (s.config env lookahead feed).terminal ∈ closing)
    (hstray : clause.stray? (s.environment env) = none) :
    Relation.ReflTransGen reader.Next (s.config env lookahead feed)
      (stated s clause env lookahead feed) := by
  obtain ⟨done,stage⟩ := s
  obtain rfl : stage = clause.stage := Stage.eq_stage_of_pending? hp
  cases clause with
  | print keyword operand =>
    have hoperand := step_operand ht (o := operand) rfl rfl rfl
    have hnone : operand.stray? (Scan.config _ env lookahead feed).env = none := hstray
    rw [hnone] at hoperand
    refine .head (Or.inr hoperand) (.single (Or.inr ?_))
    refine Parser.step_reduce (n := 4) [9, 1] [.token keyword.token, .expr operand.expr] ?_ rfl rfl
      (base_ne_nil _) rfl rfl rfl (goto_stmt _)
    exact action_closingRow ht rfl
  | declare keyword name =>
    refine .single (Or.inr ?_)
    refine Parser.step_reduce (n := 5) [10, 2] [.token keyword.token, .token name.token] ?_ rfl rfl
      (base_ne_nil _) rfl rfl rfl (goto_stmt _)
    exact action_naming ht
  | define keyword name operator initializer =>
    have hoperand := step_operand ht (o := initializer) rfl rfl rfl
    have hnone : initializer.stray? (Scan.config _ env lookahead feed).env = none := hstray
    rw [hnone] at hoperand
    refine .head (Or.inr hoperand) (.single (Or.inr ?_))
    refine Parser.step_reduce (n := 6) [13, 12, 10, 2] [.token keyword.token, .token name.token,
      .token operator.token, .expr initializer.expr] ?_ rfl rfl (base_ne_nil _) rfl rfl rfl
      (goto_stmt _)
    exact action_closingRow ht rfl

theorem next_closed (hp : s.stage.pending? = some clause)
    (ht : (s.config env lookahead feed).terminal ∈ closing) :
    reader.Next (stated s clause env lookahead feed)
      (Scan.config ⟨s.done ++ [clause], .idle⟩ env lookahead feed) := by
  have hafter : Scan.config ⟨s.done ++ [clause], .idle⟩ env lookahead feed =
      { stated s clause env lookahead feed with
        states := [4, 0]
        values := [.stmtList ((s.done ++ [clause]).map Clause.stmt)] } := by
    have htokens : s.stage.tokens = clause.tokens := by
      rw [Stage.eq_stage_of_pending? hp, Stage.tokens_stage]
    simp [stated, Scan.config, Stage.states, Scan.base, Scan.list, Scan.environment,
      Scan.lastEnd, Scan.tokens, htokens]
  rw [hafter]
  refine Or.inr ?_
  by_cases hdone : s.done = []
  · have hs : (stated s clause env lookahead feed).states = [5] ++ [0] := by
      simp [stated, Scan.stmtState, Scan.base, hdone]
    have hv : (stated s clause env lookahead feed).values = [.stmt clause.stmt].reverse ++ [] := by
      simp [stated, Scan.list, hdone]
    have ha : table.action (stated s clause env lookahead feed).top
        (stated s clause env lookahead feed).terminal = some (.reduce 2) := by
      rw [Config.top, hs]
      exact action_closingRow ht rfl
    rw [hdone]
    exact Parser.step_reduce (n := 2) [5] [.stmt clause.stmt] ha hs rfl (by simp) hv rfl rfl rfl
  · have hs : (stated s clause env lookahead feed).states = [11, 4] ++ [0] := by
      simp [stated, Scan.stmtState, Scan.base, hdone]
    have hv : (stated s clause env lookahead feed).values =
        [.stmtList (s.done.map Clause.stmt), .stmt clause.stmt].reverse ++ [] := by
      simp [stated, Scan.list, hdone]
    have ha : table.action (stated s clause env lookahead feed).top
        (stated s clause env lookahead feed).terminal = some (.reduce 3) := by
      rw [Config.top, hs]
      exact action_closingRow ht rfl
    rw [List.map_append]
    exact Parser.step_reduce (n := 3) [11, 4] _ ha hs rfl (by simp) hv rfl rfl rfl

/-- A clause that may end here and refers to no undeclared name joins the finished ones. -/
theorem steps_of_closing (hp : s.stage.pending? = some clause)
    (ht : (s.config env lookahead feed).terminal ∈ closing) (hstray : s.stray? env = none) :
    Relation.ReflTransGen reader.Next (s.config env lookahead feed)
      (Scan.config ⟨s.done ++ [clause], .idle⟩ env lookahead feed) := by
  have hclause : clause.stray? (s.environment env) = none := by
    simpa [Scan.stray?, hp] using hstray
  exact (clause_steps hp ht hclause).tail (next_closed hp ht)

/-- A clause that refers to an undeclared name fails where it may end. -/
theorem ends_of_stray {identifier : Lexeme .identifier}
    (ht : (s.config env lookahead feed).terminal ∈ closing)
    (hstray : s.stray? env = some identifier) : reader.Ends (s.config env lookahead feed)
      (.failed identifier.notDefined, s.environment env) := by
  obtain ⟨clause,hp,hclause⟩ := Option.bind_eq_some_iff.mp hstray
  obtain ⟨done,stage⟩ := s
  obtain rfl : stage = clause.stage := Stage.eq_stage_of_pending? hp
  cases clause with
  | print keyword operand =>
    have hoperand := step_operand ht (o := operand) rfl rfl rfl
    have hsome : operand.stray? (Scan.config _ env lookahead feed).env = some identifier := hclause
    rw [hsome] at hoperand
    exact ⟨_,.refl,hoperand⟩
  | declare keyword name => cases hclause
  | define keyword name operator initializer =>
    have hoperand := step_operand ht (o := initializer) rfl rfl rfl
    have hsome : initializer.stray? (Scan.config _ env lookahead feed).env = some identifier :=
      hclause
    rw [hsome] at hoperand
    exact ⟨_,.refl,hoperand⟩

end Closing

theorem ends_of_accept (env : Environment) {done : List Clause} (hdone : done ≠ []) (feed : Feed) :
    reader.Ends (Scan.config ⟨done, .idle⟩ env none feed)
      (.accepted (.program ⟨done.map Clause.stmt, Phrase.spanOf (done.map Clause.stmt)⟩),
        done.foldl Clause.declareIn env) := by
  let c := Scan.config ⟨done, .idle⟩ env none feed
  have hs : c.states = [4] ++ [0] := by simp [c, Scan.config, Stage.states, Scan.base, hdone]
  have hv : c.values = [.stmtList (done.map Clause.stmt)].reverse ++ [] := by
    simp [c, Scan.config, Scan.list, hdone]
  have ha : table.action c.top c.terminal = some (.reduce 1) := by
    rw [Config.top, hs]
    rfl
  have hreduce : (reader.step c).value = _ :=
    Parser.step_reduce (n := 1) [4] [.stmtList (done.map Clause.stmt)] ha hs rfl (by simp) hv rfl
      rfl rfl
  refine ⟨_,.single (Or.inr hreduce),?_⟩
  rw [Parser.value_step]
  rfl

theorem stray?_of_shift {s : Scan} {token : Token} {stage : Stage}
    (h : s.stage.shift token = some stage) : s.stray? env = none := by
  obtain ⟨done,current⟩ := s
  obtain ⟨kind,text,position⟩ := token
  cases current <;> cases kind <;> cases h <;> rfl

theorem mem_closing_of_shift {token : Token} {stage : Stage}
    (h : Stage.idle.shift token = some stage) : token.terminal ∈ closing := by
  obtain ⟨kind,text,position⟩ := token
  cases kind <;> cases h <;> simp [closing]

theorem ends_at_end {s : Scan} (hidle : s.stage = .idle → s.done = []) (announced : Bool) :
    reader.Ends (s.config env none ⟨[], announced⟩) (s.outcome env []) := by
  unfold Scan.outcome
  cases hp : s.stage.pending? with
  | none =>
    refine ends_of_unexpected hidle ?_
    intro hmem
    obtain ⟨clause,hc⟩ := Stage.end_mem_expects.mp hmem
    rw [hp] at hc
    cases hc
  | some clause =>
    have ht : (s.config env none ⟨[], announced⟩).terminal ∈ closing := by
      simp [closing, Scan.config, Config.terminal]
    cases hstray : s.stray? env with
    | some identifier => exact ends_of_stray ht hstray
    | none =>
      refine Parser.Ends.of_reflTransGen (steps_of_closing hp ht hstray) ?_
      have hdone : s.done ++ [clause] ≠ [] := by simp
      have haccept := ends_of_accept env hdone ⟨[], announced⟩
      rw [List.foldl_append] at haccept
      exact haccept

theorem ends_at_token {s : Scan} (hidle : s.stage = .idle → s.done = []) {announced : Bool}
    {token : Token} {rest : List (Except Error Token)}
    (hrest : ∀ s', s.next token = some s' → EndsAt s' env announced rest (s'.outcome env rest)) :
    reader.Ends (s.config env (some token) ⟨rest, announced⟩)
      (s.outcome env (.ok token :: rest)) := by
  unfold Scan.outcome
  cases hn : s.next token with
  | none =>
    refine ends_of_unexpected hidle ?_
    intro hmem
    obtain ⟨s',hs'⟩ := Scan.token_mem_expects.mp hmem
    rw [hn] at hs'
    cases hs'
  | some s' =>
    have hends := hrest s' hn
    obtain ⟨done',stage'⟩ := s'
    rcases Scan.next_cases hn with ⟨rfl,hshift⟩ | ⟨clause,hp,_,hfresh,rfl⟩
    · rw [stray?_of_shift hshift]
      exact ends_of_shift hshift hends
    -- the token starts a clause, so the one at hand is reduced before the token is shifted
    · have ht : (s.config env (some token) ⟨rest, announced⟩).terminal ∈ closing :=
        mem_closing_of_shift hfresh
      cases hstray : s.stray? env with
      | some identifier => exact ends_of_stray ht hstray
      | none =>
        refine Parser.Ends.of_reflTransGen (steps_of_closing hp ht hstray) ?_
        exact ends_of_shift hfresh hends

/-- Wherever a parse stands between two items, it ends as reading does. -/
theorem ends_outcome (announced : Bool) (items : List (Except Error Token)) {s : Scan}
    (hidle : s.stage = .idle → s.done = []) :
    EndsAt s env announced items (s.outcome env items) := by
  induction items generalizing s with
  | nil => exact ends_at_end hidle announced
  | cons item rest ih =>
    cases item with
    | error error => rfl
    | ok token =>
      refine ends_at_token hidle fun s' hn => ?_
      exact ih fun hstage => absurd hstage (Scan.stage_ne_idle_of_next hn)

theorem drive_ends (announced : Bool) (items : List (Except Error Token)) (env : Environment) :
    EndsAt {} env announced items (reader.drive ⟨items, announced⟩ env).value := by
  have hzero : ∀ lookahead feed, ∀ q ∈ (Scan.config {} env lookahead feed).states,
      q < reader.table.stateCount := by
    intro lookahead feed q hq
    rw [List.mem_singleton.mp hq]
    decide
  have hruns : ∀ (shifts : ℕ) (lookahead : Option Token) (feed : Feed),
      (Scan.config {} env lookahead feed).remaining < shifts →
      reader.Ends (Scan.config {} env lookahead feed)
        (reader.run shifts (Scan.config {} env lookahead feed)).value := by
    intro shifts lookahead feed hroom
    exact Parser.run_ends (p := reader) build_grammar (hzero lookahead feed) hroom
      fun c _ => settles _ _
  have hinitial : ∀ lookahead feed,
      Parser.initial env lookahead feed = Scan.config {} env lookahead feed := fun _ _ => rfl
  rw [Parser.value_drive]
  simp only [hinitial]
  cases items with
  | nil => exact hruns 1 none ⟨[], announced⟩ (by simp [Scan.config, Config.remaining])
  | cons item rest =>
    cases item with
    | error error => rfl
    | ok token =>
      refine hruns (rest.length + 2) (some token) ⟨rest, announced⟩ ?_
      simp [Scan.config, Config.remaining]

theorem value_drive_reader (announced : Bool) (items : List (Except Error Token))
    (env : Environment) :
    (reader.drive ⟨items, announced⟩ env).value = Scan.outcome env {} items := by
  have hdrive := drive_ends announced items env
  have houtcome : EndsAt {} env announced items (Scan.outcome env {} items) :=
    ends_outcome announced items fun _ => rfl
  cases items with
  | nil => exact Parser.Ends.unique hdrive houtcome
  | cons item rest =>
    cases item with
    | error error => exact hdrive
    | ok token => exact Parser.Ends.unique hdrive houtcome

end Language

end LetPrint

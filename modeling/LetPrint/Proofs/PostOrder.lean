import LetPrint.Proofs.Runs

/-! # Parsing evaluates parse trees

Evaluating a tree goes through it from left to right and bottom up, and the first reduction that
fails ends it. A parser of a conflict-free grammar does the same on the yield of the tree, although
it never builds one: the item that calls for a tree stays under the dot while the tree is read.
-/
namespace LetPrint
variable {g : Grammar}

abbrev Token.terminal (token : Token) : Terminal := .token token.kind

mutual

/-- The value of a tree and the environment after it, or the first error of a reduction. -/
def Tree.eval (reduction : ℕ → Reduction) :
    {x : Symbol} → Tree g x → Environment → Except Error Fragment × Environment
  | _, .leaf token, env => (.ok (.token token), env)
  | _, .node n children, env =>
    match children.eval reduction env with
    | (.ok values, after) => (reduction n after values).value
    | (.error error, after) => (.error error, after)

def Forest.eval (reduction : ℕ → Reduction) :
    {xs : List Symbol} → Forest g xs → Environment → Except Error (List Fragment) × Environment
  | _, .nil, env => (.ok [], env)
  | _, .cons tree rest, env =>
    match tree.eval reduction env with
    | (.error error, after) => (.error error, after)
    | (.ok value, after) =>
      match rest.eval reduction after with
      | (.error error, last) => (.error error, last)
      | (.ok values, last) => (.ok (value :: values), last)

end

def Outcome.ofResult : Except Error Fragment → Outcome
  | .ok value => .accepted value
  | .error error => .failed error

theorem Outcome.toProgram_ofResult (result : Except Error Fragment) :
    (ofResult result).toProgram = result.bind Fragment.toProgram := by
  cases result <;> rfl

namespace Config

/-- The tokens that are looked at or still to come, with no error among them. -/
def Reads (c : Config) (tokens : List Token) : Prop :=
  c.lookahead = tokens.head? ∧ c.feed.items = tokens.tail.map .ok

theorem Reads.terminal_eq {c : Config} {tokens : List Token} (h : c.Reads tokens) :
    c.terminal = (tokens.map Token.terminal).headD .endOfInput := by
  unfold terminal
  rw [h.1]
  cases tokens <;> rfl

/-- One configuration is another with states and values pushed, at later tokens. -/
structure Pushed (c' c : Config) (states : List ℕ) (values : List Fragment) (env : Environment)
    (rest : List Token) : Prop where
  states_eq : c'.states = states ++ c.states
  values_eq : c'.values = values.reverse ++ c.values
  env_eq : c'.env = env
  reads : c'.Reads rest

theorem Pushed.cons {c c₁ c₂ : Config} {target : ℕ} {states : List ℕ} {value : Fragment}
    {values : List Fragment} {env env' : Environment} {tokens rest : List Token}
    (h₁ : c₁.Pushed c [target] [value] env tokens) (h₂ : c₂.Pushed c₁ states values env' rest) :
    c₂.Pushed c (states ++ [target]) (value :: values) env' rest where
  states_eq := by simp [h₂.states_eq, h₁.states_eq]
  values_eq := by simp [h₂.values_eq, h₁.values_eq]
  env_eq := h₂.env_eq
  reads := h₂.reads

end Config

abbrev following (tokens : List Token) : Terminal :=
  (tokens.map Token.terminal).headD .endOfInput

theorem following_append (tokens rest : List Token) :
    following (tokens ++ rest) = (tokens.map Token.terminal).headD (following rest) := by
  cases tokens <;> rfl

/-- An item before a nonterminal calls for all its productions, with what follows the trees of the
symbols behind it as lookahead. -/
theorem Grammar.called_mem_itemsAt {state : ℕ} {i : Item} {x : Symbol} {rest : List Token}
    (hi : i ∈ g.lalr.itemsAt state) (hx : g.next i = some x)
    (hrest : i.lookahead = following rest) (behind : Forest g (g.beyond i)) {n : ℕ}
    (hn : n < g.productions.length) (hlhs : .nonTerminal (g.production n).lhs = x) :
    ⟨n, 0, following (behind.tokens ++ rest)⟩ ∈ g.lalr.itemsAt state := by
  refine itemsAt_closed hi (mem_predictions.mpr ⟨(g.production n).lhs,?_,rfl,?_,?_⟩)
  · rw [hx, hlhs]
  · exact mem_productionsOf.mpr ⟨hn,rfl⟩
  · have hderives : g.Derives (g.beyond i) ((behind.tokens.map Token.terminal).map .terminal) := by
      rw [List.map_map]
      exact behind.derives
    rw [following_append, ← hrest]
    exact FirstSets.headD_mem_ofSequence i.lookahead hderives

namespace Parser
variable {p : Parser} {c : Config}

theorem step_of_action_shift {token : Token} {rest : List Token} {target : ℕ}
    (hreads : c.Reads (token :: rest))
    (ha : p.table.action c.top token.terminal = some (.shift target)) :
    ∃ c', p.Next c c' ∧ c'.Pushed c [target] [.token token] c.env rest := by
  have hterminal : c.terminal = token.terminal := hreads.terminal_eq
  have hvalue := value_step p c
  rw [hterminal, ha] at hvalue
  simp only [value_shift, hreads.1, List.head?_cons, hreads.2, List.tail_cons] at hvalue
  cases rest with
  | nil => exact ⟨_,Or.inl hvalue,rfl,rfl,rfl,rfl,rfl⟩
  | cons next rest => exact ⟨_,Or.inl hvalue,rfl,rfl,rfl,rfl,rfl⟩

/-- A reduction with its values on the stack calls its builder, then pushes or fails. -/
theorem step_of_action_reduce {n target : ℕ} {states : List ℕ} {below : Config}
    {values : List Fragment} {env : Environment} {rest : List Token}
    (hpushed : c.Pushed below states values env rest)
    (hstates : states.length = (p.grammar.rhs n).length)
    (hvalues : values.length = (p.grammar.rhs n).length) (hbelow : below.states ≠ [])
    (ha : p.table.action c.top c.terminal = some (.reduce n))
    (hgoto : p.table.goto below.top (p.grammar.production n).lhs = some target) :
    match (p.reduction n env values).value with
    | (.ok value, after) => ∃ c', p.Next c c' ∧ c'.Pushed below [target] [value] after rest
    | (.error error, after) => p.Ends c (.failed error, after) := by
  have hred : (p.reduction n c.env values).value = (p.reduction n env values).value := by
    rw [hpushed.env_eq]
  cases hr : (p.reduction n env values).value with
  | mk result after =>
    rw [hr] at hred
    cases result with
    | ok value =>
      exact ⟨_,Or.inr (step_reduce states values ha hpushed.states_eq hstates hbelow
        hpushed.values_eq hvalues hred hgoto),rfl,rfl,rfl,hpushed.reads⟩
    | error error =>
      exact ⟨c,Relation.ReflTransGen.refl,step_reduce_error states values ha
        hpushed.states_eq hstates hbelow hpushed.values_eq hvalues hred⟩

mutual

/-- Where an edge with the symbol of a tree starts and its productions are called for, the parser
carries out the evaluation of the tree. -/
theorem tree_runs (hb : Table.build p.grammar = .ok p.table) (hstart : p.grammar.StartFree)
    {x : Symbol} : (tree : Tree p.grammar x) → ∀ (c : Config) (rest : List Token) (target : ℕ),
    c.states ≠ [] → c.Reads (tree.tokens ++ rest) →
    (p.grammar.lalr.edgesAt c.top).lookup x = some target →
    (∀ n < p.grammar.productions.length, .nonTerminal (p.grammar.production n).lhs = x →
      ⟨n, 0, following rest⟩ ∈ p.grammar.lalr.itemsAt c.top) →
    match tree.eval p.reduction c.env with
    | (.ok value, env) =>
      ∃ c', Relation.ReflTransGen p.Next c c' ∧ c'.Pushed c [target] [value] env rest
    | (.error error, env) => p.Ends c (.failed error, env)
  | .leaf token, c, rest, target, _, hreads, hedge, _ => by
    obtain ⟨c',hnext,hpushed⟩ := step_of_action_shift hreads (Table.action_shift_of_edge hb hedge)
    exact ⟨c',Relation.ReflTransGen.single hnext,hpushed⟩
  | .node n children, c, rest, target, hc, hreads, hedge, hcalled => by
    -- a complete item of production zero would accept, but no edge has `start` as its symbol
    have hn : n.val ≠ 0 := by
      intro hzero
      refine hstart.edge_ne hedge ?_
      rw [hzero]
      rfl
    have hruns := forest_runs hb hstart children c rest n 0 hc hreads (hcalled n n.isLt rfl) rfl
    cases hev : children.eval p.reduction c.env with
    | mk result env =>
      rw [hev] at hruns
      cases result with
      | error error => simpa only [Tree.eval, hev] using hruns
      | ok values =>
        obtain ⟨c',states,hsteps,hpushed,hstates,hvalues,hitem⟩ := hruns
        have ha : p.table.action c'.top c'.terminal = some (.reduce n) := by
          rw [hpushed.reads.terminal_eq]
          exact Table.action_reduce hb hitem (by simp [Grammar.next]) hn
        have hstep := step_of_action_reduce hpushed hstates hvalues hc ha
          ((Table.goto_eq_lookup hb _ _).trans hedge)
        simp only [Tree.eval, hev]
        cases hr : (p.reduction n env values).value with
        | mk result after =>
          rw [hr] at hstep
          cases result with
          | ok value =>
            obtain ⟨c'',hnext,hpushed'⟩ := hstep
            exact ⟨c'',hsteps.tail hnext,hpushed'⟩
          | error error => exact Ends.of_reflTransGen hsteps hstep

/-- Where an item has its dot before the symbols of a forest, the parser carries out the evaluation
of the forest and moves the dot behind them. -/
theorem forest_runs (hb : Table.build p.grammar = .ok p.table) (hstart : p.grammar.StartFree)
    {xs : List Symbol} : (forest : Forest p.grammar xs) →
    ∀ (c : Config) (rest : List Token) (n d : ℕ), c.states ≠ [] →
    c.Reads (forest.tokens ++ rest) → ⟨n, d, following rest⟩ ∈ p.grammar.lalr.itemsAt c.top →
    (p.grammar.rhs n).drop d = xs →
    match forest.eval p.reduction c.env with
    | (.ok values, env) =>
      ∃ c' states, Relation.ReflTransGen p.Next c c' ∧ c'.Pushed c states values env rest ∧
        states.length = xs.length ∧ values.length = xs.length ∧
        ⟨n, d + xs.length, following rest⟩ ∈ p.grammar.lalr.itemsAt c'.top
    | (.error error, env) => p.Ends c (.failed error, env)
  | .nil, c, rest, n, d, _, hreads, hitem, _ =>
    ⟨c,[],Relation.ReflTransGen.refl,⟨rfl,rfl,rfl,hreads⟩,rfl,rfl,hitem⟩
  | @Forest.cons _ x xs tree forest, c, rest, n, d, hc, hreads, hitem, hdrop => by
    have hx : (p.grammar.rhs n)[d]? = some x := by
      rw [← List.head?_drop, hdrop]
      rfl
    have hbeyond : (p.grammar.rhs n).drop (d + 1) = xs := by
      rw [← List.tail_drop, hdrop]
      rfl
    obtain ⟨target,hedge,hadvance⟩ := Grammar.exists_edge hitem hx
    have hcalled : ∀ m < p.grammar.productions.length,
        .nonTerminal (p.grammar.production m).lhs = x →
        ⟨m, 0, following (forest.tokens ++ rest)⟩ ∈ p.grammar.lalr.itemsAt c.top := by
      intro m hm hlhs
      subst hbeyond
      exact Grammar.called_mem_itemsAt hitem hx rfl forest hm hlhs
    have htree := tree_runs hb hstart tree c (forest.tokens ++ rest) target hc
      (by simpa [Forest.tokens] using hreads) hedge hcalled
    cases hev : tree.eval p.reduction c.env with
    | mk result env =>
      rw [hev] at htree
      cases result with
      | error error => simpa only [Forest.eval, hev] using htree
      | ok value =>
        obtain ⟨c₁,hsteps,hpushed⟩ := htree
        have htop : c₁.top = target := by simp [Config.top, hpushed.states_eq]
        have hforest := forest_runs hb hstart forest c₁ rest n (d + 1)
          (by simp [hpushed.states_eq]) hpushed.reads (htop ▸ hadvance) hbeyond
        rw [hpushed.env_eq] at hforest
        cases hev' : forest.eval p.reduction env with
        | mk result' env' =>
          rw [hev'] at hforest
          cases result' with
          | error error =>
            simp only [Forest.eval, hev, hev']
            exact Ends.of_reflTransGen hsteps hforest
          | ok values =>
            obtain ⟨c₂,states,hsteps',hpushed',hstates,hvalues,hlast⟩ := hforest
            simp only [Forest.eval, hev, hev']
            refine ⟨c₂,states ++ [target],hsteps.trans hsteps',hpushed.cons hpushed',?_,?_,?_⟩
            · simp [hstates]
            · simp [hvalues]
            · rwa [List.length_cons, show d + (xs.length + 1) = d + 1 + xs.length by omega]

end

/-- From the first state the parser carries out the evaluation of a tree of the root and accepts. -/
theorem tree_ends (hb : Table.build p.grammar = .ok p.table) (hstart : p.grammar.StartFree)
    (tree : Tree p.grammar (.nonTerminal p.grammar.root)) (hstates : c.states = [0])
    (hreads : c.Reads tree.tokens) : p.Ends c
      (.ofResult (tree.eval p.reduction c.env).1, (tree.eval p.reduction c.env).2) := by
  have htop : c.top = 0 := by simp [Config.top, hstates]
  have hitem : ⟨0, 0, following []⟩ ∈ p.grammar.lalr.itemsAt c.top := by
    rw [htop]
    exact Grammar.start_mem_itemsAt
  have hroot : p.grammar.next ⟨0, 0, following []⟩ = some (.nonTerminal p.grammar.root) := rfl
  obtain ⟨target,hedge,hadvance⟩ := Grammar.exists_edge hitem hroot
  have hcalled : ∀ n < p.grammar.productions.length,
      .nonTerminal (p.grammar.production n).lhs = Symbol.nonTerminal p.grammar.root →
      ⟨n, 0, following []⟩ ∈ p.grammar.lalr.itemsAt c.top := by
    intro n hn hlhs
    exact Grammar.called_mem_itemsAt hitem hroot rfl .nil hn hlhs
  have hruns := tree_runs hb hstart tree c [] target (by simp [hstates]) (by simpa using hreads)
    hedge hcalled
  cases hev : tree.eval p.reduction c.env with
  | mk result env =>
    rw [hev] at hruns
    cases result with
    | error error => exact hruns
    | ok value =>
      obtain ⟨c',hsteps,hpushed⟩ := hruns
      have htop' : c'.top = target := by simp [Config.top, hpushed.states_eq]
      have ha : p.table.action c'.top c'.terminal = some .accept := by
        rw [htop', hpushed.reads.terminal_eq]
        exact Table.action_accept hb hadvance
      refine ⟨c',hsteps,?_⟩
      rw [value_step, ha]
      simp [accept, hpushed.values_eq, hpushed.env_eq, Outcome.ofResult]

def start (tokens : List Token) (announced : Bool) (env : Environment) : Config :=
  initial env tokens.head? ⟨tokens.tail.map .ok, announced⟩

theorem drive_eq_run (p : Parser) (tokens : List Token) (announced : Bool) (env : Environment) :
    (p.drive ⟨tokens.map .ok, announced⟩ env).value =
      (p.run (tokens.length + 1) (start tokens announced env)).value := by
  rw [value_drive]
  cases tokens with
  | nil => rfl
  | cons token rest => simp [start]

theorem settles_of_tree (hb : Table.build p.grammar = .ok p.table) (hstart : p.grammar.StartFree)
    (tree : Tree p.grammar (.nonTerminal p.grammar.root)) {announced : Bool} {env : Environment}
    {c' : Config} (hsteps : Relation.ReflTransGen p.Next (start tree.tokens announced env) c') :
    p.Settles c'.terminal c'.states := by
  obtain ⟨d,hsilent,halike,hd⟩ := exists_silent hsteps ⟨rfl,rfl,rfl⟩ rfl
  have hends := (tree_ends (p := p.silent) hb hstart tree rfl ⟨rfl,rfl⟩).after hsilent
  rw [halike.terminal_eq, halike.states_eq]
  exact settles_of_silent_ends hd hends

theorem drive_tree (hb : Table.build p.grammar = .ok p.table) (hstart : p.grammar.StartFree)
    (tree : Tree p.grammar (.nonTerminal p.grammar.root)) (announced : Bool) (env : Environment) :
    (p.drive ⟨tree.tokens.map .ok, announced⟩ env).value =
      (.ofResult (tree.eval p.reduction env).1, (tree.eval p.reduction env).2) := by
  have hroom : (start tree.tokens announced env).remaining < tree.tokens.length + 1 := by
    cases tree.tokens <;> simp [start, initial, Config.remaining]
  have hlt : ∀ q ∈ (start tree.tokens announced env).states, q < p.table.stateCount := by
    simp [start, initial, Table.stateCount_pos hb]
  have hrun := run_ends hb hlt hroom fun _ hsteps => settles_of_tree hb hstart tree hsteps
  rw [drive_eq_run]
  exact hrun.unique (tree_ends hb hstart tree rfl ⟨rfl,rfl⟩)

/-- Parsing the yield of a parse tree has the result and the environment of its evaluation, whatever
the reductions do, and the program of its value. -/
theorem drive_eq_eval {table : Table} (hb : Table.build g = .ok table) (hstart : g.StartFree)
    (reduction : ℕ → Reduction) (tree : Tree g (.nonTerminal g.root)) (announced : Bool)
    (env : Environment) :
    ((mk g table reduction).drive ⟨tree.tokens.map .ok, announced⟩ env).value =
      (.ofResult (tree.eval reduction env).1, (tree.eval reduction env).2) ∧
    ((mk g table reduction).drive ⟨tree.tokens.map .ok, announced⟩ env).value.1.toProgram =
      (tree.eval reduction env).1.bind Fragment.toProgram := by
  have hdrive := drive_tree (p := mk g table reduction) hb hstart tree announced env
  refine ⟨hdrive,?_⟩
  rw [hdrive]
  exact Outcome.toProgram_ofResult _

/-- Lists of names, the empty list among them. -/
def names : Grammar :=
  ⟨.program, [⟨.program, []⟩, ⟨.program, [.nonTerminal .program, .token .identifier]⟩]⟩

/-- Declares the names of a list one by one and fails at the first that is there already. -/
def declareOnce : ℕ → Reduction
  | 0 => .last
  | 2 => fun env values =>
    match values with
    | [list, .token name] =>
      if env.isDeclared name.text then
        pure (.error (.located (.unrecognisedToken name.text) name.position), env)
      else pure (.ok list, env.declare name.text)
    | _ => Reduction.last env values
  | _ => fun env _ => pure (.ok (.program ⟨[], .atStart⟩), env)

def twice (name : String) : Tree names (.nonTerminal names.root) :=
  .node ⟨2, by decide⟩ (.cons
    (.node ⟨2, by decide⟩ (.cons (.node ⟨1, by decide⟩ .nil)
      (.cons (.leaf ⟨.identifier, name, .start⟩) .nil)))
    (.cons (.leaf ⟨.identifier, name, .start⟩) .nil))

/-- The second of two equal names ends the parse, with the first one declared. -/
theorem drive_twice : ∃ table, Table.build names = .ok table ∧ names.StartFree ∧
    ((mk names table declareOnce).drive ⟨(twice "a").tokens.map .ok, false⟩ {}).value =
      (.failed (.located (.unrecognisedToken "a") .start), ⟨["a"], []⟩) := by
  have hbuilt : (Table.build names).isOk = true := by decide +kernel
  have hstart : names.StartFree := by decide
  cases hb : Table.build names with
  | error conflict =>
    rw [hb] at hbuilt
    cases hbuilt
  | ok table =>
    refine ⟨table,rfl,hstart,?_⟩
    exact (drive_eq_eval hb hstart declareOnce (twice "a") false {}).1

end Parser

end LetPrint
